import SemanticIndex.Proofs.Lookup
import SemanticIndex.Proofs.Reevaluation
import SemanticIndex.Proofs.Runs

/-!
# Direct Access

An index is made to be asked whether a node is there (`Index.node?`). What its operations do inside,
though, they may do by going to a node directly, where they take it for granted. Here they are
written in this way: a computation that goes to a node that is gone, or to a fragment that its node
does not have, stops there (`Fault`).

An operation in this form gives what the operation gives, as long as no node is gone to which it
goes. This module has the accesses themselves, the names and the look-ups; all nodes to which a
look-up goes are there in every index that is built from a ledger (`Direct.lookup?_eq`,
`Direct.resolveName?_eq`).
-/

namespace SemanticIndex

/-- What direct access has not found. -/
inductive Fault where
  /-- A node of this number. -/
  | node (id : NodeId)
  /-- A fragment at this place of a node. -/
  | fragment (id : NodeId) (place : Nat)
  deriving DecidableEq

/-- A computation that goes to nodes and fragments directly, and stops where there is none. -/
abbrev Direct (α : Type) := Except Fault α

namespace Direct

/-- The node with a number. -/
def node (t : Index) (id : NodeId) : Direct Node :=
  match t.node? id with
  | some n => .ok n
  | none => .error (.node id)

/-- Applies `f` to the node with a number. -/
def modify (t : Index) (id : NodeId) (f : Node → Node) : Direct Index := do
  let _ ← node t id
  return t.modifyNode id f

/-! ### Going through lists -/

section

variable {α β : Type}

theorem ok_bind (a : α) (f : α → Direct β) : (Except.ok a >>= f : Direct β) = f a := rfl

/-- What is computed without a fault for each item is so for the list. -/
theorem mapM_eq {f : α → Direct β} {g : α → β} {as : List α} (h : ∀ a ∈ as, f a = .ok (g a)) :
    as.mapM f = .ok (as.map g) := by
  induction as with
  | nil => rfl
  | cons a as ih =>
    obtain ⟨ha, has⟩ := List.forall_mem_cons.mp h
    rw [List.mapM_cons, ha, ok_bind, ih has, ok_bind]
    rfl

/-- The first answer is found without a fault if every item is asked without one. -/
theorem findSomeM?_eq {f : α → Direct (Option β)} {g : α → Option β} {as : List α}
    (h : ∀ a ∈ as, f a = .ok (g a)) : as.findSomeM? f = .ok (as.findSome? g) := by
  induction as with
  | nil => rfl
  | cons a as ih =>
    obtain ⟨ha, has⟩ := List.forall_mem_cons.mp h
    rw [List.findSomeM?, ha, List.findSome?_cons, ok_bind]
    cases g a with
    | none => exact ih has
    | some b => rfl

/-- What each step does as long as `P` holds, and `P` goes on to hold. -/
theorem foldlM_eq {f : β → α → Direct β} {g : β → α → β} {P : β → Prop} {as : List α}
    (hstep : ∀ b, P b → ∀ a ∈ as, f b a = .ok (g b a) ∧ P (g b a)) {b : β} (hb : P b) :
    as.foldlM f b = .ok (as.foldl g b) := by
  induction as generalizing b with
  | nil => rfl
  | cons a as ih =>
    obtain ⟨ha, hnext⟩ := hstep b hb a List.mem_cons_self
    rw [List.foldlM_cons, ha, ok_bind, List.foldl_cons]
    exact ih (fun b hb a ha => hstep b hb a (List.mem_cons_of_mem _ ha)) hnext

end

/-! ### Nodes -/

section

variable {t : Index} {id : NodeId} {n : Node}

/-- Reading a node that is there is no fault. -/
theorem node_eq (hn : t.node? id = some n) : node t id = .ok n := by
  rw [node, hn]

/-- Nodes that are there are found one after the other. -/
theorem mapM_node {α β : Type} {as : List α} {at' : α → NodeId} (h : ∀ a ∈ as, t.isLive (at' a))
    (g : α → Node → β) :
    (as.mapM fun a => return g a (← node t (at' a)) : Direct (List β)) =
      .ok (as.filterMap fun a => (t.node? (at' a)).map (g a)) := by
  induction as with
  | nil => rfl
  | cons a as ih =>
    obtain ⟨ha, has⟩ := List.forall_mem_cons.mp h
    obtain ⟨n, hn⟩ := Option.isSome_iff_exists.mp ha
    rw [List.mapM_cons, node_eq hn, ih has, List.filterMap_cons, hn]
    rfl

/-- Modifying a node that is there is no fault. -/
theorem modify_eq (h : t.isLive id) (f : Node → Node) :
    modify t id f = .ok (t.modifyNode id f) := by
  obtain ⟨n, hn⟩ := Option.isSome_iff_exists.mp h
  rw [modify, node_eq hn]
  rfl

/-- Modifying a node takes none away. -/
theorem isLive_modifyNode (t : Index) (id : NodeId) (f : Node → Node) (i : NodeId) :
    (t.modifyNode id f).isLive i = t.isLive i := by
  rw [Index.isLive, Index.node?_modifyNode, Index.isLive]
  split
  · exact Option.isSome_map
  · rfl

/-- What is done to nodes that are there is done to each of them. -/
theorem foldlM_modify {α : Type} {as : List α} {at' : α → NodeId} {f : α → Node → Node}
    (h : ∀ a ∈ as, t.isLive (at' a)) :
    as.foldlM (fun t a => modify t (at' a) (f a)) t =
      .ok (as.foldl (fun t a => t.modifyNode (at' a) (f a)) t) := by
  refine foldlM_eq (P := fun u => ∀ i, u.isLive i = t.isLive i) (fun u hu a ha => ⟨?_, ?_⟩)
    fun _ => rfl
  · exact modify_eq (hu _ ▸ h a ha) _
  · exact fun i => (isLive_modifyNode ..).trans (hu i)

end

/-! ### Names -/

/-- Lists the names of all nodes anew. -/
def rebuildNames (t : Index) : Direct Index := do
  let names ← t.walk.foldlM (fun names id => return names.addNode id (← node t id)) .empty
  return { t with names }

/-- The index with a name table that is not empty, rebuilt if it is. -/
def ensureNames (t : Index) : Direct Index := if t.names.isEmpty then rebuildNames t else return t

/-- The nodes called `name`: those that the name table lists or, if it is empty, those that a walk
finds. -/
def candidates (t : Index) (name : String) : Direct (List NodeId) := do
  if t.names.isEmpty then
    let found ← t.walk.mapM fun id => do
      let n ← node t id
      return (id, n.name == name || n.realName == name)
    return (found.filter Prod.snd).map Prod.fst
  else
    return t.names.get name

/-- The node reached from `id` by going from child to child along some declared names. -/
def follow? (t : Index) (id : NodeId) : List String → Direct (Option NodeId)
  | [] => return some id
  | name :: names => do
    match (← node t id).child? name with
    | some child => follow? t child names
    | none => return none

/-- Whether a node stands where the mode wants the first segment of a name. -/
def inReach (t : Index) (anchor : NodeId) (mode : LookupMode) (id : NodeId) : Direct Bool := do
  match mode with
  | .child => return (← node t id).parent == some anchor
  | .below => return t.isBelow id anchor

/-- The accepted node to which the segments `rest` lead from `start`, if `start` is in reach. -/
def landing? (t : Index) (anchor : NodeId) (mode : LookupMode) (rest : List String)
    (accept : NodeFilter) (start : NodeId) : Direct (Option NodeId) := do
  if ← inReach t anchor mode start then
    match ← follow? t start rest with
    | some id => return if accept id (← node t id) then some id else none
    | none => return none
  else
    return none

/-- The node that a dotted name means from an anchor. -/
def lookup? (t : Index) (anchor : NodeId) (name : String) (mode : LookupMode)
    (accept : NodeFilter) : Direct (Option NodeId) := do
  match nameSegments name with
  | [] => return none
  | head :: rest =>
    let first := nodeName head
    if first = "" then
      return none
    else
      let found ← (← candidates t first).mapM (landing? t anchor mode rest accept)
      return t.best? (found.filterMap id)

/-- The node that a name means from a scope. -/
def resolveName? (t : Index) (scope : NodeId) (name : String) (accept : NodeFilter) :
    Direct (Option NodeId) := do
  match ← (t.ancestors scope).findSomeM? fun anchor => lookup? t anchor name .below accept with
  | some id => return some id
  | none => lookup? t Index.root name .child accept

section

variable {t : Index} {L : Ledger} {lay : Layout} {id : NodeId}

/-- A walk passes nodes that are there. -/
theorem rebuildNames_eq (h : t.Laid lay) (hrooted : t.Rooted lay) :
    rebuildNames t = .ok t.rebuildNames := by
  have hnames : t.walk.foldlM (fun names id => return names.addNode id (← node t id)) .empty =
      (.ok t.rebuildNames.names : Direct NameTable) := by
    refine foldlM_eq (P := fun _ => True) (fun names _ id hid => ⟨?_, trivial⟩) trivial
    obtain ⟨n, hn⟩ := Option.isSome_iff_exists.mp ((h.mem_walk_iff hrooted).mp hid)
    simp only [node_eq hn, hn]
    rfl
  rw [rebuildNames, hnames]
  rfl

/-- The name table of a built index stands, so that it need not be made. -/
theorem ensureNames_eq (h : t.Built L lay) : ensureNames t = .ok t := by
  have hroot : t.isLive Index.root := h.laid.isLive_iff.mpr ⟨_, h.laid.root_at⟩
  rw [ensureNames, h.named.not_isEmpty hroot]
  rfl

/-- The nodes listed under a name are read without a fault. -/
theorem candidates_eq (h : t.Laid lay) (hrooted : t.Rooted lay) (name : String) :
    candidates t name = .ok (t.candidates name) := by
  rw [candidates, Index.candidates]
  split
  · have hfound : (t.walk.mapM fun id => do
        let n ← node t id
        return (id, n.name == name || n.realName == name) : Direct _) =
        .ok (t.walk.map fun id => (id, match t.node? id with
          | some n => n.name == name || n.realName == name
          | none => false)) := by
      refine mapM_eq fun id hid => ?_
      obtain ⟨n, hn⟩ := Option.isSome_iff_exists.mp ((h.mem_walk_iff hrooted).mp hid)
      rw [node_eq hn, hn]
      rfl
    rw [hfound]
    refine congrArg Except.ok ?_
    rw [List.filter_map, List.map_map]
    exact List.map_id _
  · rfl

/-- Nodes that are listed under a name are live. -/
theorem isLive_of_mem_candidates (h : t.Built L lay) {name : String}
    (hid : id ∈ t.candidates name) : t.isLive id := by
  rw [Index.candidates] at hid
  split at hid
  · exact (h.laid.mem_walk_iff h.rooted).mp (List.mem_of_mem_filter hid)
  · obtain ⟨n, hn, -⟩ := (h.named.mem_iff name id).mp hid
    exact Index.isLive_of_node? hn

/-- Children are live. -/
theorem isLive_of_child? (h : t.Laid lay) {n : Node} (hn : t.node? id = some n) {declared : String}
    {child : NodeId} (hchild : n.child? declared = some child) : t.isLive child := by
  obtain ⟨a, ha⟩ := h.exists_address hn
  rw [Node.child?, h.child_eq ha hn] at hchild
  exact h.isLive_iff.mpr ⟨_, hchild⟩

/-- The way down goes from node to node. -/
theorem follow?_eq (h : t.Laid lay) (hid : t.isLive id) (names : List String) :
    follow? t id names = .ok (t.follow? id names) ∧ ∀ j ∈ t.follow? id names, t.isLive j := by
  induction names generalizing id with
  | nil =>
    refine ⟨rfl, fun j hj => ?_⟩
    rw [Index.follow?, Option.mem_some] at hj
    exact hj ▸ hid
  | cons name names ih =>
    obtain ⟨n, hn⟩ := Option.isSome_iff_exists.mp hid
    rw [follow?, node_eq hn, ok_bind, Index.follow?, Index.child?, hn, Option.bind_some]
    -- a child of a node that is there is there, so the way can go on
    cases hchild : n.child? name with
    | none => exact ⟨rfl, fun j hj => absurd hj (Option.not_mem_none j)⟩
    | some child => exact ih (isLive_of_child? h hn hchild)

/-- A node that is not there cannot be left. -/
example : follow? (.empty {}) 7 ["web"] = .error (.node 7) := rfl

/-- Whether a node is in reach is decided without a fault. -/
theorem inReach_eq (hid : t.isLive id) (anchor : NodeId) (mode : LookupMode) :
    inReach t anchor mode id = .ok (t.inReach anchor mode id) := by
  cases mode with
  | child =>
    obtain ⟨n, hn⟩ := Option.isSome_iff_exists.mp hid
    rw [inReach, node_eq hn, Index.inReach, Index.parent?, hn]
    rfl
  | below => rfl

/-- All nodes between a start that is there and its landing are there. -/
theorem landing?_eq (h : t.Laid lay) (hid : t.isLive id) (anchor : NodeId) (mode : LookupMode)
    (rest : List String) (accept : NodeFilter) :
    landing? t anchor mode rest accept id =
      .ok (if t.inReach anchor mode id then
        (t.follow? id rest).filter fun j => (t.node? j).any (accept j) else none) := by
  obtain ⟨hfollow, hlive⟩ := follow?_eq h hid rest
  rw [landing?, inReach_eq hid, ok_bind]
  split
  · rw [hfollow, ok_bind]
    cases hland : t.follow? id rest with
    | none => rfl
    | some j =>
      obtain ⟨n, hn⟩ := Option.isSome_iff_exists.mp (hlive j hland)
      rw [Option.filter_some, hn, Option.any_some]
      simp only [node_eq hn]
      rfl
  · rfl

/-- A look-up finds all nodes to which it goes. -/
theorem lookup?_eq (h : t.Built L lay) (anchor : NodeId) (name : String) (mode : LookupMode)
    (accept : NodeFilter) :
    lookup? t anchor name mode accept = .ok (t.lookup? anchor name mode accept) := by
  rw [lookup?, Index.lookup?, Index.landings]
  cases nameSegments name with
  | nil => rfl
  | cons head rest =>
    by_cases hfirst : nodeName head = ""
    · simp only [hfirst, if_true]
      rfl
    · simp only [hfirst, if_false, candidates_eq h.laid h.rooted, ok_bind]
      rw [mapM_eq fun id hid =>
        landing?_eq h.laid (isLive_of_mem_candidates h hid) anchor mode rest accept]
      refine congrArg (fun ids => Except.ok (t.best? ids)) ?_
      -- the same starts are taken in the same order
      rw [Index.landed, List.filterMap_map, List.filter_filterMap, List.map_filterMap]
      refine List.filterMap_congr fun id _ => ?_
      rw [Function.comp_apply, id_eq]
      cases (t.follow? id rest).filter fun j => (t.node? j).any (accept j) with
      | none => simp
      | some j => cases hreach : t.inReach anchor mode id <;> simp [Option.filter_some, hreach]

/-- A name is resolved without a fault. -/
theorem resolveName?_eq (h : t.Built L lay) (scope : NodeId) (name : String)
    (accept : NodeFilter) :
    resolveName? t scope name accept = .ok (t.resolveName? scope name accept) := by
  rw [resolveName?, findSomeM?_eq fun anchor _ => lookup?_eq h anchor name .below accept,
    Index.resolveName?_eq, lookup?_eq h]
  cases (t.ancestors scope).findSome? fun anchor => t.lookup? anchor name .below accept <;> rfl

end

end Direct

end SemanticIndex
