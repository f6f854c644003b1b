import SemanticIndex.Proofs.Access.Direct
import SemanticIndex.Proofs.Maps

/-!
# Operations by Direct Access

Resolution, removal, evaluation and copying, and the walks that show an index, in the form that
goes to nodes directly. Where they write to nodes, these are nodes that they have met before, and no
node goes away in between. So they give what the operations give (`Direct.resolve_eq`,
`Direct.remove_eq`, `Direct.reevaluate_eq`, `Direct.copy_eq`).
-/

namespace SemanticIndex

namespace Index

/-- Changing some nodes one after the other, where nothing comes of changing one twice. -/
theorem foldl_modifyNode {f : NodeId → Node → Node} (hf : ∀ i n, f i (f i n) = f i n)
    (ids : List NodeId) (t : Index) :
    ids.foldl (fun t id => t.modifyNode id (f id)) t =
      { t with nodes := t.nodes.map fun i n => if i ∈ ids then f i n else n } := by
  induction ids generalizing t with
  | nil =>
    have hnodes : (t.nodes.map fun i n => if i ∈ [] then f i n else n) = t.nodes := by
      refine Std.ExtTreeMap.ext_getElem? fun i => ?_
      rw [Std.ExtTreeMap.getElem?_map]
      simp
    rw [hnodes]
    rfl
  | cons id ids ih =>
    have hnodes : ((t.nodes.modify id (f id)).map fun i n => if i ∈ ids then f i n else n) =
        t.nodes.map fun i n => if i ∈ id :: ids then f i n else n := by
      refine Std.ExtTreeMap.ext_getElem? fun i => ?_
      have hmodify := node?_modifyNode t id i (f id)
      rw [node?, modifyNode] at hmodify
      rw [Std.ExtTreeMap.getElem?_map, Std.ExtTreeMap.getElem?_map, hmodify]
      -- changed now, later, or both times
      by_cases hi : i = id <;> by_cases hmem : i ∈ ids <;>
        simp [node?, hi, hmem, Function.comp_def, hf]
    rw [List.foldl_cons, ih, ← hnodes]
    rfl

end Index

namespace Direct

/-! ### Resolution -/

/-- What a mention in a scope is bound to. -/
def bindingOf (t : Index) (scope : NodeId) (m : Mention) : Direct Binding := do
  if m.isLocal then
    return .unbound
  else
    match t.resolveVariable? scope m.name with
    | some (owner, v) => return .var owner v.declaration.name
    | none =>
      if m.marked then
        return .unbound
      else
        match ← resolveName? t scope m.name Index.anyNode with
        | some id => return .node id
        | none => return .unbound

/-- The record of a file with every reference bound. -/
def bindReferences (t : Index) (f : FileRecord) : Direct FileRecord := do
  let references ← f.references.mapM fun r => do
    return { r with binding := ← bindingOf t r.scope r.mention }
  return { f with references }

/-- For a node with a link name, what the name means from the scope around the node. -/
def link? (t : Index) (id : NodeId) : Direct (Option (NodeId × Option NodeId)) := do
  match t.linkName? id with
  | some name =>
    let scope := (← node t id).parent.getD id
    return some (id, ← resolveName? t scope name fun other _ => other != id)
  | none => return none

/-- The index with every reference bound and every link resolved. -/
def resolve (t : Index) : Direct Index := do
  let t ← ensureNames t
  let files ← t.files.toList.mapM fun f => return (f.1, ← bindReferences t f.2)
  let links ← t.nodes.toList.mapM fun n => link? t n.1
  (links.filterMap id).foldlM (fun t link => modify t link.1 fun n => { n with target := link.2 })
    { t with files := .ofList files }

section

variable {t : Index} {L : Ledger} {lay : Layout} {id : NodeId} {n : Node}

/-- What a mention is bound to is found without a fault. -/
theorem bindingOf_eq (h : t.Built L lay) (scope : NodeId) (m : Mention) :
    bindingOf t scope m = .ok (t.bindingOf scope m) := by
  rw [bindingOf, Index.bindingOf]
  split
  · rfl
  · cases t.resolveVariable? scope m.name with
    | some held => rfl
    | none =>
      simp only
      split
      · rfl
      · rw [resolveName?_eq h, ok_bind]
        cases t.resolveName? scope m.name Index.anyNode <;> rfl

/-- The references of a file are bound without a fault. -/
theorem bindReferences_eq (h : t.Built L lay) (f : FileRecord) :
    bindReferences t f = .ok (f.rebound fun r => t.bindingOf r.scope r.mention) := by
  have hreference : ∀ r ∈ f.references,
      (do return { r with binding := ← bindingOf t r.scope r.mention } : Direct Reference) =
        .ok { r with binding := t.bindingOf r.scope r.mention } := by
    intro r _
    rw [bindingOf_eq h, ok_bind]
    rfl
  rw [bindReferences, mapM_eq hreference, ok_bind]
  rfl

/-- The link of a live node is followed without a fault. -/
theorem link?_eq (h : t.Built L lay) (hn : t.node? id = some n) :
    link? t id = .ok ((t.linkName? id).map fun _ => (id, t.targetOf id n)) := by
  rw [link?, Index.targetOf]
  cases t.linkName? id with
  | none => rfl
  | some name =>
    simp only [node_eq hn, ok_bind, resolveName?_eq h]
    rfl

/-- For each node with a link name, what the name means from the scope around the node. -/
def links (t : Index) : List (NodeId × Option NodeId) :=
  t.nodes.toList.filterMap fun n => (t.linkName? n.1).map fun _ => (n.1, t.targetOf n.1 n.2)

theorem mem_links_iff {l : NodeId × Option NodeId} :
    l ∈ links t ↔ (t.linkName? l.1).isSome ∧ (t.node? l.1).map (t.targetOf l.1) = some l.2 := by
  obtain ⟨i, target⟩ := l
  simp only [links, List.mem_filterMap, Option.map_eq_some_iff, Prod.mk.injEq]
  constructor
  · rintro ⟨⟨i, n⟩, hn, name, hname, rfl, rfl⟩
    exact ⟨Option.isSome_iff_exists.mpr ⟨name, hname⟩, n,
      Std.ExtTreeMap.mem_toList_iff_getElem?_eq_some.mp hn, rfl⟩
  · rintro ⟨hname, n, hn, rfl⟩
    obtain ⟨name, hname⟩ := Option.isSome_iff_exists.mp hname
    exact ⟨(i, n), Std.ExtTreeMap.mem_toList_iff_getElem?_eq_some.mpr hn, name, hname, rfl, rfl⟩

/-- The targets of the links are noted; a node without a link name keeps its target. -/
theorem nodes_map_links (t : Index) :
    (t.nodes.map fun i n =>
      if i ∈ (links t).map Prod.fst then
        { n with target := (t.node? i).bind (t.targetOf i) }
      else n) = t.resolve.nodes := by
  refine Std.ExtTreeMap.ext_getElem? fun i => ?_
  rw [Index.resolve, Std.ExtTreeMap.getElem?_map, Std.ExtTreeMap.getElem?_map]
  refine Option.map_congr fun n hn => ?_
  have hnode : t.node? i = some n := hn
  rw [hnode, Option.bind_some]
  split
  · rfl
  · rename_i hi
    have hname : t.linkName? i = none := by
      rw [← Option.not_isSome_iff_eq_none]
      intro hname
      have hlink : (i, t.targetOf i n) ∈ links t :=
        mem_links_iff.mpr ⟨hname, by rw [hnode]; rfl⟩
      exact hi (List.mem_map.mpr ⟨_, hlink, rfl⟩)
    rw [Index.targetOf, hname]

/-- The targets of the links are written one after the other. -/
theorem foldl_links (t u : Index) (hnodes : u.nodes = t.nodes) :
    (links t).foldl (fun u l => u.modifyNode l.1 fun n => { n with target := l.2 }) u =
      { u with nodes := t.resolve.nodes } := by
  have hwrites := Index.foldl_modifyNode
    (f := fun i n => { n with target := (t.node? i).bind (t.targetOf i) }) (fun _ _ => rfl)
    ((links t).map Prod.fst) u
  rw [hnodes, nodes_map_links, List.foldl_map] at hwrites
  rw [← hwrites]
  refine List.foldl_ext _ _ _ fun u l hl => ?_
  obtain ⟨n, hn, htarget⟩ := Option.map_eq_some_iff.mp (mem_links_iff.mp hl).2
  rw [hn, Option.bind_some, htarget]

/-- Resolution writes to the links that it has found. -/
theorem resolve_eq (h : t.Built L lay) : resolve t = .ok t.resolve := by
  have hfiles : t.files.toList.mapM (fun f => return (f.1, ← bindReferences t f.2)) =
      (.ok (t.files.toList.map fun f =>
        (f.1, f.2.rebound fun r => t.bindingOf r.scope r.mention)) :
          Direct (List (List PathComponent × FileRecord))) := by
    refine mapM_eq fun f _ => ?_
    rw [bindReferences_eq h, ok_bind]
    rfl
  have hlinks : t.nodes.toList.mapM (fun n => link? t n.1) =
      .ok (t.nodes.toList.map fun n => (t.linkName? n.1).map fun _ => (n.1, t.targetOf n.1 n.2)) :=
    mapM_eq fun n hn => link?_eq h (Std.ExtTreeMap.mem_toList_iff_getElem?_eq_some.mp hn)
  have hfound : (t.nodes.toList.map fun n =>
      (t.linkName? n.1).map fun _ => (n.1, t.targetOf n.1 n.2)).filterMap id = links t := by
    rw [List.filterMap_map]
    rfl
  have hrecords := ofList_map_toList t.files fun _ f =>
    f.rebound fun r => t.bindingOf r.scope r.mention
  -- nothing is written before all has been looked up, and then only to nodes that were met
  rw [resolve, ensureNames_eq h, ok_bind, hfiles, ok_bind, hlinks, ok_bind, hfound, hrecords]
  refine (foldlM_modify (f := fun (l : NodeId × Option NodeId) n => { n with target := l.2 })
    fun l hl => ?_).trans ?_
  · obtain ⟨n, hn, -⟩ := Option.map_eq_some_iff.mp (mem_links_iff.mp hl).2
    exact Index.isLive_of_node? (t := t) hn
  · refine congrArg Except.ok (foldl_links t _ ?_)
    rfl

end

/-! ### Removal -/

/-- Unbinds the references, and clears the targets of links, that lead to what is gone. -/
def clearDangling (t : Index) : Direct Index :=
  let stale := t.nodes.toList.filter fun n => n.2.target.any fun target => !t.isLive target
  stale.foldlM (fun t n => modify t n.1 fun n => { n with target := none })
    { t with files := t.files.map fun _ f => f.rebound fun r => t.keepBinding r.binding }

/-- The index without a file; unchanged if the file is not indexed. -/
def remove (t : Index) (path : SourcePath) : Direct Index :=
  match t.file? path with
  | some f =>
    let left := ((t.emptied f).deepestFirst f.nodes).foldl Index.prune (t.emptied f)
    clearDangling (left.dropRoot f)
  | none => return t

section

variable {t : Index} {id : NodeId} {n : Node}

/-- Only the targets of nodes that are there are cleared. -/
theorem clearDangling_eq (t : Index) : clearDangling t = .ok t.clearDangling := by
  let stale := t.nodes.toList.filter fun n => n.2.target.any fun target => !t.isLive target
  let u : Index := { t with
    files := t.files.map fun _ f => f.rebound fun r => t.keepBinding r.binding }
  -- the nodes that are written are those whose targets are gone
  have hmem : ∀ i, i ∈ stale.map Prod.fst ↔
      ∃ n, t.node? i = some n ∧ (n.target.any fun target => !t.isLive target) = true := by
    intro i
    simp only [stale, List.mem_map, List.mem_filter]
    constructor
    · rintro ⟨⟨i, n⟩, ⟨hn, hstale⟩, rfl⟩
      exact ⟨n, Std.ExtTreeMap.mem_toList_iff_getElem?_eq_some.mp hn, hstale⟩
    · rintro ⟨n, hn, hstale⟩
      exact ⟨(i, n), ⟨Std.ExtTreeMap.mem_toList_iff_getElem?_eq_some.mpr hn, hstale⟩, rfl⟩
  -- on all others filtering the target does nothing
  have hnodes : (t.nodes.map fun i n => if i ∈ stale.map Prod.fst then { n with target := none }
      else n) = t.clearDangling.nodes := by
    refine Std.ExtTreeMap.ext_getElem? fun i => ?_
    rw [Index.clearDangling, Std.ExtTreeMap.getElem?_map, Std.ExtTreeMap.getElem?_map]
    refine Option.map_congr fun n hn => ?_
    have hi : i ∈ stale.map Prod.fst ↔ (n.target.any fun target => !t.isLive target) = true := by
      rw [hmem, show t.node? i = some n from hn]
      simp
    obtain ⟨name, realName, above, children, fragments, summary, target⟩ := n
    cases target with
    | none => simp [hi]
    | some j => cases hj : t.isLive j <;> simp [hi, hj, Option.filter_some]
  have hwrites := Index.foldl_modifyNode (f := fun _ n => { n with target := none })
    (fun _ _ => rfl) (stale.map Prod.fst) u
  rw [List.foldl_map] at hwrites
  refine (foldlM_modify (f := fun _ n => { n with target := none }) fun n hn => ?_).trans ?_
  · obtain ⟨m, hm, -⟩ := (hmem n.1).mp (List.mem_map_of_mem hn)
    exact Index.isLive_of_node? (t := t) hm
  · refine congrArg Except.ok (hwrites.trans ?_)
    show { u with nodes := t.nodes.map _ } = _
    rw [hnodes]
    rfl

/-- A file is removed without a fault. -/
theorem remove_eq (t : Index) (path : SourcePath) : remove t path = .ok (t.remove path) := by
  rw [remove, Index.remove]
  cases t.file? path with
  | none => rfl
  | some f => exact clearDangling_eq _

end

/-! ### Evaluation -/

/-- Evaluates all field entries and notes the results afterwards. -/
def reevaluate (t : Index) (o : EvaluationOptions) : Direct Index :=
  let results := t.entries.map fun r => (r.1, t.evaluateAt o r.1.node r.2.value)
  results.foldlM
    (fun t r => modify t r.1.node fun n =>
      { n with summary := n.summary.noteAt r.1.field r.1.index r.2 })
    t

/-- The results are noted on nodes that have been evaluated. -/
theorem reevaluate_eq (t : Index) (o : EvaluationOptions) :
    reevaluate t o = .ok (t.reevaluate o) := by
  have hnotes := t.run_reevaluateInOrder o (List.Perm.refl t.entries)
  rw [Index.reevaluateInOrder, StateT.run_bind, Index.run_mapM_evaluateEntry] at hnotes
  refine (foldlM_modify (f := fun (r : EntryPlace × Value) n =>
    { n with summary := n.summary.noteAt r.1.field r.1.index r.2 }) fun r hr => ?_).trans
      (congrArg (fun noted => Except.ok noted.1.1) hnotes)
  obtain ⟨⟨p, e⟩, he, rfl⟩ := List.mem_map.mp hr
  obtain ⟨n, hn, -⟩ := Option.bind_eq_some_iff.mp (Index.mem_entries_iff.mp he)
  exact Index.isLive_of_node? hn

/-! ### Copies and walks -/

/-- An independent copy, its references and links just resolved. -/
def copy (t : Index) : Direct Index := do
  let nodes ← t.walk.mapM fun id => return Index.copyNode t.places (← node t id)
  let t ← rebuildNames { t.bareCopy with nodes := .ofList (nodes.zipIdx.map fun n => (n.2, n.1)) }
  resolve t

/-- The nodes of a walk with their numbers. -/
def walk (t : Index) : Direct (List (NodeId × Node)) :=
  t.walk.mapM fun id => return (id, ← node t id)

/-- The text that shows an index. -/
def listing (t : Index) : Direct String := do
  let nodes ← t.preorder.mapM fun p => return (← node t p.1).lines p.2
  let lines := nodes.flatten ++
    t.templatesByName.toList.map (fun r => Index.templateLine r.1 r.2) ++
    t.files.values.flatMap (fun f =>
      f.pragmas.map fun p => "global pragma " ++ f.path.text ++ " " ++ p.text) ++
    t.references.map Reference.line
  return String.join (lines.map (· ++ "\n"))

section

variable {t : Index} {L : Ledger} {lay : Layout}

/-- A walk passes nodes that are there. -/
theorem isLive_of_mem_walk (h : t.Built L lay) : ∀ id ∈ t.walk, t.isLive id :=
  fun _ hid => (h.laid.mem_walk_iff h.rooted).mp hid

/-- The walk comes to live nodes only. -/
theorem walk_eq (h : t.Built L lay) :
    walk t = .ok (t.walk.filterMap fun id => (t.node? id).map (id, ·)) :=
  mapM_node (isLive_of_mem_walk h) fun id n => (id, n)

/-- The index is listed without a fault. -/
theorem listing_eq (h : t.Built L lay) : listing t = .ok t.listing := by
  have hnodes : (t.preorder.mapM fun p => return (← node t p.1).lines p.2 : Direct _) =
      .ok (t.preorder.map fun p => ((t.node? p.1).map (·.lines p.2)).getD []) := by
    refine mapM_eq fun p hp => ?_
    obtain ⟨n, hn⟩ := Option.isSome_iff_exists.mp
      (isLive_of_mem_walk h p.1 (List.mem_map_of_mem hp))
    rw [node_eq hn, hn]
    rfl
  rw [listing, hnodes, ok_bind, Index.listing, Index.lines, List.flatMap_def]
  rfl

/-- A copy is made of the nodes that a walk passes, and its names and references are then found in
the copy. -/
theorem copy_eq (h : t.Built L lay) : copy t = .ok t.copy := by
  have hnodes := mapM_node (isLive_of_mem_walk h) fun _ n => Index.copyNode t.places n
  have hcopied : (t.walk.filterMap fun id => (t.node? id).map (Index.copyNode t.places)) =
      (t.walk.filterMap t.node?).map (Index.copyNode t.places) := List.map_filterMap.symm
  have hbare : rebuildNames t.bareCopy = .ok t.bareCopy.rebuildNames :=
    rebuildNames_eq (h.laid.bareCopy h.rooted) h.rooted.bareCopy
  rw [copy, hnodes, ok_bind, hcopied]
  show rebuildNames t.bareCopy >>= resolve = _
  rw [hbare, ok_bind, resolve_eq h.bareCopy, Index.copy_eq]

end

end Direct

end SemanticIndex
