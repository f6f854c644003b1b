import SemanticIndex.Proofs.Access.Direct
import SemanticIndex.Proofs.Bracketing

/-!
# Indexing by Direct Access

A file can be indexed while its definitions are gone through, from the node whose definitions they
are to those of the objects in them, without an outline (`Direct.indexDefinitions`). This notes for
every block the node on which it was put and its place among the fragments there, so that pragmas
can be added to it later on.

It goes to each node that it has come to, and these are there (`Indexer.Stands`). So it comes to the
same index as placing the blocks of an outline one after the other
(`Direct.indexDefinitions_eq`): where the outline has an object after what the object holds, the
node of the object is made earlier here, but it is made anyway.
-/

namespace SemanticIndex

namespace Index

variable {t : Index} {lay : Layout} {a : Address} {p : NodeId}

/-! ### Ways down -/

theorem mem_touch_iff {ids new : List NodeId} {i : NodeId} :
    i ∈ touch ids new ↔ i ∈ ids ∨ i ∈ new := by
  induction new generalizing ids with
  | nil => simp [touch]
  | cons j new ih =>
    have hcons : touch ids (j :: new) = touch (if j ∈ ids then ids else ids ++ [j]) new := rfl
    rw [hcons, ih]
    by_cases hj : j ∈ ids
    · grind
    · grind

theorem touch_append (ids new new' : List NodeId) :
    touch ids (new ++ new') = touch (touch ids new) new' :=
  List.foldl_append

/-- Touching nodes again adds none. -/
theorem touch_of_subset {ids new : List NodeId} (h : new ⊆ ids) : touch ids new = ids := by
  induction new with
  | nil => rfl
  | cons i new ih =>
    obtain ⟨hi, hnew⟩ := List.cons_subset.mp h
    have hcons : touch ids (i :: new) = touch (if i ∈ ids then ids else ids ++ [i]) new := rfl
    rw [hcons, if_pos hi, ih hnew]

/-- A way down is made piece by piece. -/
theorem ensurePath_append (t : Index) (p : NodeId) (xs ys : List String) :
    t.ensurePath p (xs ++ ys) =
      let first := t.ensurePath p xs
      let rest := first.1.ensurePath (first.2.getLast?.getD p) ys
      (rest.1, first.2 ++ rest.2) := by
  induction xs generalizing t p with
  | nil => rfl
  | cons x xs ih =>
    simp only [List.cons_append, ensurePath, ih, List.getLast?_cons, Option.getD_some]

/-- Where there is a way down, no node is made. -/
theorem Laid.ensurePath_eq (h : t.Laid lay) (ha : lay a = some p) {names : List String}
    {ids : List NodeId} (hlists : lay.Lists (a.steps (names.map nodeName)) ids) :
    t.ensurePath p names = (t, ids) := by
  induction names generalizing a p ids with
  | nil =>
    cases hlists
    rfl
  | cons name names ih =>
    obtain _ | ⟨hfirst, hrest⟩ := hlists
    rw [ensurePath, ensureChild_of_some ((h.child?_eq ha name).trans hfirst)]
    simp only [ih hfirst hrest]

/-! ### Fragments -/

/-- The number of fragments on a node. -/
def fragmentCount (t : Index) (id : NodeId) : Nat :=
  ((t.node? id).map fun n => n.fragments.length).getD 0

/-- The fragments of a live node are counted on the node. -/
theorem fragmentCount_eq {id : NodeId} {n : Node} (hn : t.node? id = some n) :
    t.fragmentCount id = n.fragments.length := by
  rw [fragmentCount, hn]
  rfl

/-- Where nothing more is deposited and no node moves, no fragments go. -/
theorem Holds.fragmentCount_le {u : Index} {lay' : Layout} {ds : List Deposit}
    {stale stale' : List NodeId} (h : t.Holds lay ds stale) (hu : u.Holds lay' ds stale')
    (hkeep : ∀ {a : Address} {id : NodeId}, lay a = some id → lay' a = some id) (i : NodeId) :
    t.fragmentCount i ≤ u.fragmentCount i := by
  cases hn : t.node? i with
  | none => rw [fragmentCount, hn]; exact Nat.zero_le _
  | some n =>
    obtain ⟨a, ha⟩ := h.laid.exists_address hn
    obtain ⟨m, hm⟩ := hu.laid.exists_node (hkeep ha)
    refine Nat.le_of_eq ?_
    rw [fragmentCount_eq hn, fragmentCount_eq hm, h.fragments_eq ha hn,
      hu.fragments_eq (hkeep ha) hm]

/-- A fragment comes on one node, after the others. -/
theorem fragmentCount_modifyNode_append {id : NodeId} (hid : t.isLive id) (f : Fragment)
    (i : NodeId) :
    (t.modifyNode id fun n => { n with fragments := n.fragments ++ [f] }).fragmentCount i =
      t.fragmentCount i + if i = id then 1 else 0 := by
  rw [fragmentCount, node?_modifyNode]
  split
  · rename_i hi
    obtain ⟨n, hn⟩ := Option.isSome_iff_exists.mp hid
    rw [hi, hn, fragmentCount_eq hn]
    simp
  · rfl

end Index

/-- A block lies below the objects around it. -/
theorem Definition.isPrefix_of_mem_blocksAll {file : SourcePath} {comments : List Comment}
    {path : List String} {c : Bool} {ds : List Definition} {b : Block}
    (hb : b ∈ blocksAll file comments path c ds) : path <+: b.path := by
  obtain ⟨s, hs, hsb⟩ := mem_blocksAll_iff.mp hb
  obtain ⟨-, -, -, hpath, -⟩ := Site.of_block?_eq hsb
  rw [hpath]
  exact (isPrefix_of_mem_sitesAll hs).trans (List.prefix_append _ _)

/-- What indexing keeps. -/
structure Indexer where
  index : Index
  /-- The nodes that the file has come to, in the order in which it first did. -/
  touched : List NodeId
  /-- The spans of the blocks, each with its node and its place among the fragments there. -/
  spans : List (Span × NodeId × Nat)

namespace Indexer

/-- Comes to the node to which some declared names lead from `top`. -/
def visit (top : NodeId) (s : Indexer) (path : List String) : Indexer × NodeId :=
  let (t, below) := s.index.ensurePath top path
  ({ s with
    index := t
    touched := Index.touch s.touched below }, below.getLast?.getD top)

/-- Puts a fragment on a node. -/
def push (s : Indexer) (id : NodeId) (f : Fragment) : Indexer :=
  { s with
    index := s.index.modifyNode id fun n => { n with fragments := n.fragments ++ [f] }
    spans := s.spans ++ (f.span.map (·, id, s.index.fragmentCount id)).toList }

/-- Puts the fragment of a block on its node. -/
def place (top : NodeId) (s : Indexer) (b : Block) : Indexer :=
  (s.visit top b.path).1.push (s.visit top b.path).2 b.fragment

/-- The nodes of the index stand as `lay` says, and only those that the file has come to may still
have to be summed up. -/
def Stands (s : Indexer) (lay : Layout) : Prop := ∃ ds, s.index.Holds lay ds s.touched

/-- The file has come to the node `id`, to which the names `path` lead from `top`. -/
structure Reached (s : Indexer) (lay : Layout) (top : Address) (path : List String) (id : NodeId) :
    Prop where
  stands_at : lay (top.down (path.map nodeName)) = some id
  exists_lists : ∃ ids, lay.Lists (top.steps (path.map nodeName)) ids ∧ ids ⊆ s.touched

/-- `s'` is what becomes of `s`: no node has moved, the file has come to no fewer nodes, and no
fragments have gone. -/
structure Later (s : Indexer) (lay : Layout) (s' : Indexer) (lay' : Layout) : Prop where
  stands : s'.Stands lay'
  keep : ∀ {a : Address} {id : NodeId}, lay a = some id → lay' a = some id
  touched : s.touched ⊆ s'.touched
  count_le : ∀ i, s.index.fragmentCount i ≤ s'.index.fragmentCount i

variable {s s' s'' : Indexer} {lay lay' lay'' : Layout} {top : Address} {p id : NodeId}
  {path : List String} {b : Block}

theorem Stands.laid (h : s.Stands lay) : s.index.Laid lay := h.choose_spec.laid

/-- Nothing has changed at once. -/
theorem Later.rfl (h : s.Stands lay) : s.Later lay s lay :=
  ⟨h, id, List.Subset.refl _, fun _ => Nat.le_refl _⟩

theorem Later.trans (h : s.Later lay s' lay') (h' : s'.Later lay' s'' lay'') :
    s.Later lay s'' lay'' :=
  ⟨h'.stands, fun ha => h'.keep (h.keep ha), fun _ hi => h'.touched (h.touched hi),
    fun i => Nat.le_trans (h.count_le i) (h'.count_le i)⟩

/-- What the file has come to, it has come to for good. -/
theorem Reached.later (h : s.Reached lay top path id) (hlater : s.Later lay s' lay') :
    s'.Reached lay' top path id := by
  obtain ⟨ids, hlists, hids⟩ := h.exists_lists
  exact ⟨hlater.keep h.stands_at, ids, hlists.keep hlater.keep,
    fun _ hi => hlater.touched (hids hi)⟩

/-- Where the file has been before, it comes to nothing new. -/
theorem Reached.visit_eq (h : s.Reached lay top path id) (hs : s.Stands lay)
    (htop : lay top = some p) : s.visit p path = (s, id) := by
  obtain ⟨ids, hlists, hids⟩ := h.exists_lists
  have hat := (hlists.getLast?_steps htop).symm.trans h.stands_at
  rw [visit, hs.laid.ensurePath_eq htop hlists]
  simp only [Index.touch_of_subset hids, Option.some.inj hat]

theorem visit_append (s : Indexer) (p : NodeId) (xs ys : List String) :
    s.visit p (xs ++ ys) = (s.visit p xs).1.visit (s.visit p xs).2 ys := by
  simp only [visit, Index.ensurePath_append, Index.touch_append, List.getLast?_append,
    Option.getD_or]

/-- After a visit there is a node where the file has come to. -/
theorem Stands.exists_visit (h : s.Stands lay) (htop : lay top = some p) (path : List String) :
    ∃ lay', s.Later lay (s.visit p path).1 lay' ∧
      (s.visit p path).1.Reached lay' top path (s.visit p path).2 := by
  obtain ⟨ds, hholds⟩ := h
  obtain ⟨lay', hholds', hlay, hlists, -⟩ := hholds.exists_ensurePath htop path
  have htouched : ∀ {i}, i ∈ (s.visit p path).1.touched ↔
      i ∈ s.touched ∨ i ∈ (s.index.ensurePath p path).2 := Index.mem_touch_iff
  refine ⟨lay', ⟨⟨ds, hholds'.mono fun i hi => htouched.mpr (List.mem_append.mp hi).symm⟩,
    hlay.keep, fun i hi => htouched.mpr (.inl hi), fun i => ?_⟩,
    hlists.getLast?_steps (hlay.keep htop), _, hlists, fun i hi => htouched.mpr (.inr hi)⟩
  exact hholds.fragmentCount_le hholds' hlay.keep i

/-- The node that the file has come to may have to be summed up. -/
theorem Reached.mem_touched (h : s.Reached lay top path id) (htop : lay top = some p)
    (hp : p ∈ s.touched) : id ∈ s.touched := by
  obtain ⟨ids, hlists, hids⟩ := h.exists_lists
  have hat := (hlists.getLast?_steps htop).symm.trans h.stands_at
  rw [← Option.some.inj hat]
  cases hlast : ids.getLast? with
  | none => exact hp
  | some i => exact hids (List.mem_of_getLast? hlast)

/-- Pushing a fragment on a touched node goes on from where the indexer stands. -/
theorem Stands.later_push (h : s.Stands lay) {a : Address} (ha : lay a = some id)
    (hid : id ∈ s.touched) (f : Fragment) : s.Later lay (s.push id f) lay := by
  have hlive : s.index.isLive id := h.laid.isLive_iff.mpr ⟨a, ha⟩
  obtain ⟨ds, hholds⟩ := h
  refine ⟨⟨_, hholds.deposit ha hid f⟩, fun ha => ha, List.Subset.refl _, fun i => ?_⟩
  rw [push, Index.fragmentCount_modifyNode_append hlive]
  exact Nat.le_add_right _ _

/-- So does placing a block. -/
theorem Stands.exists_place (h : s.Stands lay) (htop : lay top = some p) (hp : p ∈ s.touched)
    (b : Block) : ∃ lay', s.Later lay (s.place p b) lay' := by
  obtain ⟨lay', hlater, hreached⟩ := h.exists_visit htop b.path
  -- a block on the top itself is on a node to be summed up because the top is one from the start
  exact ⟨lay', hlater.trans (hlater.stands.later_push hreached.stands_at
    (hreached.mem_touched (hlater.keep htop) (hlater.touched hp)) b.fragment)⟩

/-- So does placing blocks one after the other. -/
theorem Stands.exists_foldl_place (h : s.Stands lay) (htop : lay top = some p)
    (hp : p ∈ s.touched) (bs : List Block) : ∃ lay', s.Later lay (bs.foldl (place p) s) lay' := by
  induction bs generalizing s lay with
  | nil => exact ⟨lay, .rfl h⟩
  | cons b bs ih =>
    obtain ⟨lay₁, hlater⟩ := h.exists_place htop hp b
    obtain ⟨lay₂, hlater'⟩ := ih hlater.stands (hlater.keep htop) (hlater.touched hp)
    exact ⟨lay₂, hlater.trans hlater'⟩

/-- A block that lies at or below a node comes to the node anyway. -/
theorem Stands.place_visit (h : s.Stands lay) (htop : lay top = some p) (hpath : path <+: b.path) :
    (s.visit p path).1.place p b = s.place p b := by
  obtain ⟨rest, hrest⟩ := hpath
  obtain ⟨lay', hlater, hreached⟩ := h.exists_visit htop path
  have hagain := hreached.visit_eq hlater.stands (hlater.keep htop)
  have hvisit : (s.visit p path).1.visit p b.path = s.visit p b.path := by
    rw [← hrest, visit_append, hagain, ← visit_append]
  rw [place, place, hvisit]

/-- So the node may be come to before some blocks, the first of which lies at or below it. -/
theorem Stands.foldl_place_visit (h : s.Stands lay) (htop : lay top = some p) {bs : List Block}
    (hne : bs ≠ []) (hpath : ∀ b ∈ bs, path <+: b.path) :
    bs.foldl (place p) (s.visit p path).1 = bs.foldl (place p) s := by
  cases bs with
  | nil => exact absurd rfl hne
  | cons b bs =>
    rw [List.foldl_cons, List.foldl_cons, h.place_visit htop (hpath b List.mem_cons_self)]

end Indexer

namespace Direct

/-- The child of `parent` declared as `declared`, made if there is none. -/
def ensureChild (t : Index) (parent : NodeId) (declared : String) :
    Direct (Index × NodeId) := do
  match (← node t parent).child? declared with
  | some child => return (t, child)
  | none =>
    let child := t.nextId
    let name := nodeName declared
    let made : Index := { t with
      nodes := t.nodes.insert child (.new name declared (t.ancestors parent))
      nextId := child + 1 }
    let linked ← modify made parent fun n => n.withChild name child
    return ({ linked with names := linked.names.addNode child (← node linked child) }, child)

/-- Comes to the child of `scope` declared as `declared`. -/
def enter (s : Indexer) (scope : NodeId) (declared : String) : Direct (Indexer × NodeId) := do
  let (t, child) ← ensureChild s.index scope declared
  return ({ s with
    index := t
    touched := Index.touch s.touched [child] }, child)

/-- Puts a fragment on a node. -/
def push (s : Indexer) (id : NodeId) (f : Fragment) : Direct Indexer := do
  let n ← node s.index id
  let t ← modify s.index id fun n => { n with fragments := n.fragments ++ [f] }
  return { s with
    index := t
    spans := s.spans ++ (f.span.map (·, id, n.fragments.length)).toList }

section

variable (file : SourcePath) (comments : List Comment)

mutual

/-- Indexes a definition of the node `scope`. -/
def indexDefinition (scope : NodeId) (conditionally : Bool) :
    Definition → Indexer → Direct Indexer
  | .object name body span, s => do
    let (s, child) ← enter s scope name.text
    let s ← indexDefinitions child conditionally body s
    push s child (Fragment.ofObject file comments conditionally name.text body span)
  | .conditional _ thenBody elseBody _, s => do
    let s ← indexDefinitions scope true thenBody s
    indexDefinitions scope true elseBody s
  | .loop _ _ _ body _, s => indexDefinitions scope true body s
  | .instantiation i, s => do
    let (s, child) ← enter s scope i.name
    push s child (Fragment.ofInstantiation file comments conditionally i)
  | .field _, s | .var _, s | .template .., s => return s

/-- Indexes the definitions of a body. -/
def indexDefinitions (scope : NodeId) (conditionally : Bool) :
    List Definition → Indexer → Direct Indexer
  | [], s => return s
  | d :: ds, s => do
    let s ← indexDefinition scope conditionally d s
    indexDefinitions scope conditionally ds s

end

end

variable {t : Index} {s : Indexer} {lay : Layout} {top : Address} {p id : NodeId}
  {path : List String} {c : Bool} {file : SourcePath} {comments : List Comment}

/-- A child is found or made without a fault. -/
theorem ensureChild_eq (hid : t.isLive id) (hnext : id ≠ t.nextId) (declared : String) :
    ensureChild t id declared = .ok (t.ensureChild id declared) := by
  obtain ⟨n, hn⟩ := Option.isSome_iff_exists.mp hid
  have hchild : t.child? id declared = n.child? declared := by
    rw [Index.child?, hn, Option.bind_some]
  rw [ensureChild, node_eq hn, ok_bind]
  cases hc : n.child? declared with
  | some child => rw [Index.ensureChild_of_some (hchild.trans hc)]; rfl
  | none =>
    -- the new node is not the parent, so both are there when they are gone to
    let made : Index := { t with
      nodes := t.nodes.insert t.nextId (.new (nodeName declared) declared (t.ancestors id))
      nextId := t.nextId + 1 }
    have hmade : made.isLive id := by
      have hnode := t.node?_addNode (.new (nodeName declared) declared (t.ancestors id)) id
      rw [if_neg hnext, hn] at hnode
      exact Index.isLive_of_node? (t := made) hnode
    have hlinked : (made.modifyNode id fun n => n.withChild (nodeName declared) t.nextId).node?
        t.nextId = some (.new (nodeName declared) declared (t.ancestors id)) :=
      Index.node?_plant_next hnext declared
    rw [Index.ensureChild_of_none (hchild.trans hc)]
    show (do
      let linked ← modify made id fun n => n.withChild (nodeName declared) t.nextId
      return ({ linked with
        names := linked.names.addNode t.nextId (← node linked t.nextId) }, t.nextId) :
          Direct (Index × NodeId)) = _
    rw [modify_eq hmade, ok_bind, node_eq hlinked]
    rfl

/-- A child is entered without a fault. -/
theorem enter_eq (hs : s.Stands lay) (htop : lay top = some id) (declared : String) :
    enter s id declared = .ok (s.visit id [declared]) := by
  have hlive : s.index.isLive id := hs.laid.isLive_iff.mpr ⟨_, htop⟩
  rw [enter, ensureChild_eq hlive (hs.laid.ne_next htop)]
  rfl

/-- Coming to a child of a node that the file has come to. -/
theorem enter_eq_visit (hs : s.Stands lay) (htop : lay top = some p)
    (hreached : s.Reached lay top path id) (declared : String) :
    enter s id declared = .ok (s.visit p (path ++ [declared])) := by
  rw [enter_eq hs hreached.stands_at, Indexer.visit_append, hreached.visit_eq hs htop]

/-- A fragment is pushed on a live node without a fault. -/
theorem push_eq (hid : s.index.isLive id) (f : Fragment) : push s id f = .ok (s.push id f) := by
  obtain ⟨n, hn⟩ := Option.isSome_iff_exists.mp hid
  rw [push, node_eq hn, ok_bind, modify_eq hid, ok_bind, Indexer.push, Index.fragmentCount, hn]
  rfl

/-- A block is put on the node to which the file has come for it. -/
theorem push_eq_place (hs : s.Stands lay) (htop : lay top = some p)
    (hreached : s.Reached lay top path id) (f : Fragment) :
    push s id f = .ok (s.place p ⟨path, f⟩) := by
  rw [push_eq (hs.laid.isLive_iff.mpr ⟨_, hreached.stands_at⟩), Indexer.place,
    hreached.visit_eq hs htop]

/-- Indexing a body places the blocks of its definitions, where indexing each definition does. -/
theorem indexDefinitions_of {ds : List Definition}
    (h : ∀ d ∈ ds, ∀ {s lay}, s.Stands lay → lay top = some p → p ∈ s.touched →
      s.Reached lay top path id → indexDefinition file comments id c d s =
        .ok ((Definition.blocks file comments path c d).foldl (Indexer.place p) s))
    (hs : s.Stands lay) (htop : lay top = some p) (hp : p ∈ s.touched)
    (hreached : s.Reached lay top path id) :
    indexDefinitions file comments id c ds s =
      .ok ((Definition.blocksAll file comments path c ds).foldl (Indexer.place p) s) := by
  induction ds generalizing s lay with
  | nil => simp only [indexDefinitions, Definition.blocksAll, List.foldl_nil]; rfl
  | cons d ds ih =>
    obtain ⟨hd, hds⟩ := List.forall_mem_cons.mp h
    obtain ⟨lay', hlater⟩ :=
      hs.exists_foldl_place htop hp (Definition.blocks file comments path c d)
    rw [indexDefinitions, hd hs htop hp hreached, ok_bind, Definition.blocksAll, List.foldl_append]
    exact ih hds hlater.stands (hlater.keep htop) (hlater.touched hp) (hreached.later hlater)

/-- Indexing the definitions of a node places their blocks, one after the other. -/
theorem indexDefinition_eq (d : Definition) (hs : s.Stands lay) (htop : lay top = some p)
    (hp : p ∈ s.touched) (hreached : s.Reached lay top path id) :
    indexDefinition file comments id c d s =
      .ok ((Definition.blocks file comments path c d).foldl (Indexer.place p) s) := by
  induction d using Definition.induction generalizing s lay path id c with
  | field | var | template => simp only [indexDefinition, Definition.blocks, List.foldl_nil]; rfl
  | object name body span ih =>
    obtain ⟨lay', hlater, hinside⟩ := hs.exists_visit htop (path ++ [name.text])
    -- all blocks of the object lie at or below its node
    have hvisit : (Definition.blocks file comments path c (.object name body span)).foldl
        (Indexer.place p) (s.visit p (path ++ [name.text])).1 = _ :=
      hs.foldl_place_visit htop (by simp [Definition.blocks]) fun b hb => by
        rw [Definition.blocks, List.mem_append, List.mem_singleton] at hb
        rcases hb with hb | rfl
        · exact Definition.isPrefix_of_mem_blocksAll hb
        · exact List.prefix_rfl
    rw [indexDefinition, enter_eq_visit hs htop hreached, ok_bind, ← hvisit, Definition.blocks,
      List.foldl_concat]
    generalize s.visit p (path ++ [name.text]) = r at hlater hinside
    obtain ⟨s', child⟩ := r
    obtain ⟨lay'', hlater'⟩ := hlater.stands.exists_foldl_place (hlater.keep htop)
      (hlater.touched hp) (Definition.blocksAll file comments (path ++ [name.text]) c body)
    dsimp only
    rw [indexDefinitions_of (fun d hd _ _ => ih d hd) hlater.stands (hlater.keep htop)
      (hlater.touched hp) hinside, ok_bind]
    exact push_eq_place hlater'.stands (hlater'.keep (hlater.keep htop)) (hinside.later hlater') _
  | conditional condition thenBody elseBody span ih ih' =>
    obtain ⟨lay', hlater⟩ := hs.exists_foldl_place htop hp
      (Definition.blocksAll file comments path true thenBody)
    rw [indexDefinition, indexDefinitions_of (fun d hd _ _ => ih d hd) hs htop hp hreached, ok_bind,
      indexDefinitions_of (fun d hd _ _ => ih' d hd) hlater.stands (hlater.keep htop)
        (hlater.touched hp) (hreached.later hlater), Definition.blocks, List.foldl_append]
  | loop key value items body span ih =>
    simp only [indexDefinition, Definition.blocks]
    exact indexDefinitions_of (fun d hd _ _ => ih d hd) hs htop hp hreached
  | instantiation i =>
    obtain ⟨lay', hlater, hinside⟩ := hs.exists_visit htop (path ++ [i.name])
    have hvisit : (s.visit p (path ++ [i.name])).1.place p
        ⟨path ++ [i.name], Fragment.ofInstantiation file comments c i⟩ = _ :=
      hs.place_visit htop List.prefix_rfl
    rw [indexDefinition, enter_eq_visit hs htop hreached, ok_bind, Definition.blocks,
      List.foldl_cons, List.foldl_nil, ← hvisit]
    exact push_eq_place hlater.stands (hlater.keep htop) hinside _

/-- The definitions of a body are indexed without a fault, and what they leave are their blocks. -/
theorem indexDefinitions_eq (ds : List Definition) (hs : s.Stands lay) (htop : lay top = some p)
    (hp : p ∈ s.touched) (hreached : s.Reached lay top path id) :
    indexDefinitions file comments id c ds s =
      .ok ((Definition.blocksAll file comments path c ds).foldl (Indexer.place p) s) :=
  indexDefinitions_of (fun d _ _ _ => indexDefinition_eq d) hs htop hp hreached

end Direct

end SemanticIndex
