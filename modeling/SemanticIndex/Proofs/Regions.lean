import SemanticIndex.Proofs.Expanding
import SemanticIndex.Proofs.Resolving

/-!
# What Names Mean Depends on

A region is made of whole trees of the forest, that of the common root among them
(`Index.IsRegion`). What a name means in a node is looked for above the node, below what is above
it, and at the common root, and never leaves a region in which the node lies. So two indexes that
agree on a region (`Index.AgreesOn`) answer alike in it, whatever lies outside: variables, nodes,
bindings, link names and values (`Index.AgreesOn.evaluateAt_eq`).

The region may be all of the forest: then the two indexes are resolved alike
(`Index.AgreesOn.resolve_eq`). Resolution has no part in what it works out itself, so to resolve
twice is to resolve once (`Index.Built.resolve_resolve`).
-/

namespace SemanticIndex

theorem findSome?_congr {α β : Type} {f g : α → Option β} {xs : List α}
    (h : ∀ x ∈ xs, f x = g x) : xs.findSome? f = xs.findSome? g := by
  rw [← List.head?_filterMap, ← List.head?_filterMap, List.filterMap_congr h]

/-- The node without its target. -/
def Node.withoutTarget (n : Node) : Node := { n with target := none }

namespace Index

/-- The nodes for which `p` holds make up whole trees, and that of the common root is among them. -/
structure IsRegion (t : Index) (p : NodeId → Bool) : Prop where
  root_mem : p root = true
  closed : ∀ {i j : NodeId}, j ∈ t.ancestors i → p j = p i

/-- In `u` there is what there is in `t` within a region, but for targets, and the name table lists
the nodes of the region in the same order and no others. -/
structure AgreesOn (u t : Index) (p : NodeId → Bool) : Prop where
  options_eq : u.options = t.options
  node_eq : ∀ i, p i = true →
    (u.node? i).map Node.withoutTarget = (t.node? i).map Node.withoutTarget
  names_eq : ∀ s, u.names.get s = (t.names.get s).filter p

variable {t u : Index} {L L' : Ledger} {lay lay' : Layout} {p : NodeId → Bool} {i j : NodeId}
  {name : String} {accept : NodeFilter}

/-- The ancestors of a node are itself and what is noted above it. -/
theorem ancestors_eq_getD (t : Index) (i : NodeId) :
    t.ancestors i = ((t.node? i).bind fun n => some (i :: n.above)).getD [] := by
  rw [ancestors]
  cases t.node? i <;> rfl

/-! ### Within a region -/

namespace IsRegion

variable (hp : t.IsRegion p)
include hp

/-- A child lies in the tree of its parent. -/
theorem mem_of_child? (h : t.Built L lay) (hi : p i = true) {x : String}
    (hj : t.child? i x = some j) : p j = true := by
  obtain ⟨n, hn, hchild⟩ := Option.bind_eq_some_iff.mp hj
  obtain ⟨m, hm, hparent, -⟩ := h.child_points hn hchild
  have hmem : i ∈ t.ancestors j := by
    have habove : i ∈ m.above := List.mem_of_head? hparent
    rw [ancestors, hm]
    exact List.mem_cons_of_mem _ habove
  rwa [hp.closed hmem] at hi

/-- Names lead to nodes of the same region. -/
theorem mem_of_follow? (h : t.Built L lay) (hi : p i = true) {names : List String}
    (hj : t.follow? i names = some j) : p j = true := by
  induction names generalizing i with
  | nil => exact Option.some.inj hj ▸ hi
  | cons x names ih =>
    obtain ⟨c, hc, hj⟩ := Option.bind_eq_some_iff.mp hj
    exact ih (hp.mem_of_child? h hi hc) hj

/-- What is in reach of a node lies in its tree. -/
theorem mem_of_inReach (hi : p i = true) {mode : LookupMode}
    (hj : t.inReach i mode j = true) : p j = true := by
  have hmem : i ∈ t.ancestors j := by
    cases mode with
    | below => exact List.mem_of_mem_tail (List.contains_iff_mem.mp hj)
    | child =>
      rw [inReach, beq_iff_eq] at hj
      obtain ⟨n, hn, hparent⟩ := Option.bind_eq_some_iff.mp hj
      rw [ancestors, hn]
      exact List.mem_cons_of_mem _ (List.mem_of_head? hparent)
  rwa [hp.closed hmem] at hi

/-- Where a name leads from a node of a region lies in the region. -/
theorem mem_of_landed (h : t.Built L lay) (hi : p i = true) {mode : LookupMode}
    (hj : j ∈ t.landed i mode (t.landings name accept)) : p j = true := by
  obtain ⟨l, hl, rfl⟩ := List.mem_map.mp hj
  obtain ⟨hl, hreach⟩ := List.mem_filter.mp hl
  obtain ⟨first, rest, -, -, -, hfollow, -⟩ := mem_landings_iff.mp hl
  exact hp.mem_of_follow? h (hp.mem_of_inReach hi hreach) hfollow

/-- What a name means in a region lies in the region. -/
theorem mem_of_resolveName? (h : t.Built L lay) (hi : p i = true)
    (hj : t.resolveName? i name accept = some j) : p j = true := by
  rw [resolveName?_eq, Option.or_eq_some_iff] at hj
  rcases hj with hj | ⟨-, hj⟩
  · obtain ⟨anchor, hanchor, hlookup⟩ := List.exists_of_findSome?_eq_some hj
    exact hp.mem_of_landed h ((hp.closed hanchor).trans hi) (best?_eq_some hlookup).1
  · exact hp.mem_of_landed h hp.root_mem (best?_eq_some hj).1

/-- The scope around a node lies in the tree of the node. -/
theorem mem_of_parent (hi : p i = true) {n : Node} (hn : t.node? i = some n) :
    p (n.parent.getD i) = true := by
  cases hparent : n.parent with
  | none => exact hi
  | some q =>
    have hmem : q ∈ t.ancestors i := by
      rw [ancestors, hn]
      exact List.mem_cons_of_mem _ (List.mem_of_head? hparent)
    rw [Option.getD_some, hp.closed hmem, hi]

/-- What a variable's name means in a region is held by a node of the region. -/
theorem mem_of_resolveVariable? (hi : p i = true) {v : VariableEntry}
    (hj : t.resolveVariable? i name = some (j, v)) : p j = true := by
  obtain ⟨k, hk, hfound⟩ := List.exists_of_findSome?_eq_some hj
  obtain ⟨v, -, heq⟩ := Option.map_eq_some_iff.mp hfound
  obtain ⟨rfl, -⟩ := Prod.mk.inj heq
  rcases List.mem_append.mp hk with hk | hk
  · rw [hp.closed hk, hi]
  · rw [List.mem_singleton.mp hk, hp.root_mem]

end IsRegion

/-! ### Two indexes that agree on a region -/

namespace AgreesOn

section

variable (h : u.AgreesOn t p)
include h

/-- What is read off a node without its target is the same. -/
theorem bind_eq {α : Type} {f : Node → Option α} (hf : ∀ n, f n.withoutTarget = f n)
    (hi : p i = true) : (u.node? i).bind f = (t.node? i).bind f := by
  have hnode := congrArg (Option.bind · f) (h.node_eq i hi)
  simpa only [Option.bind_map, Function.comp_def, hf] using hnode

theorem parent?_eq (hi : p i = true) : u.parent? i = t.parent? i :=
  h.bind_eq (fun _ => rfl) hi

theorem child?_eq (hi : p i = true) (x : String) : u.child? i x = t.child? i x :=
  h.bind_eq (fun _ => rfl) hi

theorem ancestors_eq (hi : p i = true) : u.ancestors i = t.ancestors i := by
  rw [ancestors_eq_getD, ancestors_eq_getD, h.bind_eq (fun _ => rfl) hi]

/-- In a region the link names are the same. -/
theorem linkName?_eq (hi : p i = true) : u.linkName? i = t.linkName? i := by
  rw [linkName?, linkName?, h.options_eq]
  exact h.bind_eq (fun _ => rfl) hi

end

section

variable (h : u.AgreesOn t p) (hp : t.IsRegion p)
include h hp

/-- In a region the nodes have the same paths. -/
theorem pathNames_eq (hi : p i = true) : u.pathNames i = t.pathNames i := by
  have hnodes : ((u.ancestors i).filterMap u.node?).map Node.withoutTarget =
      ((t.ancestors i).filterMap t.node?).map Node.withoutTarget := by
    rw [h.ancestors_eq hi, List.map_filterMap, List.map_filterMap]
    exact List.filterMap_congr fun j hj => h.node_eq j ((hp.closed hj).trans hi)
  -- neither the name of a node nor whether it is a root is a matter of its target
  have hread : ∀ ns : List Node, (ns.filter fun n => !n.isRoot).reverse.map Node.name =
      ((ns.map Node.withoutTarget).filter fun n => !n.isRoot).reverse.map Node.name := by
    intro ns
    rw [List.filter_map, ← List.map_reverse, List.map_map]
    rfl
  rw [pathNames, pathNames, hread, hnodes, ← hread]

/-- In a region the nodes are ranked alike. -/
theorem ranksBefore_eq (hi : p i = true) (hj : p j = true) :
    u.ranksBefore i j = t.ranksBefore i j := by
  rw [ranksBefore, ranksBefore, path, path, path, path, h.pathNames_eq hp hi,
    h.pathNames_eq hp hj, h.ancestors_eq hi, h.ancestors_eq hj]

/-- Of nodes in a region the same one is the best. -/
theorem best?_eq {ids : List NodeId} (hids : ∀ i ∈ ids, p i = true) :
    u.best? ids = t.best? ids := by
  cases ids with
  | nil => rfl
  | cons a ids =>
    induction ids generalizing a with
    | nil => rfl
    | cons b ids ih =>
      simp only [List.forall_mem_cons] at hids ih
      obtain ⟨ha, hb, hids⟩ := hids
      rw [best?_cons_cons, best?_cons_cons, h.ranksBefore_eq hp hb ha]
      split
      · exact ih b ⟨hb, hids⟩
      · exact ih a ⟨ha, hids⟩

end

section

variable (h : u.AgreesOn t p) (hp : t.IsRegion p) (ht : t.Built L lay) (hu : u.Built L' lay')
include h hp ht

/-- In a region names lead to the same nodes. -/
theorem follow?_eq (hi : p i = true) (names : List String) :
    u.follow? i names = t.follow? i names := by
  induction names generalizing i with
  | nil => rfl
  | cons x names ih =>
    rw [follow?, follow?, h.child?_eq hi]
    exact Option.bind_congr fun j hj => ih (hp.mem_of_child? ht hi hj)

omit hp in
/-- The candidates are those in the region, in the same order. -/
theorem candidates_eq (hu : u.Built L' lay') (s : String) :
    u.candidates s = (t.candidates s).filter p := by
  have hroot : ∀ {t : Index} {L : Ledger} {lay : Layout}, t.Built L lay →
      t.names.isEmpty = false := fun h =>
    h.named.not_isEmpty (h.laid.isLive_iff.mpr ⟨_, h.laid.root_at⟩)
  simp only [candidates, hroot ht, hroot hu, Bool.false_eq_true, if_false, h.names_eq]

include hu

/-- A name leads in the region where it leads there, in the same order, from the candidates in the
region. -/
theorem landings_eq (haccept : ∀ i n, accept i n.withoutTarget = accept i n) (name : String) :
    u.landings name accept = (t.landings name accept).filter fun l => p l.1 := by
  unfold landings
  cases nameSegments name with
  | nil => rfl
  | cons first rest =>
    by_cases hname : nodeName first = ""
    · simp [hname]
    · simp only [hname, if_false, h.candidates_eq ht hu, List.filterMap_filter,
        List.filter_filterMap]
      refine List.filterMap_congr fun start _ => ?_
      cases hstart : p start with
      | false =>
        cases (t.follow? start rest).filter fun id => (t.node? id).any (accept id) <;>
          simp [hstart, Option.filter_some]
      | true =>
        -- from a start in the region the way goes on in the region
        rw [if_pos rfl, h.follow?_eq hp ht hstart]
        cases hfollow : t.follow? start rest with
        | none => rfl
        | some id =>
          have hnode := congrArg (Option.any (accept id))
            (h.node_eq id (hp.mem_of_follow? ht hstart hfollow))
          simp only [Option.any_map, haccept] at hnode
          simp only [Option.filter_some, hnode]
          split <;> simp [hstart, Option.filter_some]

/-- What is landed at from a node of the region lies in the region and is the same. -/
theorem landed_eq (haccept : ∀ i n, accept i n.withoutTarget = accept i n) (hi : p i = true)
    (mode : LookupMode) (name : String) :
    u.landed i mode (u.landings name accept) = t.landed i mode (t.landings name accept) := by
  rw [landed, landed, h.landings_eq hp ht hu haccept, List.filter_filter]
  refine congrArg _ (List.filter_congr fun l _ => ?_)
  cases hl : p l.1 with
  | true =>
    rw [Bool.and_true]
    cases mode with
    | child => rw [inReach, inReach, h.parent?_eq hl]
    | below => rw [inReach, inReach, isBelow, isBelow, h.ancestors_eq hl]
  | false =>
    rw [Bool.and_false, eq_comm, ← Bool.not_eq_true]
    intro hreach
    rw [hp.mem_of_inReach hi hreach] at hl
    cases hl

/-- In a region the same nodes are looked up, if the filter does not look at targets. -/
theorem lookup?_eq (haccept : ∀ i n, accept i n.withoutTarget = accept i n) (hi : p i = true)
    (mode : LookupMode) (name : String) :
    u.lookup? i name mode accept = t.lookup? i name mode accept := by
  rw [lookup?, lookup?, h.landed_eq hp ht hu haccept hi]
  exact h.best?_eq hp fun j hj => hp.mem_of_landed ht hi hj

/-- A name means the same node in both. -/
theorem resolveName?_eq (haccept : ∀ i n, accept i n.withoutTarget = accept i n)
    (hi : p i = true) (name : String) :
    u.resolveName? i name accept = t.resolveName? i name accept := by
  rw [Index.resolveName?_eq, Index.resolveName?_eq, h.ancestors_eq hi,
    h.lookup?_eq hp ht hu haccept hp.root_mem]
  refine congrArg (Option.or · _) (findSome?_congr fun j hj => ?_)
  exact h.lookup?_eq hp ht hu haccept ((hp.closed hj).trans hi) .below name

omit ht hu

/-- And the same variable. -/
theorem resolveVariable?_eq (hi : p i = true) (name : String) :
    u.resolveVariable? i name = t.resolveVariable? i name := by
  rw [resolveVariable?, resolveVariable?, h.ancestors_eq hi]
  refine findSome?_congr fun j hj => ?_
  have hmem : p j = true := by
    rcases List.mem_append.mp hj with hj | hj
    · rw [hp.closed hj, hi]
    · rw [List.mem_singleton.mp hj, hp.root_mem]
  rw [h.bind_eq (fun _ => rfl) hmem]

include ht hu

/-- A mention is bound to the same. -/
theorem bindingOf_eq (hi : p i = true) (m : Mention) : u.bindingOf i m = t.bindingOf i m := by
  rw [bindingOf, bindingOf, h.resolveVariable?_eq hp hi,
    h.resolveName?_eq hp ht hu (fun _ _ => rfl) hi]

/-- A link with a name is resolved to the same target. -/
theorem targetOf_eq (hi : p i = true) {n m : Node} (hn : t.node? i = some n)
    (hm : u.node? i = some m) {name : String} (hname : t.linkName? i = some name) :
    u.targetOf i m = t.targetOf i n := by
  have hparent : m.parent = n.parent := by
    have hboth := h.parent?_eq hi
    rwa [parent?, parent?, hn, hm] at hboth
  simp only [targetOf, h.linkName?_eq hi, hname, hparent]
  exact h.resolveName?_eq hp ht hu (fun _ _ => rfl) (hp.mem_of_parent hi hn) name

omit ht hu

/-! ### Values -/

/-- In a region names lead to the same defaults. -/
theorem defaultOf?_eq (hi : p i = true) (name : String) :
    u.defaultOf? i name = t.defaultOf? i name := by
  rw [defaultOf?, defaultOf?, h.resolveVariable?_eq hp hi]

/-- A name has the same value in both, however many expansions may nest and whichever are in
progress. -/
theorem nameValue?_eq (policy : ZeroDivision) (budget : Nat) (active : List Expansion)
    (hi : p i = true) (name : String) :
    nameValue? policy budget active (.ofIndex u (some i)) name =
      nameValue? policy budget active (.ofIndex t (some i)) name := by
  -- by induction on the budget: a default is evaluated in another node of the region
  induction budget generalizing active i name with
  | zero => rw [nameValue?_ofIndex_zero, nameValue?_ofIndex_zero]
  | succ budget ih =>
    rw [nameValue?_ofIndex_succ, nameValue?_ofIndex_succ, h.defaultOf?_eq hp hi]
    refine Option.bind_congr fun (owner, x, default) hfound => ?_
    obtain ⟨⟨owner', v⟩, hv, hdeclared⟩ := Option.bind_eq_some_iff.mp hfound
    obtain ⟨default', -, heq⟩ := Option.map_eq_some_iff.mp hdeclared
    obtain ⟨rfl, -⟩ := Prod.mk.inj heq
    have howner := hp.mem_of_resolveVariable? hi hv
    simp only [valueOf, funext (ih _ howner)]

/-- In a region expressions have the same values. -/
theorem evaluateAt_eq (o : EvaluationOptions) (hi : p i = true) (v : Value) :
    u.evaluateAt o i v = t.evaluateAt o i v := by
  rw [evaluateAt, evaluateAt, evaluate, evaluate, valueOf, valueOf,
    funext (h.nameValue?_eq hp o.zeroDivision o.maxDepth [] hi)]

end

end AgreesOn

/-! ### After resolution -/

theorem isRegion_all (t : Index) : t.IsRegion fun _ => true := ⟨rfl, fun _ => rfl⟩

/-- Resolution leaves all that names depend on as it is. -/
theorem agreesOn_resolve (t : Index) : t.resolve.AgreesOn t fun _ => true where
  options_eq := rfl
  node_eq i _ := by
    rw [node?_resolve, Option.map_map]
    rfl
  names_eq s := (List.filter_eq_self.mpr fun _ _ => rfl).symm

/-- Resolution rebinds the references of each file. -/
theorem files_resolve (t : Index) (k : List PathComponent) :
    t.resolve.files[k]? =
      (t.files[k]?).map (FileRecord.rebound fun r => t.bindingOf r.scope r.mention) :=
  Std.ExtTreeMap.getElem?_map

/-- After resolution a link leads to the target that is found for it. -/
theorem linkTarget?_resolve (t : Index) (i : NodeId) :
    t.resolve.linkTarget? i = (t.node? i).bind (t.targetOf i) := by
  rw [linkTarget?, node?_resolve, Option.bind_map]
  rfl

/-- In a region on which two indexes agree nodes are linked alike, if those without a link name had
one target before. -/
theorem AgreesOn.linkTarget?_resolve_eq (h : u.AgreesOn t p) (hp : t.IsRegion p)
    (ht : t.Built L lay) (hu : u.Built L' lay') (hi : p i = true)
    (hlink : t.linkName? i = none → u.linkTarget? i = t.linkTarget? i) :
    u.resolve.linkTarget? i = t.resolve.linkTarget? i := by
  have hnode := h.node_eq i hi
  rw [linkTarget?_resolve, linkTarget?_resolve]
  cases hn : t.node? i with
  | none =>
    rw [hn, Option.map_none, Option.map_eq_none_iff] at hnode
    rw [hnode]
    rfl
  | some n =>
    rw [hn, Option.map_some, Option.map_eq_some_iff] at hnode
    obtain ⟨m, hm, -⟩ := hnode
    rw [hm, Option.bind_some, Option.bind_some]
    cases hname : t.linkName? i with
    | some name => exact h.targetOf_eq hp ht hu hi hn hm hname
    -- without a link name a node keeps its target
    | none =>
      have hkept := hlink hname
      rw [linkTarget?, linkTarget?, hm, hn] at hkept
      rwa [targetOf, targetOf, h.linkName?_eq hi, hname]

/-- Indexes that agree everywhere have the same nodes once they are resolved, if the nodes without a
link name have the same targets before. -/
theorem AgreesOn.nodes_resolve (h : u.AgreesOn t fun _ => true) (ht : t.Built L lay)
    (hu : u.Built L' lay')
    (htargets : ∀ i, t.linkName? i = none → u.linkTarget? i = t.linkTarget? i) :
    u.resolve.nodes = t.resolve.nodes := by
  refine Std.ExtTreeMap.ext_getElem? fun i => ?_
  show u.resolve.node? i = t.resolve.node? i
  -- a node is what it is without its target, and the target
  have hnode := (u.agreesOn_resolve.node_eq i rfl).trans
    ((h.node_eq i rfl).trans (t.agreesOn_resolve.node_eq i rfl).symm)
  have htarget := h.linkTarget?_resolve_eq t.isRegion_all ht hu rfl (htargets i)
  rw [linkTarget?, linkTarget?] at htarget
  cases hn : t.resolve.node? i with
  | none => rwa [hn, Option.map_none, Option.map_eq_none_iff] at hnode
  | some n =>
    rw [hn, Option.map_some, Option.map_eq_some_iff] at hnode
    obtain ⟨m, hm, hsame⟩ := hnode
    rw [hn, hm, Option.bind_some, Option.bind_some] at htarget
    have hwhole : { m.withoutTarget with target := m.target } =
        { n.withoutTarget with target := n.target } := by rw [hsame, htarget]
    rw [hm]
    exact congrArg some hwhole

/-- Nor do they differ in anything else, if they have the same records but for bindings. -/
theorem AgreesOn.resolve_eq (h : u.AgreesOn t fun _ => true) (ht : t.Built L lay)
    (hu : u.Built L' lay')
    (htargets : ∀ i, t.linkName? i = none → u.linkTarget? i = t.linkTarget? i)
    (hfiles : ∀ k : List PathComponent, (u.files[k]?).map (FileRecord.rebound fun _ => .unbound) =
      (t.files[k]?).map (FileRecord.rebound fun _ => .unbound)) :
    u.resolve = { t.resolve with nextId := u.nextId, registrations := u.registrations } := by
  have hbinding : (fun r : Reference => u.bindingOf r.scope r.mention) =
      fun r => t.bindingOf r.scope r.mention :=
    funext fun r => h.bindingOf_eq t.isRegion_all ht hu rfl r.mention
  have hresolved : u.resolve.files = t.resolve.files := by
    refine Std.ExtTreeMap.ext_getElem? fun k => ?_
    -- what is bound anew may as well have been unbound
    have hrebound : ∀ f : FileRecord,
        (f.rebound fun _ => .unbound).rebound (fun r => t.bindingOf r.scope r.mention) =
          f.rebound fun r => t.bindingOf r.scope r.mention :=
      FileRecord.rebound_rebound _ fun _ _ => rfl
    have hbound := congrArg
      (Option.map (FileRecord.rebound fun r => t.bindingOf r.scope r.mention)) (hfiles k)
    rw [files_resolve, files_resolve, hbinding]
    simpa only [Option.map_map, Function.comp_def, hrebound] using hbound
  have hnames : u.names = t.names := by
    refine hu.named.toTidy.ext ht.named.toTidy fun s => ?_
    rw [h.names_eq, List.filter_eq_self.mpr fun _ _ => rfl]
  show (⟨u.options, u.resolve.nodes, u.nextId, u.names, u.resolve.files, u.registrations⟩ : Index) =
    ⟨t.options, t.resolve.nodes, u.nextId, t.names, t.resolve.files, u.registrations⟩
  rw [h.options_eq, h.nodes_resolve ht hu htargets, hnames, hresolved]

/-- To resolve twice is to resolve once. -/
theorem Built.resolve_resolve (h : t.Built L lay) : t.resolve.resolve = t.resolve := by
  refine t.agreesOn_resolve.resolve_eq h h.resolve
    (fun i => linkTarget?_resolve_of_linkName?_eq_none) fun k => ?_
  rw [files_resolve, Option.map_map]
  exact congrArg (Option.map · _) (funext (FileRecord.rebound_rebound _ fun _ _ => rfl))

end Index

end SemanticIndex
