import SemanticIndex.Proofs.Annotating
import SemanticIndex.Proofs.Forest.Walk
import SemanticIndex.Proofs.Relabeling

/-!
# Copies Are Built from the Same Ledger

A copy gives every node its place in a walk as its number. A walk passes every node once
(`Index.Laid.mem_walk_iff`, `Index.Laid.nodup_walk`), so the copy is the index with other numbers
(`Index.Built.bareCopy`), and rebuilding the name table and resolving anew keep it built
(`Index.Built.copy`).
-/

namespace SemanticIndex

namespace Index

section

variable {t : Index} {lay : Layout} {id : NodeId} {i : Nat}

/-! ### Places in a walk -/

/-- The walk comes to every node once. -/
theorem Laid.exists_walk (h : t.Laid lay) (hrooted : t.Rooted lay) :
    ∃ as, as.Nodup ∧ (∀ a, a ∈ as ↔ ∃ id, lay a = some id) ∧
      List.Forall₂ (fun a id => lay a = some id) as t.walk := by
  obtain ⟨as, has⟩ := h.exists_walks_preorder hrooted
  exact ⟨as, has.nodup, fun a => by rw [has.mem_iff, true_and], has.map_fst⟩

/-- A walk passes the nodes of the index. -/
theorem Laid.mem_walk_iff (h : t.Laid lay) (hrooted : t.Rooted lay) :
    id ∈ t.walk ↔ t.isLive id := by
  obtain ⟨as, -, hmem, hwalk⟩ := h.exists_walk hrooted
  rw [h.isLive_iff]
  constructor
  · intro hid
    obtain ⟨a, -, ha⟩ := Layout.Lists.exists_of_mem_ids hwalk hid
    exact ⟨a, ha⟩
  · rintro ⟨a, ha⟩
    obtain ⟨j, hj, haj⟩ := Layout.Lists.exists_of_mem hwalk ((hmem a).mpr ⟨id, ha⟩)
    rw [ha, Option.some.injEq] at haj
    rwa [haj]

/-- A walk passes no node twice. -/
theorem Laid.nodup_walk (h : t.Laid lay) (hrooted : t.Rooted lay) : t.walk.Nodup := by
  obtain ⟨as, hnodup, -, hwalk⟩ := h.exists_walk hrooted
  -- nodes at different addresses are different
  generalize t.walk = ids at hwalk
  induction hwalk with
  | nil => exact List.nodup_nil
  | cons ha hwalk ih =>
    obtain ⟨hnew, hnodup⟩ := List.nodup_cons.mp hnodup
    refine List.nodup_cons.mpr ⟨fun hid => ?_, ih hnodup⟩
    obtain ⟨b, hb, hbid⟩ := Layout.Lists.exists_of_mem_ids hwalk hid
    exact hnew (h.injective ha hbid ▸ hb)

/-- Every node has a place in the walk. -/
theorem Laid.exists_getElem?_walk (h : t.Laid lay) (hrooted : t.Rooted lay) {a : Address}
    (ha : lay a = some id) : ∃ i : Nat, t.walk[i]? = some id :=
  List.mem_iff_getElem?.mp ((h.mem_walk_iff hrooted).mpr (h.isLive_iff.mpr ⟨a, ha⟩))

/-- The root of the common namespace is passed first. -/
theorem Laid.getElem?_walk_zero (h : t.Laid lay) : t.walk[0]? = some root := by
  obtain ⟨n, hn⟩ := h.exists_node h.root_at
  have hnext : 0 < t.nextId := h.lt_next h.root_at
  obtain ⟨bound, hbound⟩ := Nat.exists_eq_succ_of_ne_zero (Nat.ne_of_gt hnext)
  rw [walk, preorder, hbound, List.flatMap_cons, chainDown, hn]
  rfl

end

/-- The places of the nodes in a walk. -/
def places (t : Index) : Places := .ofList t.walk.zipIdx

/-- In a list without repetitions every item has one place. -/
private theorem getElem?_ofList_zipIdx {ids : List NodeId} (hnodup : ids.Nodup) {i : Nat}
    {id : NodeId} (hi : ids[i]? = some id) :
    (Std.ExtTreeMap.ofList ids.zipIdx compare)[id]? = some i := by
  refine Std.ExtTreeMap.getElem?_ofList_of_mem Std.ReflOrd.compare_self ?_
    (List.mk_mem_zipIdx_iff_getElem?.mpr hi)
  have hkeys : (ids.zipIdx.map Prod.fst).Nodup := by rwa [List.zipIdx_map_fst]
  refine (List.pairwise_map.mp hkeys).imp fun hne heq => hne ?_
  exact Std.LawfulEqCmp.eq_of_compare heq

/-- The items of a list, each under its place. -/
private theorem getElem?_ofList_swap_zipIdx {α : Type} (xs : List α) (i : Nat) :
    (Std.ExtTreeMap.ofList (xs.zipIdx.map fun x => (x.2, x.1)) compare)[i]? = xs[i]? := by
  -- the places are the numbers up to the length, each once
  have hkeys : (xs.zipIdx.map fun x => (x.2, x.1)).map Prod.fst = List.range' 0 xs.length := by
    rw [List.map_map]
    exact List.zipIdx_map_snd 0 xs
  cases hi : xs[i]? with
  | none =>
    refine Std.ExtTreeMap.getElem?_ofList_of_contains_eq_false ?_
    rw [hkeys, ← Bool.not_eq_true, List.contains_iff_mem, List.mem_range'_1]
    have hlength := List.getElem?_eq_none_iff.mp hi
    omega
  | some x =>
    refine Std.ExtTreeMap.getElem?_ofList_of_mem Std.ReflOrd.compare_self ?_ ?_
    · have hnodup : ((xs.zipIdx.map fun x => (x.2, x.1)).map Prod.fst).Nodup := by
        rw [hkeys]
        exact List.nodup_range'
      refine (List.pairwise_map.mp hnodup).imp fun hne heq => hne ?_
      exact Std.LawfulEqCmp.eq_of_compare heq
    · exact List.mem_map.mpr ⟨(x, i), List.mk_mem_zipIdx_iff_getElem?.mpr hi, rfl⟩

/-- Where all items have a value, the values stand at the places of the items. -/
private theorem getElem?_filterMap {α β : Type} {f : α → Option β} {xs : List α}
    (h : ∀ x ∈ xs, (f x).isSome) (i : Nat) : (xs.filterMap f)[i]? = xs[i]?.bind f := by
  induction xs generalizing i with
  | nil => rfl
  | cons x xs ih =>
    obtain ⟨y, hy⟩ := Option.isSome_iff_exists.mp (h x List.mem_cons_self)
    rw [List.filterMap_cons_some hy]
    cases i with
    | zero => exact hy.symm
    | succ i => exact ih (fun x hx => h x (List.mem_cons_of_mem _ hx)) i

/-! ### The copy before anything is looked up -/

/-- The copy without names and bindings. -/
def bareCopy (t : Index) : Index where
  options := t.options
  nodes := .ofList (((t.walk.filterMap t.node?).map (copyNode t.places)).zipIdx.map fun n =>
    (n.2, n.1))
  nextId := t.walk.length
  names := .empty
  files := t.files.map fun _ => copyRecord t.places
  registrations := t.registrations

theorem copy_eq (t : Index) : t.copy = t.bareCopy.rebuildNames.resolve := rfl

section

variable {t : Index} {lay : Layout} {id : NodeId} {i : Nat}

/-- A node gets the number of its place in the walk. -/
theorem renumber_eq (h : t.Laid lay) (hrooted : t.Rooted lay) (hi : t.walk[i]? = some id) :
    renumber t.places id = i := by
  rw [renumber, Std.ExtTreeMap.getD_eq_getD_getElem?, places,
    getElem?_ofList_zipIdx (h.nodup_walk hrooted) hi]
  rfl

/-- The node under a number in the copy is the one that a walk passes at that place. -/
theorem node?_bareCopy (h : t.Laid lay) (hrooted : t.Rooted lay) (i : Nat) :
    t.bareCopy.node? i =
      ((t.walk[i]?).bind t.node?).map (Node.relabel (renumber t.places)) := by
  rw [node?, bareCopy, getElem?_ofList_swap_zipIdx, List.getElem?_map, getElem?_filterMap]
  · rfl
  · exact fun id hid => (h.mem_walk_iff hrooted).mp hid

/-- A node of the copy is that of a node. -/
theorem exists_of_node?_bareCopy (h : t.Laid lay) (hrooted : t.Rooted lay) {m : Node}
    (hm : t.bareCopy.node? i = some m) :
    ∃ id n, t.walk[i]? = some id ∧ t.node? id = some n ∧
      m = n.relabel (renumber t.places) := by
  rw [node?_bareCopy h hrooted] at hm
  obtain ⟨n, hn, rfl⟩ := Option.map_eq_some_iff.mp hm
  obtain ⟨id, hid, hn⟩ := Option.bind_eq_some_iff.mp hn
  exact ⟨id, n, hid, hn, rfl⟩

/-- A node that stands somewhere is under its place in the copy. -/
theorem exists_node?_bareCopy (h : t.Laid lay) (hrooted : t.Rooted lay) {a : Address}
    (ha : lay a = some id) :
    ∃ n, t.node? id = some n ∧ t.walk[renumber t.places id]? = some id ∧
      t.bareCopy.node? (renumber t.places id) = some (n.relabel (renumber t.places)) := by
  obtain ⟨i, hi⟩ := h.exists_getElem?_walk hrooted ha
  obtain ⟨n, hn⟩ := h.exists_node ha
  refine ⟨n, hn, ?_, ?_⟩
  · rw [renumber_eq h hrooted hi, hi]
  · rw [node?_bareCopy h hrooted, renumber_eq h hrooted hi, hi, Option.bind_some, hn,
      Option.map_some]

/-- The copy is laid out like the index. -/
theorem Laid.bareCopy (h : t.Laid lay) (hrooted : t.Rooted lay) :
    t.bareCopy.Laid (lay.relabel (renumber t.places)) := by
  -- what stands at an address in the copy is the node that stands there, under its place
  have hat : ∀ {a i}, lay.relabel (renumber t.places) a = some i →
      ∃ id n, lay a = some id ∧ t.node? id = some n ∧ t.walk[i]? = some id ∧
        t.bareCopy.node? i = some (n.relabel (renumber t.places)) := by
    intro a i ha
    obtain ⟨id, hid, rfl⟩ := Layout.relabel_eq_some_iff.mp ha
    obtain ⟨n, hn, hwalk, hcopy⟩ := exists_node?_bareCopy h hrooted hid
    exact ⟨id, n, hid, hn, hwalk, hcopy⟩
  refine { root_at := ?_, exists_node := ?_, exists_address := ?_, injective := ?_, closed := ?_,
           plain := ?_, lt_next := ?_, name_eq := ?_, above_eq := ?_, child_eq := ?_ }
  · rw [Layout.relabel_eq_some h.root_at, renumber_eq h hrooted h.getElem?_walk_zero]
    rfl
  · intro a i ha
    obtain ⟨id, n, -, -, -, hcopy⟩ := hat ha
    exact ⟨_, hcopy⟩
  · intro i m hm
    obtain ⟨id, n, hi, hn, rfl⟩ := exists_of_node?_bareCopy h hrooted hm
    obtain ⟨a, ha⟩ := h.exists_address hn
    exact ⟨a, by rw [Layout.relabel_eq_some ha, renumber_eq h hrooted hi]⟩
  -- nodes with one number have one place in the walk, so they are one node
  · intro a b i ha hb
    obtain ⟨id, -, hid, -, hi, -⟩ := hat ha
    obtain ⟨id', -, hid', -, hi', -⟩ := hat hb
    rw [hi, Option.some.injEq] at hi'
    exact h.injective hid (hi' ▸ hid')
  · intro a x i ha
    obtain ⟨id, -, hid, -⟩ := hat ha
    obtain ⟨p, hp⟩ := h.closed hid
    exact ⟨_, Layout.relabel_eq_some hp⟩
  · intro a x i ha
    obtain ⟨id, -, hid, -⟩ := hat ha
    exact h.plain hid
  · intro a i ha
    obtain ⟨id, -, -, -, hi, -⟩ := hat ha
    exact (List.getElem?_eq_some_iff.mp hi).1
  all_goals
    -- name, nodes above and children are those of the node that is copied
    intro a i m ha hm
    obtain ⟨id, n, hid, hn, -, hcopy⟩ := hat ha
    rw [hcopy, Option.some.injEq] at hm
    subst hm
  · show n.name = _
    exact h.name_eq hid hn
  · rw [Layout.above_relabel, ← h.above_eq hid hn]
    rfl
  · intro x
    rw [Node.relabel, Std.ExtTreeMap.getElem?_map, h.child_eq hid hn]
    rfl

/-- The roots of a copy are the roots that were copied. -/
theorem Rooted.bareCopy (hrooted : t.Rooted lay) :
    t.bareCopy.Rooted (lay.relabel (renumber t.places)) := by
  have hfiles : ∀ k : List PathComponent, t.bareCopy.files[k]? =
      (t.files[k]?).map (FileRecord.relabel (renumber t.places)) :=
    fun _ => Std.ExtTreeMap.getElem?_map
  intro k i
  rw [Layout.relabel_eq_some_iff, hfiles]
  simp only [Option.map_eq_some_iff]
  constructor
  · rintro ⟨id, hid, rfl⟩
    obtain ⟨f, hf, hisolated, rfl⟩ := (hrooted k id).mp hid
    exact ⟨_, ⟨f, hf, rfl⟩, hisolated, rfl⟩
  · rintro ⟨_, ⟨f, hf, rfl⟩, hisolated, rfl⟩
    exact ⟨f.top, (hrooted k f.top).mpr ⟨f, hf, hisolated, rfl⟩, rfl⟩

/-! ### The names -/

/-- Listing nodes one after the other lists each under its names. -/
theorem named_foldl_addNode (t : Index) (ids : List NodeId) {names : NameTable}
    (htidy : names.Tidy) :
    let listed := ids.foldl
      (fun names id =>
        match t.node? id with
        | some n => names.addNode id n
        | none => names) names
    listed.Tidy ∧ ∀ s i, i ∈ listed.get s ↔
      i ∈ names.get s ∨ i ∈ ids ∧ ∃ n, t.node? i = some n ∧ (n.name = s ∨ n.realName = s) := by
  induction ids generalizing names with
  | nil => exact ⟨htidy, fun s i => by simp⟩
  | cons id ids ih =>
    rw [List.foldl_cons]
    cases hn : t.node? id with
    | none =>
      refine ⟨(ih htidy).1, fun s i => ?_⟩
      rw [(ih htidy).2, List.mem_cons]
      refine or_congr_right ⟨fun hi => ⟨Or.inr hi.1, hi.2⟩, ?_⟩
      -- the node is not there, so nothing is listed for it
      rintro ⟨rfl | hi, n, hn', hs⟩
      · rw [hn] at hn'
        cases hn'
      · exact ⟨hi, n, hn', hs⟩
    | some n =>
      have htidy' := htidy.addNode id n
      refine ⟨(ih htidy').1, fun s i => ?_⟩
      rw [(ih htidy').2, NameTable.mem_get_addNode, List.mem_cons]
      constructor
      · rintro ((⟨rfl, hs⟩ | hi) | ⟨hi, hs⟩)
        · exact Or.inr ⟨Or.inl rfl, n, hn, hs⟩
        · exact Or.inl hi
        · exact Or.inr ⟨Or.inr hi, hs⟩
      · rintro (hi | ⟨rfl | hi, n', hn', hs⟩)
        · exact Or.inl (Or.inr hi)
        · rw [hn, Option.some.injEq] at hn'
          exact Or.inl (Or.inl ⟨rfl, hn' ▸ hs⟩)
        · exact Or.inr ⟨hi, n', hn', hs⟩

/-- A table rebuilt from a walk names the nodes. -/
theorem named_rebuildNames (h : t.Laid lay) (hrooted : t.Rooted lay) : t.rebuildNames.Named := by
  obtain ⟨htidy, hmem⟩ := named_foldl_addNode t t.walk NameTable.tidy_empty
  refine { toTidy := htidy, mem_iff := fun s i => ?_ }
  refine (hmem s i).trans ?_
  rw [NameTable.get_empty, h.mem_walk_iff hrooted]
  constructor
  · rintro (hi | ⟨-, hn⟩)
    · cases hi
    · exact hn
  · rintro ⟨n, hn, hs⟩
    exact Or.inr ⟨isLive_of_node? (t := t) hn, n, hn, hs⟩

/-! ### The whole copy -/

/-- The roots of a built index are recorded. -/
theorem Built.rooted {L : Ledger} (h : t.Built L lay) : t.Rooted lay := fun _ _ => h.isolated_at_iff

/-- The copy is built from the ledger before its references and links are resolved. -/
theorem Built.bareCopy {L : Ledger} (h : t.Built L lay) :
    t.bareCopy.rebuildNames.Built L (lay.relabel (renumber t.places)) := by
  have hlaid := h.laid.bareCopy h.rooted
  have hnamed := named_rebuildNames hlaid h.rooted.bareCopy
  have hfiles : ∀ k : List PathComponent, t.bareCopy.rebuildNames.files[k]? =
      (t.files[k]?).map (FileRecord.relabel (renumber t.places)) :=
    fun _ => Std.ExtTreeMap.getElem?_map
  refine { laid := hlaid.congr rfl fun _ => rfl, named := hnamed, fragments_eq := ?_,
           placed := fun d hd => ?_, current := ?_, covered := ?_, distinct := h.distinct,
           exists_file := fun e he => ?_, exists_entry := fun {k f} hf => ?_,
           registrations_eq := h.registrations_eq }
  · intro a i m ha hm
    obtain ⟨id, hid, rfl⟩ := Layout.relabel_eq_some_iff.mp ha
    obtain ⟨n, hn, -, hcopy⟩ := exists_node?_bareCopy h.laid h.rooted hid
    obtain rfl : n.relabel _ = m := Option.some.inj (hcopy.symm.trans hm)
    show n.fragments = _
    exact h.fragments_eq hid hn
  · obtain ⟨id, hid⟩ := h.placed d hd
    exact ⟨_, Layout.relabel_eq_some hid⟩
  -- a copied node keeps its summary and has no target
  · intro i m hm _
    obtain ⟨id, n, -, hn, rfl⟩ := exists_of_node?_bareCopy h.laid h.rooted hm
    exact (h.current hn List.not_mem_nil).congr rfl rfl rfl rfl fun htarget => absurd rfl htarget
  · intro a i ha
    obtain ⟨id, hid, -⟩ := Layout.relabel_eq_some_iff.mp ha
    exact h.covered a id hid
  · obtain ⟨f, hf, hisOf⟩ := h.exists_file e he
    exact ⟨_, by rw [hfiles, hf, Option.map_some], hisOf.relabel _⟩
  · rw [hfiles] at hf
    obtain ⟨f', hf', -⟩ := Option.map_eq_some_iff.mp hf
    exact h.exists_entry hf'

/-- A copy is built of the same files, the nodes renumbered. -/
theorem Built.copy {L : Ledger} (h : t.Built L lay) :
    t.copy.Built L (lay.relabel (renumber t.places)) :=
  copy_eq t ▸ h.bareCopy.resolve

end

end Index

end SemanticIndex
