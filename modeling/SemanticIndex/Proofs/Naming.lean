import SemanticIndex.Index.Update

/-!
# The Name Table Names the Nodes

An index is named when its name table lists each node under its name and under its real name, once
each, under nothing else, and keeps no empty list (`Index.Named`). Every change of a single node
that the index makes keeps it so.
-/

namespace SemanticIndex

namespace NameTable

/-- No list of the table names a node twice or is empty. -/
structure Tidy (names : NameTable) : Prop where
  nodup : ∀ s, (names.get s).Nodup
  nonempty : ∀ s : String, names.lists[s]? ≠ some []

variable {names : NameTable} {name old new s : String} {id j : NodeId}

theorem get_eq_of_lists {ids : List NodeId} (h : names.lists[s]? = some ids) :
    names.get s = ids := by
  rw [get, h, Option.getD_some]

/-- In a tidy table a name without nodes has no list. -/
theorem Tidy.lists_eq (h : names.Tidy) (s : String) :
    names.lists[s]? = if names.get s = [] then none else some (names.get s) := by
  cases hl : names.lists[s]? with
  | none => simp [get, hl]
  | some ids =>
    have hne : ids ≠ [] := by
      rintro rfl
      exact h.nonempty s hl
    rw [get_eq_of_lists hl, if_neg hne]

/-- Tidy tables that list the same nodes in the same order are equal. -/
theorem Tidy.ext {names' : NameTable} (h : names.Tidy) (h' : names'.Tidy)
    (hget : ∀ s, names.get s = names'.get s) : names = names' := by
  have hlists : names.lists = names'.lists := by
    refine Std.ExtTreeMap.ext_getElem? fun s => ?_
    rw [h.lists_eq, h'.lists_eq, hget]
  cases names
  cases names'
  rw [mk.injEq]
  exact hlists

/-- The empty table is tidy. -/
theorem tidy_empty : empty.Tidy :=
  ⟨fun _ => List.nodup_nil, fun s h => by simp [empty] at h⟩

/-- Adding a node keeps a table tidy. -/
theorem Tidy.add (h : names.Tidy) (name : String) (id : NodeId) : (names.add name id).Tidy := by
  refine ⟨fun s => ?_, fun s => ?_⟩
  · rw [get_add]
    split
    · rename_i hnew
      rw [List.nodup_append]
      refine ⟨h.nodup name, List.pairwise_singleton _ id, ?_⟩
      intro i hi j hj
      rw [List.mem_singleton] at hj
      rintro rfl
      exact hnew.2 (hj ▸ hi)
    · exact h.nodup s
  · rw [NameTable.add]
    split
    · exact h.nonempty s
    · rw [Std.ExtTreeMap.getElem?_insert]
      split
      · simp
      · exact h.nonempty s

/-- Removing a node keeps a table tidy. -/
theorem Tidy.remove (h : names.Tidy) (name : String) (id : NodeId) :
    (names.remove name id).Tidy := by
  refine ⟨fun s => ?_, fun s => ?_⟩
  · rw [get_remove]
    split
    · exact (h.nodup name).filter _
    · exact h.nodup s
  · rw [NameTable.remove]
    split
    · rw [Std.ExtTreeMap.getElem?_erase]
      split
      · simp
      · exact h.nonempty s
    · rename_i hne
      rw [Std.ExtTreeMap.getElem?_insert]
      split
      · simpa using hne
      · exact h.nonempty s

theorem Tidy.addNode (h : names.Tidy) (id : NodeId) (n : Node) : (names.addNode id n).Tidy :=
  (h.add n.name id).add n.realName id

theorem Tidy.removeNode (h : names.Tidy) (id : NodeId) (n : Node) :
    (names.removeNode id n).Tidy :=
  (h.remove n.name id).remove n.realName id

/-- Renaming a node keeps a table tidy. -/
theorem Tidy.rename (h : names.Tidy) (id : NodeId) (name old new : String) :
    (names.rename id name old new).Tidy := by
  unfold NameTable.rename
  split
  · exact h
  · split
    · exact h.add new id
    · exact (h.remove old id).add new id

/-- A node that is added is listed under both its names. -/
theorem mem_get_addNode {n : Node} :
    j ∈ (names.addNode id n).get s ↔
      (j = id ∧ (n.name = s ∨ n.realName = s)) ∨ j ∈ names.get s := by
  rw [addNode, mem_get_add, mem_get_add]
  grind

/-- A node that is removed is listed under neither of its names. -/
theorem mem_get_removeNode {n : Node} :
    j ∈ (names.removeNode id n).get s ↔
      ¬ (j = id ∧ (n.name = s ∨ n.realName = s)) ∧ j ∈ names.get s := by
  rw [removeNode, mem_get_remove, mem_get_remove]
  grind

/-- After a renaming the node has its new real name and, unless that was its plain name, has lost
the old one; all else is as it was. -/
theorem mem_get_rename :
    j ∈ (names.rename id name old new).get s ↔
      (j = id ∧ s = new ∧ old ≠ new) ∨
        ¬ (j = id ∧ s = old ∧ old ≠ new ∧ old ≠ name) ∧ j ∈ names.get s := by
  unfold rename
  split
  · grind
  · split
    · rw [mem_get_add]
      grind
    · rw [mem_get_add, mem_get_remove]
      grind

end NameTable

namespace Index

/-- The name table lists each node under exactly its names. -/
structure Named (t : Index) : Prop extends NameTable.Tidy t.names where
  mem_iff : ∀ s id, id ∈ t.names.get s ↔ ∃ n, t.node? id = some n ∧ (n.name = s ∨ n.realName = s)

namespace Named

variable {t u : Index} {id : NodeId} {n : Node}

/-- Only the names of the nodes and the table matter. -/
theorem congr (h : t.Named) (hnames : u.names = t.names)
    (hnode : ∀ i, (u.node? i).map (fun m => (m.name, m.realName)) =
      (t.node? i).map fun m => (m.name, m.realName)) : u.Named := by
  refine ⟨hnames ▸ h.toTidy, fun s i => ?_⟩
  have hi := hnode i
  rw [hnames, h.mem_iff]
  constructor
  · rintro ⟨n, hn, hs⟩
    rw [hn, Option.map_some, Option.map_eq_some_iff] at hi
    obtain ⟨m, hm, heq⟩ := hi
    rw [Prod.mk.injEq] at heq
    exact ⟨m, hm, by rwa [heq.1, heq.2]⟩
  · rintro ⟨m, hm, hs⟩
    rw [hm, Option.map_some, eq_comm, Option.map_eq_some_iff] at hi
    obtain ⟨n, hn, heq⟩ := hi
    rw [Prod.mk.injEq] at heq
    exact ⟨n, hn, by rwa [heq.1, heq.2]⟩

/-- A node under a free number. -/
theorem addNode (h : t.Named) (hfree : t.node? t.nextId = none) (n : Node) :
    (t.addNode n).Named := by
  refine ⟨h.toTidy.addNode _ n, fun s i => ?_⟩
  have hnames : (t.addNode n).names = t.names.addNode t.nextId n := rfl
  rw [hnames, NameTable.mem_get_addNode, node?_addNode, h.mem_iff]
  -- the number was free, so it is listed only as the new node
  by_cases hi : i = t.nextId
  · subst hi
    simp [hfree]
  · simp [hi]

/-- Names still hold after a node is dropped. -/
theorem dropNode (h : t.Named) (hn : t.node? id = some n) : (t.dropNode id n).Named := by
  refine ⟨h.toTidy.removeNode id n, fun s i => ?_⟩
  have hnames : (t.dropNode id n).names = t.names.removeNode id n := rfl
  rw [hnames, NameTable.mem_get_removeNode, node?_dropNode, h.mem_iff]
  by_cases hi : i = id
  · subst hi
    simp [hn]
  · simp [hi]

/-- Names still hold after a node is modified, if it keeps its names. -/
theorem modifyNode (h : t.Named) (id : NodeId) {f : Node → Node}
    (hf : ∀ m, (f m).name = m.name ∧ (f m).realName = m.realName) : (t.modifyNode id f).Named := by
  refine h.congr rfl fun i => ?_
  rw [node?_modifyNode]
  split
  · simp [Function.comp_def, hf]
  · rfl

/-- The real name may change when a node is summed up anew. -/
theorem refresh (h : t.Named) (id : NodeId) : (t.refresh id).Named := by
  unfold Index.refresh
  cases hn : t.node? id with
  | none => exact h
  | some n =>
    refine ⟨h.rename _ _ _ _, fun s i => ?_⟩
    rw [NameTable.mem_get_rename, h.mem_iff]
    -- the renaming concerns the node that is summed up and no other
    by_cases hi : i = id
    · subst hi
      simp [node?, Node.refreshed] at hn ⊢
      grind
    · have hother : (t.nodes.insert id (n.refreshed t.options))[i]? = t.nodes[i]? := by
        simp [Std.ExtTreeMap.getElem?_insert, Ne.symm hi]
      simp [node?, hi, hother]

end Named

/-- The root of the empty index is listed under its name. -/
theorem named_empty (options : IndexOptions) : (empty options).Named := by
  have hnames : (empty options).names = NameTable.empty.addNode root (.new "" "" []) := rfl
  refine ⟨hnames ▸ NameTable.tidy_empty.addNode root _, fun s i => ?_⟩
  rw [hnames, NameTable.mem_get_addNode]
  by_cases hi : i = root
  · subst hi
    simp [empty, node?]
  · simp [empty, node?, hi, Ne.symm hi]

/-- The table of a named index that has a node is not empty. -/
theorem Named.not_isEmpty {t : Index} (h : t.Named) {id : NodeId} (hlive : t.isLive id) :
    t.names.isEmpty = false := by
  obtain ⟨n, hn⟩ := Option.isSome_iff_exists.mp hlive
  have hmem : id ∈ t.names.get n.name := (h.mem_iff _ _).mpr ⟨n, hn, Or.inl rfl⟩
  rw [NameTable.isEmpty, Std.ExtTreeMap.isEmpty_eq_false_iff]
  intro hempty
  rw [NameTable.get, hempty, Std.ExtTreeMap.getElem?_empty, Option.getD_none] at hmem
  cases hmem

end Index

end SemanticIndex
