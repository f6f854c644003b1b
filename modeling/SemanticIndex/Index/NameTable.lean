import SemanticIndex.Index.Node

/-!
# Name Tables

A name table lists the nodes that carry a name, in the order in which they came to carry it. A
name that no node carries has no list.

The main statements, `mem_get_add` and `mem_get_remove`, say what the two changes do to the list
of each name.
-/

namespace SemanticIndex

/-- The nodes that carry each name. -/
structure NameTable where
  lists : Std.ExtTreeMap String (List NodeId)

namespace NameTable

/-- The table in which no node carries a name. -/
def empty : NameTable := ⟨∅⟩

/-- Whether no node carries a name. -/
def isEmpty (t : NameTable) : Bool := t.lists.isEmpty

/-- The nodes that carry `name`. -/
def get (t : NameTable) (name : String) : List NodeId := t.lists[name]?.getD []

/-- Lists `id` under `name`, after the others, unless it is listed there. -/
def add (t : NameTable) (name : String) (id : NodeId) : NameTable :=
  if id ∈ t.get name then t else ⟨t.lists.insert name (t.get name ++ [id])⟩

/-- Lists `id` under `name` no more. -/
def remove (t : NameTable) (name : String) (id : NodeId) : NameTable :=
  match (t.get name).filter (· != id) with
  | [] => ⟨t.lists.erase name⟩
  | ids => ⟨t.lists.insert name ids⟩

/-- Lists a node under both its names. -/
def addNode (t : NameTable) (id : NodeId) (n : Node) : NameTable :=
  (t.add n.name id).add n.realName id

/-- Lists a node under neither of its names. -/
def removeNode (t : NameTable) (id : NodeId) (n : Node) : NameTable :=
  (t.remove n.name id).remove n.realName id

/-- Moves a node of the given name from one real name to another. The plain name keeps its entry. -/
def rename (t : NameTable) (id : NodeId) (name old new : String) : NameTable :=
  if old = new then t else (if old = name then t else t.remove old id).add new id

@[simp]
theorem get_empty (name : String) : empty.get name = [] := rfl

/-- A node is listed last under a name when it is added, unless it is listed there already. -/
theorem get_add (t : NameTable) (name other : String) (id : NodeId) :
    (t.add name id).get other =
      if other = name ∧ id ∉ t.get name then t.get name ++ [id] else t.get other := by
  unfold add
  by_cases h : id ∈ t.get name
  · simp [h]
  · simp only [h, if_false, not_false_eq_true, and_true]
    simp only [get, Std.ExtTreeMap.getElem?_insert]
    by_cases ho : name = other
    · simp [ho]
    · simp [ho, Ne.symm ho]

/-- A node that is removed under a name is no longer listed there, and all else is. -/
theorem get_remove (t : NameTable) (name other : String) (id : NodeId) :
    (t.remove name id).get other =
      if other = name then (t.get name).filter (· != id) else t.get other := by
  unfold remove
  split
  · rename_i h
    rw [h]
    simp only [get, Std.ExtTreeMap.getElem?_erase]
    by_cases ho : name = other
    · simp [ho]
    · simp [ho, Ne.symm ho]
  · simp only [get, Std.ExtTreeMap.getElem?_insert]
    by_cases ho : name = other
    · simp [ho]
    · simp [ho, Ne.symm ho]

/-- After listing `id` under `name`, it is there, and all else is as it was. -/
theorem mem_get_add {t : NameTable} {name other : String} {id j : NodeId} :
    j ∈ (t.add name id).get other ↔ (other = name ∧ j = id) ∨ j ∈ t.get other := by
  rw [get_add]
  by_cases ho : other = name
  · subst ho
    by_cases h : id ∈ t.get other <;> by_cases hj : j = id <;> simp_all
  · simp [ho]

/-- After taking `id` from `name`, it is not there, and all else is as it was. -/
theorem mem_get_remove {t : NameTable} {name other : String} {id j : NodeId} :
    j ∈ (t.remove name id).get other ↔ ¬ (other = name ∧ j = id) ∧ j ∈ t.get other := by
  rw [get_remove]
  by_cases ho : other = name
  · subst ho
    simp [and_comm]
  · simp [ho]

end NameTable

end SemanticIndex
