import Std.Data.ExtTreeMap

/-!
# Sorted Maps and Their Values

The values of a sorted map stand in the order of their keys. A map is determined by what it holds
under each key, so the values of two maps that hold the same things agree as lists.
-/

namespace SemanticIndex

open Std

universe u v

variable {κ : Type u} {α : Type v} [Ord κ] [TransOrd κ]

theorem values_eq_map_toList (m : ExtTreeMap κ α) : m.values = m.toList.map Prod.snd := by
  have hfold : m.values = m.foldr (fun _ v vs => v :: vs) [] := by
    obtain ⟨⟨m⟩⟩ := m
    induction m using Quotient.inductionOn
    rfl
  rw [hfold, ExtTreeMap.foldr_eq_foldr_toList, ← List.foldr_map, List.foldr_cons_nil]

variable [LawfulEqOrd κ]

theorem mem_values_iff {m : ExtTreeMap κ α} {v : α} : v ∈ m.values ↔ ∃ k : κ, m[k]? = some v := by
  simp [values_eq_map_toList, ExtTreeMap.mem_toList_iff_getElem?_eq_some]

/-- The items of a map, each with another value under its key, are those of another map. -/
theorem ofList_map_toList [DecidableEq κ] {β : Type} (m : ExtTreeMap κ α) (g : κ → α → β) :
    ExtTreeMap.ofList (m.toList.map fun e => (e.1, g e.1 e.2)) compare = m.map g := by
  refine ExtTreeMap.ext_getElem? fun k => ?_
  rw [ExtTreeMap.getElem?_map]
  cases hk : m[k]? with
  | none =>
    refine ExtTreeMap.getElem?_ofList_of_contains_eq_false ?_
    rw [← Bool.not_eq_true, List.contains_iff_mem, List.map_map, List.mem_map]
    rintro ⟨e, he, rfl⟩
    rw [ExtTreeMap.mem_toList_iff_getElem?_eq_some, show m[e.1]? = none from hk] at he
    cases he
  | some v =>
    refine ExtTreeMap.getElem?_ofList_of_mem ReflOrd.compare_self ?_
      (List.mem_map.mpr ⟨(k, v), ExtTreeMap.mem_toList_iff_getElem?_eq_some.mpr hk, rfl⟩)
    exact List.pairwise_map.mpr ExtTreeMap.distinct_keys_toList

end SemanticIndex
