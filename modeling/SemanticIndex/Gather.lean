import Std.Data.ExtTreeMap

/-!
# Maps of Lists of Pairs

Two ways to make a map of a list of pairs: one value a key, for which the last pair counts, and all
values of a key in the order of the list.

The main statements, `getElem?_ofList` and `getElem?_gather`, say what the maps hold.
-/

namespace SemanticIndex

universe u v

variable {κ : Type u} {α : Type v} [Ord κ] [Std.TransOrd κ]

/-- The values of a list of pairs by key, those of one key in the order of the list. -/
def gather (es : List (κ × α)) : Std.ExtTreeMap κ (List α) :=
  es.foldr (fun e m => m.alter e.1 fun vs => some (e.2 :: vs.getD [])) ∅

/-- No key stands there without values. -/
theorem ne_nil_of_getElem?_gather {es : List (κ × α)} {k : κ} {vs : List α}
    (h : (gather es)[k]? = some vs) : vs ≠ [] := by
  induction es with
  | nil => simp [gather] at h
  | cons e es ih =>
    have hcons : gather (e :: es) =
        (gather es).alter e.1 fun vs => some (e.2 :: vs.getD []) := rfl
    rw [hcons, Std.ExtTreeMap.getElem?_alter] at h
    split at h
    · rw [← Option.some.inj h]
      exact List.cons_ne_nil _ _
    · exact ih h

variable [Std.LawfulEqOrd κ] [DecidableEq κ]

/-- Under each key stand the values that the list pairs with it, in order. -/
theorem getElem?_gather (es : List (κ × α)) (k : κ) :
    (gather es)[k]?.getD [] = (es.filter fun e => e.1 = k).map Prod.snd := by
  induction es with
  | nil => simp [gather]
  | cons e es ih =>
    have hcons : gather (e :: es) =
        (gather es).alter e.1 fun vs => some (e.2 :: vs.getD []) := rfl
    rw [hcons, Std.ExtTreeMap.getElem?_alter]
    by_cases hk : e.1 = k
    · subst hk
      simp [ih]
    · simp [hk, ih]

/-- The order of pairs with different keys does not matter. -/
theorem gather_congr {es es' : List (κ × α)}
    (h : ∀ k, (es.filter fun e => e.1 = k) = es'.filter fun e => e.1 = k) :
    gather es = gather es' := by
  refine Std.ExtTreeMap.ext_getElem? fun k => ?_
  have hvalues : (gather es)[k]?.getD [] = (gather es')[k]?.getD [] := by
    rw [getElem?_gather, getElem?_gather, h]
  cases hvs : (gather es)[k]? with
  | none =>
    cases hvs' : (gather es')[k]? with
    | none => rfl
    | some vs' =>
      rw [hvs, hvs'] at hvalues
      exact absurd hvalues.symm (ne_nil_of_getElem?_gather hvs')
  | some vs =>
    cases hvs' : (gather es')[k]? with
    | none =>
      rw [hvs, hvs'] at hvalues
      exact absurd hvalues (ne_nil_of_getElem?_gather hvs)
    | some vs' =>
      rw [hvs, hvs'] at hvalues
      exact congrArg some hvalues

/-- Of the pairs that are inserted under a key the last counts, and none of them takes it away. -/
theorem getElem?_insertMany (m : Std.ExtTreeMap κ α) (es : List (κ × α)) (k : κ) :
    (m.insertMany es)[k]? =
      ((es.filter fun e => e.1 = k).getLast?.map Prod.snd).or m[k]? := by
  induction es generalizing m with
  | nil => simp
  | cons e es ih =>
    rw [Std.ExtTreeMap.insertMany_cons, ih, Std.ExtTreeMap.getElem?_insert]
    by_cases hk : e.1 = k
    · cases hl : (es.filter fun e => e.1 = k).getLast? with
      | none => simp [hk, List.getLast?_eq_none_iff.1 hl]
      | some x => simp [hk, List.getLast?_cons, hl]
    · simp [hk]

/-- Of the pairs with one key the last counts. -/
theorem getElem?_ofList (es : List (κ × α)) (k : κ) :
    (Std.ExtTreeMap.ofList es compare)[k]? =
      (es.filter fun e => e.1 = k).getLast?.map Prod.snd := by
  simp [Std.ExtTreeMap.ofList_eq_insertMany_empty, getElem?_insertMany]

end SemanticIndex
