import Mathlib.Data.List.Nodup
import SemanticIndex.Scan.Report

/-!
# Results That Arrive in Any Order

Files are parsed at the same time, so their results arrive in any order, but they are applied in
the order of their numbers. A result that is ahead of its turn waits; whenever a result arrives, all
whose turn has come are applied. Once each has arrived, all are applied as if they had come one
after the other (`Intake.receiveAll_eq`).
-/

namespace SemanticIndex

/-- Numbered items, those before `next` applied and others waiting. -/
structure Intake (σ α : Type) where
  /-- What the items that are applied have made of the state. -/
  state : σ
  /-- The number of the item that comes next. -/
  next : Nat
  /-- The items that are ahead of their turn. -/
  waiting : Std.ExtTreeMap Nat α

namespace Intake

variable {σ α : Type} {f : σ → α → σ} {s : σ} {w : Intake σ α} {xs : List α} {arrived : List Nat}
  {items : List (α × Nat)}

/-- Applies the waiting items whose turn it is. -/
def drain (f : σ → α → σ) (w : Intake σ α) : Intake σ α :=
  match _found : w.waiting[w.next]? with
  | none => w
  | some x => drain f ⟨f w.state x, w.next + 1, w.waiting.erase w.next⟩
termination_by w.waiting.size
decreasing_by
  have hmem : w.next ∈ w.waiting :=
    Std.ExtTreeMap.mem_iff_isSome_getElem?.mpr (Option.isSome_iff_exists.mpr ⟨x, _found⟩)
  have hsize : w.waiting.size ≠ 0 := by
    rw [ne_eq, ← Std.ExtTreeMap.eq_empty_iff_size_eq_zero]
    intro hempty
    rw [hempty] at hmem
    exact Std.ExtTreeMap.not_mem_empty hmem
  rw [Std.ExtTreeMap.size_erase, if_pos (Std.ExtTreeMap.mem_iff_contains.mp hmem)]
  omega

/-- Takes an item with its number. -/
def receive (f : σ → α → σ) (w : Intake σ α) (item : α × Nat) : Intake σ α :=
  drain f { w with waiting := w.waiting.insert item.2 item.1 }

/-- The state when some items have arrived, one after the other. -/
def receiveAll (f : σ → α → σ) (s : σ) (items : List (α × Nat)) : σ :=
  (items.foldl (receive f) ⟨s, 0, ∅⟩).state

/-- Of the items `xs` those with the numbers `arrived` have come in; all before `next` have, and
are applied, and the others wait. -/
structure Tracks (f : σ → α → σ) (s : σ) (xs : List α) (arrived : List Nat) (w : Intake σ α) :
    Prop where
  state_eq : w.state = (xs.take w.next).foldl f s
  applied : ∀ i < w.next, i ∈ arrived
  waiting_eq : ∀ i : Nat, w.waiting[i]? = if w.next ≤ i ∧ i ∈ arrived then xs[i]? else none

/-- Draining goes on to an item that has not arrived. -/
theorem Tracks.drain (h : Tracks f s xs arrived w) (hbound : ∀ i ∈ arrived, i < xs.length) :
    Tracks f s xs arrived (drain f w) ∧ (Intake.drain f w).next ∉ arrived := by
  fun_induction Intake.drain f w with
  | case1 w hnone =>
    refine ⟨h, fun hnext => ?_⟩
    rw [h.waiting_eq, if_pos ⟨Nat.le_refl _, hnext⟩, List.getElem?_eq_none_iff] at hnone
    exact absurd (hbound _ hnext) (Nat.not_lt_of_le hnone)
  | case2 w x hsome ih =>
    have hnext := h.waiting_eq w.next
    rw [hsome] at hnext
    split at hnext
    · rename_i harrived
      refine ih { state_eq := ?_, applied := fun i hi => ?_, waiting_eq := fun i => ?_ }
      · show f w.state x = _
        rw [List.take_add_one, ← hnext, List.foldl_append, h.state_eq]
        rfl
      · rcases Nat.lt_succ_iff_lt_or_eq.mp hi with hi | rfl
        · exact h.applied i hi
        · exact harrived.2
      · show (w.waiting.erase w.next)[i]? = if w.next + 1 ≤ i ∧ i ∈ arrived then xs[i]? else none
        rw [Std.ExtTreeMap.getElem?_erase, h.waiting_eq]
        rcases Nat.lt_trichotomy i w.next with hi | rfl | hi
        · simp [Nat.not_le_of_lt hi, Nat.not_le_of_lt (Nat.lt_succ_of_lt hi)]
        · rw [if_pos Std.ReflOrd.compare_self, if_neg fun hle => Nat.not_succ_le_self _ hle.1]
        · simp [Nat.le_of_lt hi, Nat.succ_le_of_lt hi, Nat.ne_of_lt hi]
    · cases hnext

/-- An item that arrives is applied or waits. -/
theorem Tracks.receive (h : Tracks f s xs arrived w) (hbound : ∀ i ∈ arrived, i < xs.length)
    {x : α} {i : Nat} (hx : xs[i]? = some x) (hnew : i ∉ arrived) :
    Tracks f s xs (i :: arrived) (receive f w (x, i)) ∧
      (Intake.receive f w (x, i)).next ∉ i :: arrived := by
  refine Tracks.drain { state_eq := h.state_eq, applied := fun j hj => ?_, waiting_eq := ?_ } ?_
  · exact List.mem_cons_of_mem i (h.applied j hj)
  · intro j
    show (w.waiting.insert i x)[j]? = if w.next ≤ j ∧ j ∈ i :: arrived then xs[j]? else none
    rw [Std.ExtTreeMap.getElem?_insert, h.waiting_eq]
    by_cases hij : i = j
    · subst hij
      -- all before the next item have arrived, so this one is not before it
      have hle : w.next ≤ i := Nat.le_of_not_lt fun hlt => hnew (h.applied i hlt)
      simp [hle, hx]
    · simp [hij, Ne.symm hij]
  · refine List.forall_mem_cons.mpr ⟨?_, hbound⟩
    exact (List.getElem?_eq_some_iff.mp hx).1

/-- Results that arrive one after the other are tracked on. -/
theorem Tracks.foldl_receive (h : Tracks f s xs arrived w) (hnext : w.next ∉ arrived)
    (items : List (α × Nat)) (hbound : ∀ i ∈ arrived, i < xs.length)
    (hitems : ∀ item ∈ items, xs[item.2]? = some item.1)
    (hnodup : (items.map Prod.snd).Nodup) (hnew : ∀ item ∈ items, item.2 ∉ arrived) :
    ∃ arrived', (∀ i, i ∈ arrived' ↔ i ∈ arrived ∨ i ∈ items.map Prod.snd) ∧
      Tracks f s xs arrived' (items.foldl (Intake.receive f) w) ∧
      (items.foldl (Intake.receive f) w).next ∉ arrived' := by
  induction items generalizing w arrived with
  | nil => exact ⟨arrived, fun i => by simp, h, hnext⟩
  | cons item items ih =>
    obtain ⟨x, i⟩ := item
    obtain ⟨hx, hitems⟩ := List.forall_mem_cons.mp hitems
    obtain ⟨hi, hnew⟩ := List.forall_mem_cons.mp hnew
    obtain ⟨hfresh, hnodup⟩ := List.nodup_cons.mp hnodup
    obtain ⟨hreceived, hnext⟩ := h.receive hbound hx hi
    have hlt : i < xs.length := (List.getElem?_eq_some_iff.mp hx).1
    -- the other items are received by what has received the first one
    obtain ⟨arrived', hmem, hdone⟩ := ih hreceived hnext
      (List.forall_mem_cons.mpr ⟨hlt, hbound⟩) hitems hnodup fun item hitem hin => by
        rcases List.mem_cons.mp hin with heq | hin
        · exact hfresh (List.mem_map.mpr ⟨item, hitem, heq⟩)
        · exact hnew item hitem hin
    refine ⟨arrived', fun j => ?_, hdone⟩
    rw [hmem, List.mem_cons, List.map_cons, List.mem_cons]
    tauto

/-- In whichever order the items arrive, they are applied in the order of their numbers. -/
theorem receiveAll_eq (f : σ → α → σ) (s : σ) (h : items.Perm xs.zipIdx) :
    receiveAll f s items = xs.foldl f s := by
  have hnumbers : (items.map Prod.snd).Perm (List.range' 0 xs.length) := by
    rw [← List.zipIdx_map_snd]
    exact h.map _
  have hstart : Tracks f s xs [] ⟨s, 0, ∅⟩ :=
    ⟨rfl, fun i hi => absurd hi (Nat.not_lt_zero i), fun i => by simp⟩
  obtain ⟨arrived, hmem, hdone, hnext⟩ := hstart.foldl_receive List.not_mem_nil items
    (fun _ hi => absurd hi List.not_mem_nil)
    (fun item hitem => List.mk_mem_zipIdx_iff_getElem?.mp (h.mem_iff.mp hitem))
    (hnumbers.nodup_iff.mpr List.nodup_range') fun _ _ => List.not_mem_nil
  -- the next item has not arrived, so there is none
  have hlength : xs.length ≤ (items.foldl (receive f) ⟨s, 0, ∅⟩).next := by
    refine Nat.le_of_not_lt fun hlt => hnext ((hmem _).mpr (Or.inr (hnumbers.mem_iff.mpr ?_)))
    exact List.mem_range'_1.mpr ⟨Nat.zero_le _, by omega⟩
  rw [receiveAll, hdone.state_eq, List.take_of_length_le hlength]

end Intake

end SemanticIndex
