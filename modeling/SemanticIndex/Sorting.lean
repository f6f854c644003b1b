/-!
# Stable Sorting

Sorting by insertion. Items that compare alike keep their order (`filter_sort`), the result is a
rearrangement of the list (`sort_perm`), and it is in order (`pairwise_sort`). A list in order is
determined by what it holds of each key (`eq_of_pairwise_of_filter_eq`), and so is what a list is
sorted to (`sort_congr`).
-/

namespace SemanticIndex

variable {α : Type}

/-- Puts `x` before the first item that is not before it. -/
def insertSorted (le : α → α → Bool) (x : α) : List α → List α
  | [] => [x]
  | y :: ys => if le x y then x :: y :: ys else y :: insertSorted le x ys

/-- The list in the order `le`, items that compare alike in the order they had. -/
def sort (le : α → α → Bool) : List α → List α
  | [] => []
  | x :: xs => insertSorted le x (sort le xs)

/-- Inserting rearranges the list with the item in front. -/
theorem insertSorted_perm (le : α → α → Bool) (x : α) (xs : List α) :
    (insertSorted le x xs).Perm (x :: xs) := by
  induction xs with
  | nil => simp [insertSorted]
  | cons y ys ih =>
    unfold insertSorted
    split
    · exact .refl _
    · exact (ih.cons y).trans (.swap x y ys)

/-- Sorting rearranges. -/
theorem sort_perm (le : α → α → Bool) (xs : List α) : (sort le xs).Perm xs := by
  induction xs with
  | nil => exact .refl _
  | cons x xs ih => exact (insertSorted_perm le x _).trans (ih.cons x)

@[simp]
theorem mem_sort {le : α → α → Bool} {x : α} {xs : List α} : x ∈ sort le xs ↔ x ∈ xs :=
  (sort_perm le xs).mem_iff

@[simp]
theorem length_sort (le : α → α → Bool) (xs : List α) : (sort le xs).length = xs.length :=
  (sort_perm le xs).length_eq

/-- Inserting keeps a list in order. -/
theorem pairwise_insertSorted {le : α → α → Bool} (total : ∀ a b, le a b || le b a)
    (trans : ∀ a b c, le a b → le b c → le a c) (x : α) {xs : List α}
    (h : xs.Pairwise (fun a b => le a b)) :
    (insertSorted le x xs).Pairwise (fun a b => le a b) := by
  induction xs with
  | nil => simp [insertSorted]
  | cons y ys ih =>
    obtain ⟨hy, hys⟩ := List.pairwise_cons.1 h
    unfold insertSorted
    split
    · rename_i hxy
      refine List.pairwise_cons.2 ⟨fun z hz => ?_, h⟩
      rcases List.mem_cons.1 hz with rfl | hz
      · exact hxy
      · exact trans _ _ _ hxy (hy z hz)
    · rename_i hxy
      refine List.pairwise_cons.2 ⟨fun z hz => ?_, ih hys⟩
      rcases List.mem_cons.1 ((insertSorted_perm le x ys).mem_iff.1 hz) with rfl | hz
      · have := total y z
        simp_all
      · exact hy z hz

/-- Sorting by a total preorder puts the list in order. -/
theorem pairwise_sort {le : α → α → Bool} (total : ∀ a b, le a b || le b a)
    (trans : ∀ a b c, le a b → le b c → le a c) (xs : List α) :
    (sort le xs).Pairwise (fun a b => le a b) := by
  induction xs with
  | nil => exact .nil
  | cons x xs ih => exact pairwise_insertSorted total trans x ih

/-- A list in order is left as it is. -/
theorem sort_eq_self {le : α → α → Bool} {xs : List α} (h : xs.Pairwise (fun a b => le a b)) :
    sort le xs = xs := by
  induction xs with
  | nil => rfl
  | cons x xs ih =>
    obtain ⟨hx, hxs⟩ := List.pairwise_cons.1 h
    rw [sort, ih hxs]
    cases xs with
    | nil => rfl
    | cons y ys => rw [insertSorted, if_pos (hx y List.mem_cons_self)]

/-- An item is inserted before those that compare alike. -/
theorem filter_insertSorted {le : α → α → Bool} {p : α → Bool} {x : α}
    (h : ∀ y, p x = true → p y = true → le x y = true) (xs : List α) :
    (insertSorted le x xs).filter p = (x :: xs).filter p := by
  induction xs with
  | nil => rfl
  | cons y ys ih =>
    unfold insertSorted
    split
    · rfl
    · rename_i hxy
      rw [List.filter_cons, ih]
      by_cases hx : p x = true
      · have hy : p y = false := Bool.eq_false_iff.mpr fun hy => hxy (h y hx hy)
        simp [hx, hy]
      · simp [hx, List.filter_cons]

/-- Items that compare alike keep their order. -/
theorem filter_sort {le : α → α → Bool} {p : α → Bool}
    (h : ∀ x y, p x = true → p y = true → le x y = true) (xs : List α) :
    (sort le xs).filter p = xs.filter p := by
  induction xs with
  | nil => rfl
  | cons x xs ih => rw [sort, filter_insertSorted (h x), List.filter_cons, List.filter_cons, ih]

section

variable {β : Type} [BEq β] [LawfulBEq β] {key : α → β} {xs ys : List α}

/-- Lists with the same items of each key have the same items. -/
theorem mem_iff_of_filter_eq (h : ∀ k, xs.filter (key · == k) = ys.filter (key · == k)) {a : α} :
    a ∈ xs ↔ a ∈ ys := by
  have ha : a ∈ xs.filter (key · == key a) ↔ a ∈ ys.filter (key · == key a) := by rw [h]
  simpa using ha

/-- Two lists in the order of a key are equal if they have the same items of each key in the same
order. -/
theorem eq_of_pairwise_of_filter_eq {r : β → β → Prop}
    (antisymm : ∀ {k k' : β}, r k k' → r k' k → k = k')
    (hxs : xs.Pairwise fun a b => r (key a) (key b))
    (hys : ys.Pairwise fun a b => r (key a) (key b))
    (h : ∀ k, xs.filter (key · == k) = ys.filter (key · == k)) : xs = ys := by
  induction xs generalizing ys with
  | nil =>
    exact (List.eq_nil_iff_forall_not_mem.mpr fun a ha =>
      nomatch (mem_iff_of_filter_eq h).mpr ha).symm
  | cons x xs ih =>
    cases ys with
    | nil => exact nomatch (mem_iff_of_filter_eq h).mp List.mem_cons_self
    | cons y ys =>
      obtain ⟨hx, hxs'⟩ := List.pairwise_cons.mp hxs
      obtain ⟨hy, hys'⟩ := List.pairwise_cons.mp hys
      -- the first items have the least key, so they are the first ones of that key
      have hkey : key x = key y := by
        rcases List.mem_cons.mp ((mem_iff_of_filter_eq h).mpr List.mem_cons_self) with rfl | hyx
        · rfl
        rcases List.mem_cons.mp ((mem_iff_of_filter_eq h).mp List.mem_cons_self) with rfl | hxy
        · rfl
        exact antisymm (hx y hyx) (hy x hxy)
      have hfirst := h (key x)
      rw [List.filter_cons_of_pos (by simp), List.filter_cons_of_pos (by simp [hkey])] at hfirst
      obtain ⟨rfl, -⟩ := List.cons.inj hfirst
      refine congrArg (x :: ·) (ih hxs' hys' fun k => ?_)
      have hk := h k
      rw [List.filter_cons, List.filter_cons] at hk
      split at hk
      · exact (List.cons.inj hk).2
      · exact hk

section

variable (key) (r : β → β → Bool) (total : ∀ k k', r k k' || r k' k)

include total

/-- The items of one key keep their order. -/
theorem filter_key_sort (k : β) (xs : List α) :
    (sort (fun a b => r (key a) (key b)) xs).filter (key · == k) = xs.filter (key · == k) := by
  refine filter_sort (fun x y hx hy => ?_) xs
  rw [eq_of_beq hx, eq_of_beq hy]
  simpa using total k k

variable (trans : ∀ k k' k'', r k k' → r k' k'' → r k k'')
  (antisymm : ∀ {k k' : β}, r k k' → r k' k → k = k')

include trans antisymm

/-- A list is sorted to the one in order that has the same items of each key in the same order. -/
theorem sort_eq_of_filter_eq (hys : ys.Pairwise fun a b => r (key a) (key b))
    (h : ∀ k, xs.filter (key · == k) = ys.filter (key · == k)) :
    sort (fun a b => r (key a) (key b)) xs = ys := by
  have hsorted := pairwise_sort (fun a b => total (key a) (key b))
    (fun a b c => trans (key a) (key b) (key c)) xs
  refine eq_of_pairwise_of_filter_eq (r := fun k k' => r k k' = true) antisymm hsorted hys
    fun k => ?_
  rw [filter_key_sort key r total, h]

/-- What a list is sorted to depends on nothing but its items of each key, in their order. -/
theorem sort_congr (h : ∀ k, xs.filter (key · == k) = ys.filter (key · == k)) :
    sort (fun a b => r (key a) (key b)) xs = sort (fun a b => r (key a) (key b)) ys := by
  refine sort_eq_of_filter_eq key r total trans antisymm (pairwise_sort
    (fun a b => total (key a) (key b)) (fun a b c => trans (key a) (key b) (key c)) ys) fun k => ?_
  rw [h, filter_key_sort key r total]

/-- Items can be left out before or after sorting. -/
theorem sort_filter (p : α → Bool) (xs : List α) :
    sort (fun a b => r (key a) (key b)) (xs.filter p) =
      (sort (fun a b => r (key a) (key b)) xs).filter p := by
  have hswap : ∀ (k : β) (zs : List α),
      (zs.filter p).filter (key · == k) = (zs.filter (key · == k)).filter p := fun k zs => by
    simp only [List.filter_filter, Bool.and_comm]
  refine sort_eq_of_filter_eq key r total trans antisymm ((pairwise_sort
    (fun a b => total (key a) (key b)) (fun a b c => trans (key a) (key b) (key c)) xs).filter p)
    fun k => ?_
  rw [hswap, hswap, filter_key_sort key r total]

end

end

end SemanticIndex
