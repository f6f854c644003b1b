/-!
# Ranges of Code Points

A class of characters as a list of inclusive ranges of code points in increasing order. A search
stops at the first range that begins after the code point, so the low ones are found at once.

The main statement, `inRanges_iff`, says that nothing is missed by that.
-/

namespace SemanticIndex.Text

/-- An inclusive range of code points. -/
abbrev CodeRange := Nat × Nat

/-- Whether each range begins where the one before it begins or later. -/
def areIncreasing : List CodeRange → Bool
  | r :: s :: rest => r.1 ≤ s.1 && areIncreasing (s :: rest)
  | _ => true

/-- Whether one of some ranges in increasing order holds a code point. -/
def inRanges : List CodeRange → Nat → Bool
  | [], _ => false
  | (low, high) :: rest, n => low ≤ n && (n ≤ high || inRanges rest n)

/-- The first of some increasing ranges begins before the others. -/
theorem le_of_areIncreasing {r s : CodeRange} {rest : List CodeRange}
    (h : areIncreasing (r :: rest)) (hs : s ∈ rest) : r.1 ≤ s.1 := by
  induction rest generalizing r with
  | nil => simp at hs
  | cons next rest ih =>
    simp only [areIncreasing, Bool.and_eq_true, decide_eq_true_eq] at h
    rcases List.mem_cons.1 hs with rfl | hs
    · exact h.1
    · exact Nat.le_trans h.1 (ih h.2 hs)

/-- In increasing ranges a code point is found exactly if some range holds it. -/
theorem inRanges_iff {ranges : List CodeRange} (h : areIncreasing ranges) {n : Nat} :
    inRanges ranges n ↔ ∃ r ∈ ranges, r.1 ≤ n ∧ n ≤ r.2 := by
  induction ranges with
  | nil => simp [inRanges]
  | cons r rest ih =>
    have hrest : areIncreasing rest := by
      cases rest with
      | nil => rfl
      | cons s rest =>
        simp only [areIncreasing, Bool.and_eq_true] at h
        exact h.2
    have hlow : (∃ s ∈ rest, s.1 ≤ n ∧ n ≤ s.2) → r.1 ≤ n := fun ⟨s, hs, hn, _⟩ =>
      Nat.le_trans (le_of_areIncreasing h hs) hn
    simp only [inRanges, Bool.and_eq_true, Bool.or_eq_true, decide_eq_true_eq, ih hrest,
      List.mem_cons, exists_eq_or_imp]
    grind

end SemanticIndex.Text
