import Mathlib.Data.Int.ModEq
import SemanticIndex.Evaluation.Evaluate

/-!
# Integer Operators

What the operators make of two integers, said about the whole numbers that the words stand for. A
sum, a difference, a product, a quotient and a number shifted to the left are exact and then reduced
to sixty-four bits; remainders, numbers shifted to the right and comparisons are exact as they are
(`OperatesOn`, `evaluate_operatesOn`).

A machine divides by every word but zero. It is never asked to divide by zero, so no operator stops
it, and what it carries out is what evaluation takes for the result (`carriedOut?_eq`). Negation
wraps around and cannot stop it.
-/

namespace SemanticIndex

/-! ### Shifts -/

section

variable {l r : Int64}

/-- An amount from 0 through 63 is the amount by which a word is shifted. -/
private theorem toNat_smod (h : 0 ≤ r.toInt) (h' : r.toInt < 64) :
    (r.toBitVec.smod 64).toNat = r.toInt.toNat := by
  have hsmod : (r.toBitVec.smod 64).toInt = r.toInt := by
    rw [BitVec.toInt_smod, Int64.toInt_toBitVec]
    exact Int.fmod_eq_of_lt h h'
  have hmsb : (r.toBitVec.smod 64).msb = false := by
    rw [BitVec.msb_eq_toInt, hsmod]
    exact decide_eq_false (Int.not_lt.mpr h)
  rw [← hsmod, BitVec.toInt_eq_toNat_of_msb hmsb, Int.toNat_natCast]

/-- Shifting to the left multiplies by a power of two. -/
theorem toInt_shiftedLeft (h : 0 ≤ r.toInt) (h' : r.toInt < 64) :
    (shiftedLeft l r).toInt = (l.toInt * 2 ^ r.toInt.toNat).bmod (2 ^ 64) := by
  have hamount : 0 ≤ r ∧ r < 64 := ⟨Int64.le_iff_toInt_le.mpr h, Int64.lt_iff_toInt_lt.mpr h'⟩
  -- the word as a natural number is the integer up to the reduction
  have hword : l.toInt = (l.toBitVec.toNat : ℤ).bmod (2 ^ 64) := by
    rw [← Int64.toInt_toBitVec, BitVec.toInt_eq_toNat_bmod]
  rw [hword, Int.bmod_mul_bmod, shiftedLeft, if_pos hamount, ← Int64.toInt_toBitVec,
    Int64.toBitVec_shiftLeft, BitVec.shiftLeft_eq', toNat_smod h h', BitVec.toInt_shiftLeft,
    Nat.shiftLeft_eq]
  norm_cast

/-- Shifting to the right divides by a power of two and rounds down. -/
theorem toInt_shiftedRight (h : 0 ≤ r.toInt) (h' : r.toInt < 64) :
    (shiftedRight l r).toInt = l.toInt.fdiv (2 ^ r.toInt.toNat) := by
  have hamount : 0 ≤ r ∧ r < 64 := ⟨Int64.le_iff_toInt_le.mpr h, Int64.lt_iff_toInt_lt.mpr h'⟩
  rw [shiftedRight, if_pos hamount, ← Int64.toInt_toBitVec (l >>> r), Int64.toBitVec_shiftRight,
    BitVec.sshiftRight_eq', toNat_smod h h', BitVec.toInt_sshiftRight, Int.shiftRight_eq_div_pow,
    Int64.toInt_toBitVec, Int.fdiv_eq_ediv_of_nonneg _ (Int.pow_nonneg (by decide))]
  norm_cast

/-- Nothing is left of a number that is shifted by another amount. -/
theorem shifted_eq_zero (h : ¬ (0 ≤ r.toInt ∧ r.toInt < 64)) :
    shiftedLeft l r = 0 ∧ shiftedRight l r = 0 := by
  have hamount : ¬ (0 ≤ r ∧ r < 64) := fun ⟨hle, hlt⟩ =>
    h ⟨Int64.le_iff_toInt_le.mp hle, Int64.lt_iff_toInt_lt.mp hlt⟩
  exact ⟨if_neg hamount, if_neg hamount⟩

end

/-! ### Operators -/

/-- The value is the integer to which a whole number is reduced in sixty-four bits. -/
def Value.IsReduced (v : Value) (x : ℤ) (s : Position) : Prop :=
  ∃ w : Int64, v = .int w s ∧ w.toInt = x.bmod (2 ^ 64)

/-- What evaluation makes of operators on the integers `l` and `r`, where the expression of each
operator stands at `s`. -/
structure OperatesOn (policy : ZeroDivision) (eval : Value → Value) (l r : Int64) (s : Position)
    (expression : BinaryOperator → Value) : Prop where
  add : (eval (expression .add)).IsReduced (l.toInt + r.toInt) s
  sub : (eval (expression .sub)).IsReduced (l.toInt - r.toInt) s
  mul : (eval (expression .mul)).IsReduced (l.toInt * r.toInt) s
  neg : ∀ p, (eval (.unary .neg (.int l p) s)).IsReduced (-l.toInt) s
  /-- Quotients are truncated toward zero. -/
  div : r ≠ 0 → (eval (expression .div)).IsReduced (l.toInt.tdiv r.toInt) s
  /-- There is one quotient that is too large, and it comes out as the dividend. -/
  div_least : l = Int64.minValue → r = -1 → eval (expression .div) = .int l s
  /-- A remainder is smaller than the divisor, has the sign of the dividend unless it is zero, and
  makes up the dividend with the quotient. -/
  mod : r ≠ 0 → ∃ quotient remainder : Int64,
    eval (expression .div) = .int quotient s ∧ eval (expression .mod) = .int remainder s ∧
      |remainder.toInt| < |r.toInt| ∧
      (remainder.toInt = 0 ∨ remainder.toInt.sign = l.toInt.sign) ∧
      l.toInt ≡ quotient.toInt * r.toInt + remainder.toInt [ZMOD 2 ^ 64]
  by_zero : r = 0 → ∀ o, o = .div ∨ o = .mod →
    eval (expression o) =
      match policy with
      | .zero => .int 0 s
      | .unevaluated => expression o
  shiftLeft : 0 ≤ r.toInt → r.toInt < 64 →
    (eval (expression .shiftLeft)).IsReduced (l.toInt * 2 ^ r.toInt.toNat) s
  shiftRight : 0 ≤ r.toInt → r.toInt < 64 →
    ∃ w : Int64, eval (expression .shiftRight) = .int w s ∧
      w.toInt = l.toInt.fdiv (2 ^ r.toInt.toNat)
  shift_far : ¬ (0 ≤ r.toInt ∧ r.toInt < 64) → ∀ o, o = .shiftLeft ∨ o = .shiftRight →
    eval (expression o) = .int 0 s
  eq : eval (expression .eq) = .bool (l.toInt = r.toInt) s
  notEq : eval (expression .notEq) = .bool (l.toInt ≠ r.toInt) s
  lt : eval (expression .lt) = .bool (l.toInt < r.toInt) s
  lte : eval (expression .lte) = .bool (l.toInt ≤ r.toInt) s
  gt : eval (expression .gt) = .bool (l.toInt > r.toInt) s
  gte : eval (expression .gte) = .bool (l.toInt ≥ r.toInt) s
  /-- All else has a value but what is meant for truth values, and a division by zero if the policy
  says so. -/
  stays_iff : ∀ o, eval (expression o) = expression o ↔
    o = .and ∨ o = .or ∨ ((o = .div ∨ o = .mod) ∧ r = 0 ∧ policy = .unevaluated)

/-- No operator stops the machine, whatever the integers. -/
theorem carriedOut?_eq (policy : ZeroDivision) (o : BinaryOperator) (l r : Int64) (p : Position) :
    carriedOut? policy o l r p = some (intResult policy o l r p) := by
  cases o with
  | div =>
    rw [intResult_div, carriedOut?]
    by_cases hr : r = 0 <;> simp [quotient?, hr]
  | mod =>
    rw [intResult_mod, carriedOut?]
    by_cases hr : r = 0 <;> simp [remainder?, hr]
  | _ => rfl

section

variable {l r : Int64}

/-- A remainder is smaller than the divisor. -/
theorem abs_toInt_mod_lt (hr : r ≠ 0) : |(l % r).toInt| < |r.toInt| := by
  have hr' : r.toInt ≠ 0 := fun h => hr (Int64.toInt_inj.mp h)
  rw [Int64.toInt_mod, Int.abs_eq_natAbs, Int.abs_eq_natAbs, Int.natAbs_tmod, Int.ofNat_lt]
  exact Nat.mod_lt _ (Int.natAbs_pos.mpr hr')

/-- It has the sign of the dividend, unless there is none. -/
theorem sign_toInt_mod (l r : Int64) :
    (l % r).toInt = 0 ∨ (l % r).toInt.sign = l.toInt.sign := by
  rw [Int64.toInt_mod]
  by_cases hdvd : r.toInt ∣ l.toInt
  · exact Or.inl (Int.tmod_eq_zero_of_dvd hdvd)
  · exact Or.inr (by rw [Int.sign_tmod, if_neg hdvd])

/-- The quotient times the divisor and the remainder are the dividend, up to the reduction of the
quotient. -/
theorem toInt_modEq (l r : Int64) :
    l.toInt ≡ (l / r).toInt * r.toInt + (l % r).toInt [ZMOD 2 ^ 64] := by
  have hquotient : l.toInt.tdiv r.toInt ≡ (l / r).toInt [ZMOD 2 ^ 64] := by
    rw [Int64.toInt_div]
    exact (Int.bmod_emod (m := 2 ^ 64)).symm
  calc l.toInt = l.toInt.tdiv r.toInt * r.toInt + l.toInt.tmod r.toInt := by
        rw [Int.mul_comm, Int.mul_tdiv_add_tmod]
    _ ≡ (l / r).toInt * r.toInt + (l % r).toInt [ZMOD 2 ^ 64] := by
        rw [Int64.toInt_mod]
        exact (hquotient.mul_right _).add_right _

end

/-- An operator between two integers has the value that `intResult` gives it, and stays as it is
where there is none. -/
theorem evaluate_int_int (o : EvaluationOptions) (c : Context) {op : BinaryOperator}
    (hop : op ≠ .concat) (l r : Int64) (p q s : Position) :
    evaluate o c (.binary op (.int l p) (.int r q) s) =
      (intResult o.zeroDivision op l r s).getD (.binary op (.int l p) (.int r q) s) := by
  rw [evaluate, valueOf, Value.reduce, Value.reduce, Value.reduce, binaryResult, if_neg hop]

/-- Which operators have no result is a matter of the operator, of the divisor and of the policy. -/
theorem intResult_eq_none_iff {policy : ZeroDivision} {op : BinaryOperator} {l r : Int64}
    {s : Position} (hop : op ≠ .concat) :
    intResult policy op l r s = none ↔
      op = .and ∨ op = .or ∨ ((op = .div ∨ op = .mod) ∧ r = 0 ∧ policy = .unevaluated) := by
  cases op with
  | div | mod =>
    by_cases hr : r = 0 <;> cases policy <;>
      simp [intResult_div, intResult_mod, ZeroDivision.result, hr]
  | concat => exact absurd rfl hop
  | _ => simp [intResult, carriedOut?]

/-- A result is a number or a truth value, and no expression. -/
theorem intResult_ne_binary {policy : ZeroDivision} {op op' : BinaryOperator} {l r : Int64}
    {s : Position} {v w : Value} :
    intResult policy op l r s ≠ some (.binary op' v w s) := by
  cases op with
  | div | mod =>
    by_cases hr : r = 0 <;> cases policy <;>
      simp [intResult_div, intResult_mod, ZeroDivision.result, hr]
  | _ => simp [intResult, carriedOut?]

/-- An operator between two integers stays as it is exactly if it has no result. -/
theorem evaluate_int_int_eq_self_iff (o : EvaluationOptions) (c : Context) (op : BinaryOperator)
    (l r : Int64) (p q s : Position) :
    evaluate o c (.binary op (.int l p) (.int r q) s) = .binary op (.int l p) (.int r q) s ↔
      op = .and ∨ op = .or ∨
        ((op = .div ∨ op = .mod) ∧ r = 0 ∧ o.zeroDivision = .unevaluated) := by
  by_cases hop : op = .concat
  · subst hop
    simp [evaluate, valueOf, Value.reduce, binaryResult]
  · rw [evaluate_int_int o c hop, ← intResult_eq_none_iff hop (l := l) (s := s)]
    cases hresult : intResult o.zeroDivision op l r s with
    | none => simp
    | some v =>
      refine iff_of_false (fun hv => ?_) (Option.some_ne_none v)
      rw [Option.getD_some] at hv
      exact intResult_ne_binary (hv ▸ hresult)

/-- Operators on integers are exact up to sixty-four bits, whatever the options and the context, and
carrying them out stops no machine. -/
theorem evaluate_operatesOn (o : EvaluationOptions) (c : Context) (l r : Int64)
    (p q s : Position) :
    OperatesOn o.zeroDivision (evaluate o c) l r s
        (fun op => .binary op (.int l p) (.int r q) s) ∧
      ∀ op, carriedOut? o.zeroDivision op l r s = some (intResult o.zeroDivision op l r s) := by
  have hvalue : ∀ {op v}, op ≠ .concat → intResult o.zeroDivision op l r s = some v →
      evaluate o c (.binary op (.int l p) (.int r q) s) = v := fun hop hv => by
    rw [evaluate_int_int o c hop, hv, Option.getD_some]
  have hquotient : r ≠ 0 →
      evaluate o c (.binary .div (.int l p) (.int r q) s) = .int (l / r) s := fun hr =>
    hvalue (by decide) (by rw [intResult_div, if_neg hr])
  refine ⟨?_, fun op => carriedOut?_eq _ op l r s⟩
  exact {
    add := ⟨l + r, hvalue (by decide) rfl, Int64.toInt_add l r⟩
    sub := ⟨l - r, hvalue (by decide) rfl, Int64.toInt_sub l r⟩
    mul := ⟨l * r, hvalue (by decide) rfl, Int64.toInt_mul l r⟩
    neg := fun p => ⟨-l, rfl, Int64.toInt_neg l⟩
    div := fun hr => ⟨l / r, hquotient hr, Int64.toInt_div l r⟩
    div_least := by
      rintro rfl rfl
      exact hquotient (by decide)
    mod := fun hr => ⟨l / r, l % r, hquotient hr,
      hvalue (by decide) (by rw [intResult_mod, if_neg hr]), abs_toInt_mod_lt hr,
      sign_toInt_mod l r, toInt_modEq l r⟩
    by_zero := by
      rintro rfl op hop
      have hresult : intResult o.zeroDivision op l 0 s = o.zeroDivision.result (.int 0 s) := by
        rcases hop with rfl | rfl <;> rfl
      have hconcat : op ≠ .concat := by
        rcases hop with rfl | rfl <;> decide
      rw [evaluate_int_int o c hconcat, hresult]
      cases o.zeroDivision <;> rfl
    shiftLeft := fun h h' => ⟨_, hvalue (by decide) rfl, toInt_shiftedLeft h h'⟩
    shiftRight := fun h h' => ⟨_, hvalue (by decide) rfl, toInt_shiftedRight h h'⟩
    shift_far := fun h op hop => by
      rcases hop with rfl | rfl
      · refine hvalue (by decide) ?_
        rw [intResult, carriedOut?, (shifted_eq_zero h).1, Option.join_some]
      · refine hvalue (by decide) ?_
        rw [intResult, carriedOut?, (shifted_eq_zero h).2, Option.join_some]
    eq := hvalue (by decide) (by simp [intResult, carriedOut?, Int64.toInt_inj, beq_eq_decide])
    notEq := hvalue (by decide)
      (by simp [intResult, carriedOut?, Int64.toInt_inj, bne, beq_eq_decide])
    lt := hvalue (by decide) (by simp [intResult, carriedOut?, Int64.lt_iff_toInt_lt])
    lte := hvalue (by decide) (by simp [intResult, carriedOut?, Int64.le_iff_toInt_le])
    gt := hvalue (by decide) (by simp [intResult, carriedOut?, Int64.lt_iff_toInt_lt])
    gte := hvalue (by decide) (by simp [intResult, carriedOut?, Int64.le_iff_toInt_le])
    stays_iff := fun op => evaluate_int_int_eq_self_iff o c op l r p q s }

end SemanticIndex
