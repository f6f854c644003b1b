import SemanticIndex.Source.Value

/-!
# Operators on Evaluated Values

What an operator makes of evaluated operands, and when a condition holds. Integers are words of
sixty-four bits and wrap around. A combination of operand and operator for which there is no rule
has no result; the expression then stays as it is.
-/

namespace SemanticIndex

/-- What a division by zero gives. -/
inductive ZeroDivision where
  /-- Zero, of the type of the operands. -/
  | zero
  /-- Nothing: the expression stays as it is. -/
  | unevaluated
  deriving DecidableEq

/-- A division by zero, where `zero` is the zero of the operands' type. -/
def ZeroDivision.result (policy : ZeroDivision) (zero : Value) : Option Value :=
  match policy with
  | .zero => some zero
  | .unevaluated => none

/-- The integer shifted left; zero if the amount is not from 0 through 63. -/
def shiftedLeft (l r : Int64) : Int64 := if 0 ≤ r ∧ r < 64 then l <<< r else 0

/-- The integer shifted right, its sign filling in; zero if the amount is not from 0 through 63. -/
def shiftedRight (l r : Int64) : Int64 := if 0 ≤ r ∧ r < 64 then l >>> r else 0

/-- The quotient of two integers, rounded toward zero. A machine has none by zero. -/
def quotient? (l r : Int64) : Option Int64 := if r = 0 then none else some (l / r)

/-- The remainder of two integers, with the sign of the first. A machine has none by zero. -/
def remainder? (l r : Int64) : Option Int64 := if r = 0 then none else some (l % r)

/-- An operator between two integers as a machine carries it out: nothing if the machine has to
stop, and else the result if there is a rule for one. A division is the only thing that could stop
it; all else wraps around. -/
def carriedOut? (policy : ZeroDivision) (o : BinaryOperator) (l r : Int64) (p : Position) :
    Option (Option Value) :=
  match o with
  | .add => some (some (.int (l + r) p))
  | .sub => some (some (.int (l - r) p))
  | .mul => some (some (.int (l * r) p))
  | .div =>
    if r = 0 then some (policy.result (.int 0 p)) else (quotient? l r).map (some <| .int · p)
  | .mod =>
    if r = 0 then some (policy.result (.int 0 p)) else (remainder? l r).map (some <| .int · p)
  | .bitAnd => some (some (.int (l &&& r) p))
  | .bitOr => some (some (.int (l ||| r) p))
  | .bitXor => some (some (.int (l ^^^ r) p))
  | .shiftLeft => some (some (.int (shiftedLeft l r) p))
  | .shiftRight => some (some (.int (shiftedRight l r) p))
  | .eq => some (some (.bool (l == r) p))
  | .notEq => some (some (.bool (l != r) p))
  | .lt => some (some (.bool (l < r) p))
  | .lte => some (some (.bool (l ≤ r) p))
  | .gt => some (some (.bool (r < l) p))
  | .gte => some (some (.bool (r ≤ l) p))
  | .and | .or | .concat => some none

/-- An operator between two integers. -/
def intResult (policy : ZeroDivision) (o : BinaryOperator) (l r : Int64) (p : Position) :
    Option Value :=
  (carriedOut? policy o l r p).join

/-- Division is that of machine integers, but by zero it is up to the policy. -/
theorem intResult_div (policy : ZeroDivision) (l r : Int64) (p : Position) :
    intResult policy .div l r p =
      if r = 0 then policy.result (.int 0 p) else some (.int (l / r) p) := by
  by_cases hr : r = 0 <;> simp [intResult, carriedOut?, quotient?, hr]

/-- So is the remainder. -/
theorem intResult_mod (policy : ZeroDivision) (l r : Int64) (p : Position) :
    intResult policy .mod l r p =
      if r = 0 then policy.result (.int 0 p) else some (.int (l % r) p) := by
  by_cases hr : r = 0 <;> simp [intResult, carriedOut?, remainder?, hr]

/-- An operator between two doubles. -/
def floatResult (policy : ZeroDivision) (o : BinaryOperator) (l r : Float) (p : Position) :
    Option Value :=
  match o with
  | .add => some (.float (l + r) p)
  | .sub => some (.float (l - r) p)
  | .mul => some (.float (l * r) p)
  | .div => if r == 0 then policy.result (.float 0 p) else some (.float (l / r) p)
  | .mod => if r == 0 then policy.result (.float 0 p) else some (.float (Decimal.remainder l r) p)
  | .eq => some (.bool (l == r) p)
  | .notEq => some (.bool (l != r) p)
  | .lt => some (.bool (l < r) p)
  | .lte => some (.bool (l ≤ r) p)
  | .gt => some (.bool (r < l) p)
  | .gte => some (.bool (r ≤ l) p)
  | .and | .or | .concat | .bitAnd | .bitOr | .bitXor | .shiftLeft | .shiftRight => none

/-- An operator between two truth values. -/
def boolResult (o : BinaryOperator) (l r : Bool) (p : Position) : Option Value :=
  match o with
  | .eq => some (.bool (l == r) p)
  | .notEq => some (.bool (l != r) p)
  | .and => some (.bool (l && r) p)
  | .or => some (.bool (l || r) p)
  | _ => none

/-- An operator between two texts, which it compares without regard to quotes. -/
def stringResult (o : BinaryOperator) (l r : String) (p : Position) : Option Value :=
  match o with
  | .eq => some (.bool (l == r) p)
  | .notEq => some (.bool (l != r) p)
  | _ => none

/-- What a binary operator makes of two evaluated operands; the result stands at `p`. An integer
beside a double counts as the nearest double, and anything can be concatenated. -/
def binaryResult (policy : ZeroDivision) (o : BinaryOperator) (l r : Value) (p : Position) :
    Option Value :=
  if o = .concat then
    some (.string (l.text ++ r.text) true p)
  else
    match l, r with
    | .int i _, .int j _ => intResult policy o i j p
    | .bool b _, .bool c _ => boolResult o b c p
    | .string s _ _, .string t _ _ => stringResult o s t p
    | l, r =>
      match l.asFloat?, r.asFloat? with
      | some x, some y => floatResult policy o x y p
      | _, _ => none

/-- What a unary operator makes of an evaluated operand; the result stands at `p`. The negative of
an integer wraps around, so that it stops no machine. -/
def unaryResult (o : UnaryOperator) (v : Value) (p : Position) : Option Value :=
  match o, v with
  | .neg, .int i _ => some (.int (-i) p)
  | .neg, .float x _ => some (.float (-x) p)
  | .not, .bool b _ => some (.bool (!b) p)
  | _, _ => none

/-- Whether an evaluated condition holds: a number unless it is zero, a text unless it is empty, a
truth value as it says, and nothing else. -/
def Value.holds : Value → Bool
  | .bool b _ => b
  | .int i _ => i != 0
  | .float x _ => x != 0
  | .string s _ _ => s != ""
  | .reference .. | .atReference .. | .binary .. | .unary .. | .array .. => false

namespace Value

mutual

/-- Evaluates an expression where `resolve` knows the values of names. A name without a value and
an operator without a result stay as they are, over evaluated operands. -/
def reduce (policy : ZeroDivision) (resolve : String → Option Value) : Value → Value
  | string s quoted p => string s quoted p
  | int i p => int i p
  | float x p => float x p
  | bool b p => bool b p
  | reference name p => (resolve (variableName name)).getD (reference name p)
  | atReference name p => (resolve (variableName name)).getD (atReference name p)
  | binary o l r p =>
    let l := reduce policy resolve l
    let r := reduce policy resolve r
    (binaryResult policy o l r p).getD (binary o l r p)
  | unary o v p =>
    let v := reduce policy resolve v
    (unaryResult o v p).getD (unary o v p)
  | array vs p => array (reduceAll policy resolve vs) p

/-- Evaluates each expression of a list. -/
def reduceAll (policy : ZeroDivision) (resolve : String → Option Value) : List Value → List Value
  | [] => []
  | v :: vs => reduce policy resolve v :: reduceAll policy resolve vs

end

theorem reduceAll_eq_map (policy : ZeroDivision) (resolve : String → Option Value)
    (vs : List Value) : reduceAll policy resolve vs = vs.map (reduce policy resolve) := by
  induction vs with
  | nil => simp [reduceAll]
  | cons v vs ih => simp [reduceAll, ih]

end Value

end SemanticIndex
