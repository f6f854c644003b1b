import SemanticIndex.Decimal.Shortest
import SemanticIndex.Source.Name
import SemanticIndex.Source.Operator
import SemanticIndex.Source.Position

/-!
# Values

The expressions that may stand after a field's name. Each knows where it was written. A value is
compared (`Value.same`) without regard to positions and printed (`Value.display`) on one line.
-/

namespace SemanticIndex

/-- An expression, with the place where it was written. -/
inductive Value where
  /-- A text, between quotes or bare. -/
  | string (content : String) (quoted : Bool) (position : Position)
  /-- A whole number of sixty-four bits. -/
  | int (number : Int64) (position : Position)
  /-- A double. -/
  | float (number : Float) (position : Position)
  /-- A truth value. -/
  | bool (truth : Bool) (position : Position)
  /-- A bare name, of a node or a variable. -/
  | reference (name : String) (position : Position)
  /-- A name marked with `@`, which only a variable answers to; the text of the name may or may
  not begin with the mark. -/
  | atReference (name : String) (position : Position)
  /-- An operator between two values. -/
  | binary (operator : BinaryOperator) (left right : Value) (position : Position)
  /-- An operator before a value. -/
  | unary (operator : UnaryOperator) (operand : Value) (position : Position)
  /-- A list of values. -/
  | array (items : List Value) (position : Position)

namespace Value

instance : Inhabited Value := ⟨.bool false .start⟩

/-- Where the value was written. -/
def position : Value → Position
  | string _ _ p | int _ p | float _ p | bool _ p | reference _ p | atReference _ p
  | binary _ _ _ p | unary _ _ p | array _ p => p

/-- The same value, written elsewhere. -/
def moveTo (p : Position) : Value → Value
  | string s q _ => string s q p
  | int i _ => int i p
  | float x _ => float x p
  | bool b _ => bool b p
  | reference n _ => reference n p
  | atReference n _ => atReference n p
  | binary o l r _ => binary o l r p
  | unary o x _ => unary o x p
  | array xs _ => array xs p

/-- Whether the value is a number literal. -/
def isNumber : Value → Bool
  | int .. | float .. => true
  | _ => false

/-- Whether the value is a bare name. -/
def isReference : Value → Bool
  | reference .. => true
  | _ => false

/-- The number of an integer literal. -/
def asInt? : Value → Option Int64
  | int i _ => some i
  | _ => none

/-- The double nearest to an integer, of two equally near the even one. -/
def nearestFloat (i : Int64) : Float := Float.ofInt i.toInt

/-- The number of a number literal as a double, integers rounded to the nearest. -/
def asFloat? : Value → Option Float
  | int i _ => some (nearestFloat i)
  | float x _ => some x
  | _ => none

/-- The name that a reference stands for, without the mark of a variable. -/
def referenceName? : Value → Option String
  | reference name _ => some name
  | atReference name _ => some (variableName name)
  | _ => none

/-! ### Equality -/

mutual

/-- Whether two values are the same expression, wherever they were written. Doubles compare as
numbers: a NaN differs from itself, and the two zeros are one. -/
def same : Value → Value → Bool
  | string s q _, string t r _ => s == t && q == r
  | int i _, int j _ => i == j
  | float x _, float y _ => x == y
  | bool b _, bool c _ => b == c
  | reference m _, reference n _ => m == n
  | atReference m _, atReference n _ => m == n
  | binary o l r _, binary p k s _ => o == p && same l k && same r s
  | unary o x _, unary p y _ => o == p && same x y
  | array xs _, array ys _ => sameAll xs ys
  | _, _ => false

/-- Whether two lists hold the same expressions in the same order. -/
def sameAll : List Value → List Value → Bool
  | [], [] => true
  | x :: xs, y :: ys => same x y && sameAll xs ys
  | _, _ => false

end

/-- Whether two optional values are both absent or the same expression. -/
def sameOption : Option Value → Option Value → Bool
  | none, none => true
  | some v, some w => same v w
  | _, _ => false

/-! ### Text -/

mutual

/-- The canonical text of a value. Operands stand beside their operator without brackets, a
quoted text between quotes as it is, array items between braces. -/
def display : Value → String
  | string s quoted _ => if quoted then "\"" ++ s ++ "\"" else s
  | int i _ => toString i.toInt
  | float x _ => Decimal.text x
  | bool b _ => if b then "true" else "false"
  | reference name _ => name
  | atReference name _ => "@" ++ variableName name
  | binary o l r _ => display l ++ " " ++ o.text ++ " " ++ display r
  | unary o x _ => o.text ++ display x
  | array xs _ => "\x7b" ++ ", ".intercalate (displayAll xs) ++ "\x7d"

/-- The canonical texts of a list of values. -/
def displayAll : List Value → List String
  | [] => []
  | x :: xs => display x :: displayAll xs

end

/-- The text that a value contributes to a larger one: the content of a string, the canonical
text of anything else. -/
def text : Value → String
  | string s _ _ => s
  | v => display v

/-! ### Parts -/

mutual

/-- The value and every value inside it, outer before inner and left before right. -/
def parts : Value → List Value
  | v@(binary _ l r _) => v :: parts l ++ parts r
  | v@(unary _ x _) => v :: parts x
  | v@(array xs _) => v :: partsAll xs
  | v => [v]

/-- The parts of each value of a list, one after the other. -/
def partsAll : List Value → List Value
  | [] => []
  | x :: xs => parts x ++ partsAll xs

end

theorem displayAll_eq_map (xs : List Value) : displayAll xs = xs.map display := by
  induction xs with
  | nil => simp [displayAll]
  | cons x xs ih => simp [displayAll, ih]

end Value

end SemanticIndex
