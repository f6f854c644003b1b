/-!
# Operators

The operators of expressions and their spelling. No two binary operators are spelled alike
(`BinaryOperator.text_injective`).
-/

namespace SemanticIndex

/-- An operator between two operands. -/
inductive BinaryOperator where
  | add | sub | mul | div | mod
  | concat
  | eq | notEq | lt | lte | gt | gte
  | and | or
  | bitAnd | bitOr | bitXor | shiftLeft | shiftRight
  deriving DecidableEq

/-- An operator before one operand. -/
inductive UnaryOperator where
  | neg | not
  deriving DecidableEq

namespace BinaryOperator

/-- How the operator is written. -/
def text : BinaryOperator → String
  | add => "+"
  | sub => "-"
  | mul => "*"
  | div => "/"
  | mod => "%"
  | concat => ".."
  | eq => "=="
  | notEq => "!="
  | lt => "<"
  | lte => "<="
  | gt => ">"
  | gte => ">="
  | and => "&&"
  | or => "||"
  | bitAnd => "&"
  | bitOr => "|"
  | bitXor => "^"
  | shiftLeft => "<<"
  | shiftRight => ">>"

/-- Whether the operator compares its operands. -/
def isComparison : BinaryOperator → Bool
  | eq | notEq | lt | lte | gt | gte => true
  | _ => false

/-- No two operators are written alike. -/
theorem text_injective {a b : BinaryOperator} (h : a.text = b.text) : a = b := by
  revert h
  cases a <;> cases b <;> decide

end BinaryOperator

namespace UnaryOperator

/-- How the operator is written. -/
def text : UnaryOperator → String
  | neg => "-"
  | not => "!"

end UnaryOperator

end SemanticIndex
