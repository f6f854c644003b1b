import SemanticIndex.Text.Split

/-!
# Names

Objects are declared with the sigils `+` and `$`, variables are referred to with the sigil `@`;
neither belongs to the name. `nodeName` and `variableName` strip them, and stripping twice is
stripping once. A dotted name is a path of names.
-/

namespace SemanticIndex

open Text

/-- Whether a character may stand before the name of a declared object. -/
def isDeclarationSigil (c : Char) : Bool := c == '+' || c == '$'

/-- The name under which an object declared as `declared` is known: without leading sigils. -/
def nodeName (declared : String) : String := dropLeading isDeclarationSigil declared

/-- A variable's name without leading `@`. -/
def variableName (name : String) : String := dropLeading (· == '@') name

/-- The names that a dotted name is made of. -/
def nameSegments (name : String) : List String := split '.' name

/-- There are no leading sigils in the name of a node. -/
@[simp]
theorem nodeName_nodeName (declared : String) :
    nodeName (nodeName declared) = nodeName declared :=
  dropLeading_dropLeading _ _

/-- A name without the mark stays as it is. -/
@[simp]
theorem variableName_variableName (name : String) :
    variableName (variableName name) = variableName name :=
  dropLeading_dropLeading _ _

end SemanticIndex
