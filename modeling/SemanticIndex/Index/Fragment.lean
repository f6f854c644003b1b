import SemanticIndex.Gather
import SemanticIndex.Index.DocBlock
import SemanticIndex.Source.Path

/-!
# Fragments

A fragment is what one block of one file contributes to a node: the definitions of a package file,
of an object, or the arguments of an instantiation.
-/

namespace SemanticIndex

/-- What one block of one file contributes to a node. -/
structure Fragment where
  file : SourcePath
  /-- The name by which the block declares the node, sigils included. -/
  declaredName : String
  definitions : List Definition
  /-- Whether the block is an object or an instantiation, as opposed to a whole file. -/
  isObject : Bool
  /-- Where the block stands, if it is not a whole file. -/
  span : Option Span
  /-- The documentation of the block. -/
  doc : Option String
  /-- The documentation of the fields and variables that the block declares. -/
  docs : Std.ExtTreeMap String String
  /-- The pragmas of which the block is the innermost one. -/
  pragmas : List String
  /-- Whether a conditional or a loop encloses the block. -/
  conditional : Bool
  /-- The template that the block instantiates. -/
  template : Option String

/-- The definitions of a fragment in source order, each with whether it is conditional. -/
def Fragment.members (f : Fragment) : List (Definition × Bool) :=
  Definition.members f.conditional f.definitions

/-- The name and the documentation of a field or a variable that has some. -/
def memberDoc? (comments : List Comment) : Definition → Option (String × String)
  | .field f => (docBefore? comments f.position).map (f.name, ·)
  | .var v => (docBefore? comments v.position).map (v.name, ·)
  | _ => none

/-- The documentation of the fields and variables of a body, by name. Of several documented ones
of one name the last counts. -/
def memberDocs (comments : List Comment) (body : List Definition) :
    Std.ExtTreeMap String String :=
  .ofList ((Definition.members false body).filterMap fun m => memberDoc? comments m.1)

end SemanticIndex
