import SemanticIndex.Source.Definition
import SemanticIndex.Text.Blank

/-!
# Documents

A parsed source file: its package clause, its definitions, its comments and its pragmas, and the
error that a parser reports for a file that has none.
-/

namespace SemanticIndex

/-- The clause that names a file's package, by a dotted path. -/
structure PackageClause where
  uri : String
  position : Position

/-- The segments of the path, without blanks around them and without empty ones. -/
def PackageClause.segments (p : PackageClause) : List String :=
  ((Text.split '.' p.uri).map Text.trim).filter (· != "")

/-- A comment. -/
structure Comment where
  text : String
  /-- Whether it documents what follows. -/
  doc : Bool
  position : Position

/-- An instruction to a tool. -/
structure Pragma where
  text : String
  position : Position

/-- A parsed source file. -/
structure Document where
  package : Option PackageClause
  definitions : List Definition
  comments : List Comment
  pragmas : List Pragma

/-- The path of the package that a file belongs to; empty if it belongs to none. -/
def Document.packagePath (d : Document) : List String :=
  match d.package with
  | some p => p.segments
  | none => []

/-- Why a text is not a source file. -/
structure ParseError where
  message : String
  position : Position

/-- The message and where the parser stood. -/
def ParseError.text (e : ParseError) : String := e.message ++ " at " ++ e.position.text

end SemanticIndex
