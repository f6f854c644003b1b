import SemanticIndex.Index.Fragment
import SemanticIndex.Index.Options

/-!
# Nodes

A node is a place in the namespace: a segment of a package path, a declared object, or a root. It
holds the fragments that files contribute to it and a summary of them. The summary is worked out
from the fragments alone, in their order; what evaluation finds out about a field is noted in the
summary later on and is lost when the summary is renewed.
-/

namespace SemanticIndex

/-- Names a node within one index. A number is used once. -/
abbrev NodeId := Nat

/-- One contribution to a field. -/
structure FieldEntry where
  file : SourcePath
  value : Value
  position : Position
  /-- Whether the field, or the block that holds it, is conditional. -/
  conditional : Bool
  /-- What the value was last evaluated to. -/
  evaluated : Option Value

/-- A variable held on a node. -/
structure VariableEntry where
  file : SourcePath
  /-- The documentation of the variable. -/
  doc : Option String
  declaration : VariableDeclaration

/-- What a node's fragments amount to. -/
structure Summary where
  /-- The documentation of the fragments, one after the other. -/
  doc : String
  /-- The singled-out fields and the template, as texts. -/
  metadata : Std.ExtTreeMap String String
  pragmas : List String
  /-- The variables by name; of several declarations the last. -/
  vars : Std.ExtTreeMap String VariableEntry
  /-- All contributions to each field, in the order of the fragments. -/
  fields : Std.ExtTreeMap String (List FieldEntry)
  /-- Whether there are fragments and all of them are conditional. -/
  conditional : Bool

/-- A place in the namespace. -/
structure Node where
  /-- The name without sigils; empty for a root. -/
  name : String
  /-- The name as it is declared. -/
  realName : String
  /-- The nodes above it, the nearest first; a root has none. -/
  above : List NodeId
  /-- The children by name. -/
  children : Std.ExtTreeMap String NodeId
  fragments : List Fragment
  summary : Summary
  /-- For a link, the node that it stands for. -/
  target : Option NodeId

namespace Summary

/-- The metadata key of the template of an instantiation. -/
def templateKey : String := "Template"

/-- The metadata that a member of a block contributes. -/
def memberMetadata? (options : IndexOptions) : Definition → Option (String × String)
  | .field f => (options.metadataKey? f.name).map (·, f.value.text)
  | _ => none

/-- The metadata that a fragment contributes: its template, then its singled-out fields. -/
def fragmentMetadata (options : IndexOptions) (f : Fragment) : List (String × String) :=
  f.template.toList.map (templateKey, ·) ++
    f.members.filterMap fun m => memberMetadata? options m.1

/-- The field entries that a fragment contributes, with their names. -/
def fragmentFields (f : Fragment) : List (String × FieldEntry) :=
  f.members.filterMap fun m =>
    match m.1 with
    | .field d => some (d.name, ⟨f.file, d.value, d.position, m.2, none⟩)
    | _ => none

/-- The variables that a fragment contributes, with their names. -/
def fragmentVariables (f : Fragment) : List (String × VariableEntry) :=
  f.members.filterMap fun m =>
    match m.1 with
    | .var v => some (v.name, ⟨f.file, f.docs[v.name]?, v⟩)
    | _ => none

/-- The summary of some fragments. -/
def ofFragments (options : IndexOptions) (fragments : List Fragment) : Summary where
  doc := "\n".intercalate ((fragments.filterMap Fragment.doc).filter (· != ""))
  metadata := .ofList (fragments.flatMap (fragmentMetadata options))
  pragmas := fragments.flatMap Fragment.pragmas
  vars := .ofList (fragments.flatMap fragmentVariables)
  fields := gather (fragments.flatMap fragmentFields)
  conditional := !fragments.isEmpty && fragments.all Fragment.conditional

/-- The latest contribution to a field. -/
def field? (s : Summary) (name : String) : Option FieldEntry :=
  s.fields[name]?.bind List.getLast?

end Summary

namespace Node

/-- A node without fragments and children. -/
def new (name realName : String) (above : List NodeId) : Node where
  name
  realName
  above
  children := ∅
  fragments := []
  summary := .ofFragments {} []
  target := none

/-- The node right above it. -/
def parent (n : Node) : Option NodeId := n.above.head?

/-- A root has nothing above it. -/
def isRoot (n : Node) : Bool := n.above.isEmpty

/-- Whether some block other than a whole file declares the node. -/
def isObject (n : Node) : Bool := n.fragments.any Fragment.isObject

/-- Whether nothing keeps the node in the namespace. -/
def isBare (n : Node) : Bool := n.fragments.isEmpty && n.children.isEmpty

/-- The child declared as `declared`. -/
def child? (n : Node) (declared : String) : Option NodeId := n.children[nodeName declared]?

/-- The latest contribution to a field. -/
def field? (n : Node) (name : String) : Option FieldEntry := n.summary.field? name

/-- Whether a file contributes to the node. -/
def hasFragmentFrom (n : Node) (file : SourcePath) : Bool := n.fragments.any (·.file.same file)

/-- The first declared name that differs from the plain name, else the plain name. -/
def declaredRealName (n : Node) : String :=
  ((n.fragments.map Fragment.declaredName).find? fun d => d != "" && d != n.name).getD n.name

/-- Whether some fragment gives a link field a bare name. -/
def isLink (options : IndexOptions) (n : Node) : Bool :=
  n.fragments.any fun f => f.members.any fun m =>
    match m.1 with
    | .field d => options.isLinkField d.name && d.value.isReference
    | _ => false

/-- The node with everything that its fragments determine worked out anew. A node that no fragment
makes a link has no target. -/
def refreshed (options : IndexOptions) (n : Node) : Node :=
  { n with
    realName := n.declaredRealName
    summary := .ofFragments options n.fragments
    target := if n.isLink options then n.target else none }

end Node

end SemanticIndex
