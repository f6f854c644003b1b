import SemanticIndex.Index.NameTable
import SemanticIndex.Index.Outline

/-!
# The Index

The semantic index of a set of files: a forest of nodes, the table of their names, a record of each
file, and the registrations of templates. One root stands for the common
namespace; every file without a package has a root of its own.

Node numbers are handed out in increasing order and never again, so a parent's number is below its
children's; this bounds every walk down (`Index.preorder`).
-/

namespace SemanticIndex

/-- What a mention stands for. -/
inductive Binding where
  /-- Nothing that is known. -/
  | unbound
  /-- A node. -/
  | node (id : NodeId)
  /-- The variable that a node holds under a name. -/
  | var (owner : NodeId) (name : String)
  deriving DecidableEq

/-- What a mention stands for in two parts, a node and a variable with the node that holds it. -/
abbrev Targets := Option NodeId × Option (NodeId × String)

/-- The two parts of a binding, of which one at most is there. -/
def Binding.targets : Binding → Targets
  | .unbound => (none, none)
  | .node id => (some id, none)
  | .var owner name => (none, some (owner, name))

/-- A mention in an indexed file. -/
structure Reference where
  mention : Mention
  file : SourcePath
  /-- The node whose definitions hold the mention. -/
  scope : NodeId
  binding : Binding

namespace Reference

/-- Whether the reference is bound. -/
def isResolved (r : Reference) : Bool := r.binding != .unbound

/-- The node that the reference is bound to. -/
def target? (r : Reference) : Option NodeId :=
  match r.binding with
  | .node id => some id
  | _ => none

end Reference

/-- What the index remembers of one file. -/
structure FileRecord where
  path : SourcePath
  /-- The node of the file's package, or the file's own root. -/
  top : NodeId
  /-- Whether the file has a root of its own. -/
  isolated : Bool
  /-- The nodes on which the file has left something, in the order in which it came to them. -/
  nodes : List NodeId
  references : List Reference
  /-- The pragmas that belong to no block. -/
  pragmas : List Pragma

/-- The semantic index of a set of files. -/
structure Index where
  options : IndexOptions
  nodes : Std.ExtTreeMap NodeId Node
  /-- The number of the next new node. -/
  nextId : NodeId
  names : NameTable
  /-- The files, by the components of their paths. -/
  files : Std.ExtTreeMap (List PathComponent) FileRecord
  /-- The templates with their files, in the order in which they were registered. -/
  registrations : List (SourcePath × Template)

namespace Index

/-- The root of the common namespace. -/
def root : NodeId := 0

/-- The index of no files. -/
def empty (options : IndexOptions) : Index where
  options
  nodes := Std.ExtTreeMap.insert ∅ root (.new "" "" [])
  nextId := root + 1
  names := NameTable.empty.addNode root (.new "" "" [])
  files := ∅
  registrations := []

/-! ### Nodes -/

/-- The node with a number, unless it is gone. -/
def node? (t : Index) (id : NodeId) : Option Node := t.nodes[id]?

/-- Whether a number names a node of the index. -/
def isLive (t : Index) (id : NodeId) : Bool := (t.node? id).isSome

/-- Number of nodes. -/
def size (t : Index) : Nat := t.nodes.size

/-- The parent of a node. -/
def parent? (t : Index) (id : NodeId) : Option NodeId := (t.node? id).bind Node.parent

/-- The child of a node declared as `declared`. -/
def child? (t : Index) (id : NodeId) (declared : String) : Option NodeId :=
  (t.node? id).bind (·.child? declared)

/-- The node reached from `id` by going from child to child along some declared names. -/
def follow? (t : Index) (id : NodeId) : List String → Option NodeId
  | [] => some id
  | name :: names => (t.child? id name).bind (t.follow? · names)

/-- A node and everything above it, the nearest first; nothing if the node is gone. -/
def ancestors (t : Index) (id : NodeId) : List NodeId :=
  match t.node? id with
  | some n => id :: n.above
  | none => []

/-- Whether `top` lies strictly above `id`. -/
def isBelow (t : Index) (id top : NodeId) : Bool := (t.ancestors id).tail.contains top

/-- The names on the way from the root of `id` down to it, the root's not included. -/
def pathNames (t : Index) (id : NodeId) : List String :=
  (((t.ancestors id).filterMap t.node?).filter fun n => !n.isRoot).reverse.map Node.name

/-- The dotted path of a node below its root. -/
def path (t : Index) (id : NodeId) : String := ".".intercalate (t.pathNames id)

/-- The nodes from `id` downwards with their depth, parents before children and children by name,
at most `bound` levels of them. -/
def chainDown (t : Index) : Nat → NodeId → Nat → List (NodeId × Nat)
  | 0, _, _ => []
  | bound + 1, id, depth =>
    match t.node? id with
    | none => []
    | some n =>
      (id, depth) :: n.children.values.flatMap fun child => t.chainDown bound child (depth + 1)

/-! ### Files -/

/-- The record of a file. -/
def file? (t : Index) (path : SourcePath) : Option FileRecord := t.files[path.components]?

/-- Whether a file is indexed. -/
def hasFile (t : Index) (path : SourcePath) : Bool := (t.file? path).isSome

/-- The files with a root of their own, in the order of their paths. -/
def isolatedFiles (t : Index) : List FileRecord := t.files.values.filter FileRecord.isolated

/-- The file of which a node is the own root. -/
def fileOfRoot? (t : Index) (id : NodeId) : Option FileRecord :=
  t.files.values.find? fun f => f.isolated && f.top == id

/-- Every node with its depth: those of the common namespace, then those of each isolated file. -/
def preorder (t : Index) : List (NodeId × Nat) :=
  (root :: t.isolatedFiles.map FileRecord.top).flatMap fun r => t.chainDown t.nextId r 0

/-- Every node, in the order of `preorder`. -/
def walk (t : Index) : List NodeId := t.preorder.map Prod.fst

/-- The references of a file, in source order. -/
def referencesIn (t : Index) (path : SourcePath) : List Reference :=
  match t.file? path with
  | some f => f.references
  | none => []

/-- All references, the files in the order of their paths. -/
def references (t : Index) : List Reference := t.files.values.flatMap FileRecord.references

/-- The references that are bound to a node. -/
def referencesTo (t : Index) (id : NodeId) : List Reference :=
  t.references.filter fun r => r.target? == some id

/-- The registrations of each template name. -/
def templatesByName (t : Index) : Std.ExtTreeMap String (List (SourcePath × Template)) :=
  gather (t.registrations.map fun r => (r.2.name, r))

/-- The latest registration of a template. -/
def template? (t : Index) (name : String) : Option (SourcePath × Template) :=
  (t.registrations.filter fun r => r.2.name == name).getLast?

end Index

end SemanticIndex
