import SemanticIndex.Index.Basic

/-!
# Cursor Queries

What stands at a position of a file: a mention of a name, else the name of a field or a variable of
the innermost block, else that block.
-/

namespace SemanticIndex

/-- What stands at a position. -/
inductive Entity where
  /-- A block, of which the node is known. -/
  | node (id : NodeId)
  /-- The name of a field, of which this is one contribution. -/
  | field (id : NodeId) (name : String) (entry : FieldEntry)
  /-- The name of a variable. -/
  | var (id : NodeId) (entry : VariableEntry)
  /-- A mention of a name. -/
  | reference (reference : Reference)

namespace Index

/-- The spans that hold `p`, one for each of the nodes that have a block of the file around it. -/
def spansAround (t : Index) (path : SourcePath) (p : Position) (ids : List NodeId) :
    List (Span × NodeId) :=
  ids.filterMap fun id =>
    (t.node? id).bind fun n =>
      (((n.fragments.filter (·.file.same path)).filterMap Fragment.span).find? (·.contains p)).map
        (·, id)

/-- The node of the innermost block around a position of a file, else the file's top node. -/
def nodeAt? (t : Index) (path : SourcePath) (p : Position) : Option NodeId :=
  (t.file? path).map fun f =>
    match innermost? p (t.spansAround path p f.nodes) with
    | some (_, id) => id
    | none => f.top

/-- The field of a node whose name, as `path` writes it, covers a position. -/
def fieldAt? (n : Node) (path : SourcePath) (p : Position) : Option (String × FieldEntry) :=
  n.summary.fields.toList.findSome? fun (name, entries) =>
    (entries.find? fun e => e.file.same path && (Span.ofName e.position name).contains p).map
      (name, ·)

/-- The variable of a node whose name, as `path` writes it, covers a position. -/
def variableAt? (n : Node) (path : SourcePath) (p : Position) : Option VariableEntry :=
  n.summary.vars.values.find? fun v =>
    v.file.same path &&
      (Span.ofName v.declaration.position v.declaration.name).contains p

/-- What stands at a position of a file; nothing if the file is not indexed. -/
def entityAt? (t : Index) (path : SourcePath) (p : Position) : Option Entity :=
  match (t.referencesIn path).find? (·.mention.span.contains p) with
  | some r => some (.reference r)
  | none =>
    (t.nodeAt? path p).bind fun id =>
      (t.node? id).map fun n =>
        match fieldAt? n path p with
        | some (name, entry) => .field id name entry
        | none =>
          match variableAt? n path p with
          | some v => .var id v
          | none => .node id

end Index

end SemanticIndex
