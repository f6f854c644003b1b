import SemanticIndex.Index.Resolution

/-!
# Copies

An independent copy of an index. Its nodes are numbered afresh in the order of a walk, its name
table is built anew, and its references and links are resolved again among its own nodes.
-/

namespace SemanticIndex

namespace Index

/-- The places of the nodes in a walk. -/
abbrev Places := Std.ExtTreeMap NodeId Nat

/-- The number that a node has in a copy: its place in a walk. -/
def renumber (places : Places) (id : NodeId) : NodeId := places.getD id places.size

/-- A node as it is in a copy. -/
def copyNode (places : Places) (n : Node) : Node :=
  { n with
    above := n.above.map (renumber places)
    children := n.children.map fun _ child => renumber places child
    target := none }

/-- The record of a file as it is in a copy, nothing bound. -/
def copyRecord (places : Places) (f : FileRecord) : FileRecord :=
  { f with
    top := renumber places f.top
    nodes := f.nodes.map (renumber places)
    references := f.references.map fun r =>
      { r with scope := renumber places r.scope, binding := .unbound } }

/-- The names of all nodes, listed in the order of a walk. -/
def rebuildNames (t : Index) : Index :=
  { t with
    names := t.walk.foldl
      (fun names id =>
        match t.node? id with
        | some n => names.addNode id n
        | none => names)
      .empty }

/-- An independent copy, its references and links just resolved. -/
def copy (t : Index) : Index :=
  let order := t.walk
  let places : Places := .ofList order.zipIdx
  let nodes := (order.filterMap t.node?).map (copyNode places)
  let bare : Index :=
    { options := t.options
      nodes := .ofList (nodes.zipIdx.map fun n => (n.2, n.1))
      nextId := order.length
      names := .empty
      files := t.files.map fun _ => copyRecord places
      registrations := t.registrations }
  bare.rebuildNames.resolve

end Index

end SemanticIndex
