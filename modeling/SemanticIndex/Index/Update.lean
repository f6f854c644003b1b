import SemanticIndex.Index.Basic

/-!
# Adding and Removing Files

A file is added by laying its outline over the forest: the nodes on the way to each block are
created where they are missing, the fragments are put on them, and every node that the file has
touched is summed up anew. It is removed by taking its fragments away, summing up again, and
pruning what nothing keeps any longer. Adding a file that is indexed removes it first.
-/

namespace SemanticIndex

namespace Index

/-! ### Single nodes -/

/-- Applies `f` to a node. -/
def modifyNode (t : Index) (id : NodeId) (f : Node → Node) : Index :=
  { t with nodes := t.nodes.modify id f }

/-- Adds a node under the next number. -/
def addNode (t : Index) (n : Node) : Index :=
  { t with
    nodes := t.nodes.insert t.nextId n
    nextId := t.nextId + 1
    names := t.names.addNode t.nextId n }

/-- Takes a node and its names away. -/
def dropNode (t : Index) (id : NodeId) (n : Node) : Index :=
  { t with
    nodes := t.nodes.erase id
    names := t.names.removeNode id n }

/-- Modifying a node changes that node only. -/
theorem node?_modifyNode (t : Index) (id other : NodeId) (f : Node → Node) :
    (t.modifyNode id f).node? other =
      if other = id then (t.node? other).map f else t.node? other := by
  by_cases h : id = other
  · simp [modifyNode, node?, h]
  · simp [modifyNode, node?, Std.ExtTreeMap.getElem?_modify, h, Ne.symm h]

/-- A node that is added stands under the next number. -/
theorem node?_addNode (t : Index) (n : Node) (other : NodeId) :
    (t.addNode n).node? other = if other = t.nextId then some n else t.node? other := by
  by_cases h : t.nextId = other
  · simp [addNode, node?, h]
  · simp [addNode, node?, Std.ExtTreeMap.getElem?_insert, h, Ne.symm h]

/-- A node that is dropped is gone, and all others stay. -/
theorem node?_dropNode (t : Index) (id : NodeId) (n : Node) (other : NodeId) :
    (t.dropNode id n).node? other = if other = id then none else t.node? other := by
  by_cases h : id = other
  · simp [dropNode, node?, h]
  · simp [dropNode, node?, Std.ExtTreeMap.getElem?_erase, h, Ne.symm h]

/-- The child of `parent` declared as `declared`, made if there is none. -/
def ensureChild (t : Index) (parent : NodeId) (declared : String) : Index × NodeId :=
  match t.child? parent declared with
  | some child => (t, child)
  | none =>
    let name := nodeName declared
    let child := t.nextId
    ((t.addNode (.new name declared (t.ancestors parent))).modifyNode parent fun n =>
      { n with children := n.children.insert name child }, child)

/-- The nodes on the way from `id` along some declared names, made where they are missing. -/
def ensurePath (t : Index) (id : NodeId) : List String → Index × List NodeId
  | [] => (t, [])
  | name :: names =>
    let (t, child) := t.ensureChild id name
    let (t, below) := t.ensurePath child names
    (t, child :: below)

/-- Works out anew what a node's fragments determine, its entry in the name table included. -/
def refresh (t : Index) (id : NodeId) : Index :=
  match t.node? id with
  | none => t
  | some n =>
    let m := n.refreshed t.options
    { t with
      nodes := t.nodes.insert id m
      names := t.names.rename id n.name n.realName m.realName }

/-- Takes a node away if it has a parent, no fragments and no children. -/
def dropIfBare (t : Index) (id : NodeId) : Index :=
  match t.node? id with
  | none => t
  | some n =>
    match n.parent with
    | none => t
    | some parent =>
      if n.isBare then
        (t.dropNode id n).modifyNode parent fun p => { p with children := p.children.erase n.name }
      else
        t

/-- Takes away a node that nothing keeps, and then what above it nothing keeps any longer. -/
def prune (t : Index) (id : NodeId) : Index := (t.ancestors id).foldl dropIfBare t

/-! ### Removing -/

/-- A file's root, taken away if it is empty. -/
def dropRoot (t : Index) (f : FileRecord) : Index :=
  if f.isolated then
    match t.node? f.top with
    | some n => if n.isBare then t.dropNode f.top n else t
    | none => t
  else
    t

/-- A binding, unless what it leads to is gone. -/
def keepBinding (t : Index) : Binding → Binding
  | .unbound => .unbound
  | .node id => if t.isLive id then .node id else .unbound
  | .var owner name =>
    match t.node? owner with
    | some n => if n.summary.vars.contains name then .var owner name else .unbound
    | none => .unbound

/-- The parts of what a mention stands for, each unless what it leads to is gone. -/
def keepTargets (t : Index) (targets : Targets) : Targets :=
  (targets.1.filter t.isLive,
    targets.2.filter fun (owner, name) => (t.node? owner).any (·.summary.vars.contains name))

/-- A binding that is kept is kept part by part. -/
theorem keepTargets_eq (t : Index) (b : Binding) :
    t.keepTargets b.targets = (t.keepBinding b).targets := by
  cases b with
  | unbound => rfl
  | node id =>
    cases hlive : t.isLive id <;>
      simp [keepBinding, keepTargets, Binding.targets, Option.filter, hlive]
  | var owner name =>
    rw [keepBinding]
    cases hn : t.node? owner with
    | none => simp [keepTargets, Binding.targets, hn]
    | some n =>
      cases hvar : n.summary.vars.contains name <;>
        simp [keepTargets, Binding.targets, Option.filter, hn, hvar]

/-- Unbinds the references, and clears the targets of links, that lead to what is gone. -/
def clearDangling (t : Index) : Index :=
  { t with
    nodes := t.nodes.map fun _ n => { n with target := n.target.filter t.isLive }
    files := t.files.map fun _ f =>
      { f with
        references := f.references.map fun r => { r with binding := t.keepBinding r.binding } } }

/-- The nodes of a file, those farthest from their root first. -/
def deepestFirst (t : Index) (ids : List NodeId) : List NodeId :=
  (sort (fun a b => b.2 ≤ a.2) (ids.map fun id => (id, (t.ancestors id).length))).map Prod.fst

/-- Takes away the fragments of a file from some nodes. -/
def dropFragments (t : Index) (path : SourcePath) (ids : List NodeId) : Index :=
  ids.foldl
    (fun t id => t.modifyNode id fun n =>
      { n with fragments := n.fragments.filter fun f => !f.file.same path })
    t

/-- The index without what a file has contributed. -/
def withdraw (t : Index) (f : FileRecord) : Index :=
  let t :=
    { t with
      files := t.files.erase f.path.components
      registrations := t.registrations.filter fun r => !r.1.same f.path }
  let t := t.dropFragments f.path f.nodes
  let t := f.nodes.foldl refresh t
  let t := (t.deepestFirst f.nodes).foldl prune t
  (t.dropRoot f).clearDangling

/-- The index without a file; unchanged if the file is not indexed. -/
def remove (t : Index) (path : SourcePath) : Index :=
  match t.file? path with
  | some f => t.withdraw f
  | none => t

/-! ### Adding -/

/-- A list with those of `new` at its end that it does not hold. -/
def touch (ids new : List NodeId) : List NodeId :=
  new.foldl (fun ids id => if id ∈ ids then ids else ids ++ [id]) ids

/-- The node to which a file belongs, made if it is missing, and the nodes that lead to it. A file
without a package gets a root of its own. -/
def openTop (t : Index) (packagePath : List String) : Index × NodeId × List NodeId :=
  match packagePath with
  | [] => (t.addNode (.new "" "" []), t.nextId, [t.nextId])
  | names =>
    let (t, ids) := t.ensurePath root names
    (t, ids.getLast?.getD root, ids)

/-- Puts the fragment of a block on its node, the nodes that lead to it made where they are
missing. `ids` are the nodes that the file has touched so far. -/
def place (top : NodeId) (state : Index × List NodeId) (b : Block) : Index × List NodeId :=
  let (t, ids) := state
  let (t, below) := t.ensurePath top b.path
  (t.modifyNode (below.getLast?.getD top) fun n =>
    { n with fragments := n.fragments ++ [b.fragment] }, touch ids below)

/-- The reference that a mention becomes, not yet bound. -/
def referenceOf (t : Index) (file : SourcePath) (top : NodeId) (m : ScopedMention) : Reference where
  mention := m.2
  file
  scope := (t.follow? top m.1).getD top
  binding := .unbound

/-- The index with the outline of a file that is not indexed. -/
def contribute (t : Index) (path : SourcePath) (o : Outline) : Index :=
  let (t, top, ids) := t.openTop o.packagePath
  let (t, ids) := o.blocks.foldl (place top) (t, ids)
  let t := ids.foldl refresh t
  let record : FileRecord :=
    { path
      top
      isolated := o.packagePath.isEmpty
      nodes := ids
      references := o.mentions.map (t.referenceOf path top)
      pragmas := o.pragmas }
  { t with
    files := t.files.insert path.components record
    registrations := t.registrations ++ o.templates.map (path, ·) }

/-- The index with a document as the content of a file, in place of what the file held before. -/
def add (t : Index) (path : SourcePath) (d : Document) : Index :=
  (t.remove path).contribute path (d.outline path)

end Index

end SemanticIndex
