import SemanticIndex.Index.Lookup

/-!
# Resolution

Binding the mentions of names. A name is looked for as a variable, from its scope upwards and last
on the common root, and if it is not marked as a variable's then as a node: below its scope, below
each node above that, and last among the children of the common root. Local names are not looked
for. A link is resolved like a name, from the scope around it, and never to itself.
-/

namespace SemanticIndex

namespace Index

/-- Every node may be answered. -/
def anyNode : NodeFilter := fun _ _ => true

/-- The variable that a name means from a scope, and the node that holds it. -/
def resolveVariable? (t : Index) (scope : NodeId) (name : String) :
    Option (NodeId × VariableEntry) :=
  let plain := variableName name
  (t.ancestors scope ++ [root]).findSome? fun id =>
    ((t.node? id).bind fun n => n.summary.vars[plain]?).map (id, ·)

/-- The node that a name means from a scope. Where the name leads is worked out once for all the
nodes above the scope. -/
def resolveName? (t : Index) (scope : NodeId) (name : String) (accept : NodeFilter) :
    Option NodeId :=
  let found := t.landings name accept
  ((t.ancestors scope).findSome? fun anchor => t.best? (t.landed anchor .below found)).or
    (t.best? (t.landed root .child found))

/-- Resolution is a look-up below the scope, below each node above that, and last among the
children of the common root. -/
theorem resolveName?_eq (t : Index) (scope : NodeId) (name : String) (accept : NodeFilter) :
    t.resolveName? scope name accept =
      ((t.ancestors scope).findSome? fun anchor => t.lookup? anchor name .below accept).or
        (t.lookup? root name .child accept) :=
  rfl

/-- What a mention in a scope is bound to. -/
def bindingOf (t : Index) (scope : NodeId) (m : Mention) : Binding :=
  if m.isLocal then
    .unbound
  else
    match t.resolveVariable? scope m.name with
    | some (owner, v) => .var owner v.declaration.name
    | none =>
      if m.marked then
        .unbound
      else
        match t.resolveName? scope m.name anyNode with
        | some id => .node id
        | none => .unbound

/-- What a mention in a scope stands for, found part by part: for a node it is looked only if there
is no variable and the mention is not marked as one. -/
def targetsOf (t : Index) (scope : NodeId) (m : Mention) : Targets :=
  if m.isLocal then
    (none, none)
  else
    let held := (t.resolveVariable? scope m.name).map fun (owner, v) => (owner, v.declaration.name)
    if held.isSome || m.marked then (none, held) else (t.resolveName? scope m.name anyNode, none)

/-- The parts that are found are never both there, and they are those of the binding. -/
theorem targetsOf_eq (t : Index) (scope : NodeId) (m : Mention) :
    t.targetsOf scope m = (t.bindingOf scope m).targets := by
  unfold targetsOf bindingOf
  split
  · rfl
  · cases t.resolveVariable? scope m.name with
    | some found => rfl
    | none =>
      cases m.marked with
      | true => rfl
      | false => cases t.resolveName? scope m.name anyNode <;> rfl

/-- The name that an expression is, if it is a bare name. -/
def bareName? : Value → Option String
  | .reference name _ => some name
  | _ => none

/-- The name of the node that a link stands for: the latest value of the most important link field
that has a bare name. -/
def linkName? (t : Index) (id : NodeId) : Option String :=
  (t.node? id).bind fun n =>
    t.options.linkFields.findSome? fun field =>
      (n.field? field).bind fun entry => bareName? entry.value

/-- The target of a node: what its link name means from the scope around it, and what it was if
the node has no link name. -/
def targetOf (t : Index) (id : NodeId) (n : Node) : Option NodeId :=
  match t.linkName? id with
  | none => n.target
  | some name => t.resolveName? (n.parent.getD id) name fun other _ => other != id

/-- The index with every reference bound and every link resolved. -/
def resolve (t : Index) : Index :=
  { t with
    nodes := t.nodes.map fun id n => { n with target := t.targetOf id n }
    files := t.files.map fun _ f =>
      { f with
        references := f.references.map fun r =>
          { r with binding := t.bindingOf r.scope r.mention } } }

/-- Binds some references one after the other. Those that are then neither bound nor local are
counted, from `count` on. -/
def bindAll (t : Index) (count : Nat) : List Reference → List Reference × Nat
  | [] => ([], count)
  | r :: rs =>
    let r := { r with binding := t.bindingOf r.scope r.mention }
    let (rs, count) :=
      t.bindAll (if !r.isResolved && !r.mention.isLocal then count + 1 else count) rs
    (r :: rs, count)

/-- The index with all resolved, and the number of references that are left unbound. -/
def resolveCounting (t : Index) : Index × Nat := (t.resolve, (t.bindAll 0 t.references).2)

end Index

end SemanticIndex
