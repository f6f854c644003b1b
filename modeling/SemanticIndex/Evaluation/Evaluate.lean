import SemanticIndex.Evaluation.Context
import SemanticIndex.Evaluation.Operators

/-!
# Evaluation

Evaluating values and definitions. A name means what the context binds it to, else the default of
the variable of that name in the index, evaluated where the variable is declared. Definitions are
expanded: conditionals to the branch that counts, loops to one copy of the body for each item,
instantiations to objects with the body of the template.

Evaluating a default and a template's body are expansions. They nest, and two things keep them
finite: an expansion that is in progress is not begun again, and no more than a given number nest.
What is not expanded stays as it is. The number of expansions that may still nest is the argument
on which evaluation recurs.
-/

namespace SemanticIndex

/-- How values and definitions are evaluated. -/
structure EvaluationOptions where
  zeroDivision : ZeroDivision := .zero
  /-- How many expansions may nest. -/
  maxDepth : Nat := 64
  deriving DecidableEq, Inhabited

/-- An expansion in progress. -/
inductive Expansion where
  /-- Of the default of a variable that a node holds. -/
  | var (owner : NodeId) (name : String)
  /-- Of the body of the template of a name. -/
  | template (name : String)
  deriving DecidableEq

/-! ### Values -/

/-- The value of a name, where at most `budget` expansions may begin inside each other and those
in `active` are in progress. -/
def nameValue? (policy : ZeroDivision) :
    Nat → List Expansion → Context → String → Option Value
  | 0, _, c, name => c.lookup? name
  | budget + 1, active, c, name =>
    (c.lookup? name).or <|
      c.index.bind fun t =>
        (t.resolveVariable? (c.scope?.getD Index.root) name).bind fun (owner, v) =>
          v.declaration.default.bind fun default =>
            let expansion := .var owner v.declaration.name
            if expansion ∈ active then
              none
            else
              some <| default.reduce policy <|
                nameValue? policy budget (expansion :: active) (.ofIndex t (some owner))

/-- The value of an expression. -/
def valueOf (policy : ZeroDivision) (budget : Nat) (active : List Expansion) (c : Context)
    (v : Value) : Value :=
  v.reduce policy (nameValue? policy budget active c)

/-! ### Definitions -/

section

variable (eval : Context → Value → Value) (instantiate : Context → Instantiation → Definition)

mutual

/-- What a definition expands to, and the context after it, given how to evaluate values and how
to expand instantiations. -/
def expandWith (c : Context) : Definition → List Definition × Context
  | .field f => ([.field { f with value := eval c f.value }], c)
  | .object name body span =>
    let name := if name.isReference then name else eval c name
    ([.object name (expandAllWith (c.enter (c.childScope? name.text)) body).1 span], c)
  | .var v =>
    match v.default with
    | none => ([], c)
    | some default => ([], c.define v.name (eval c default))
  | .conditional condition thenBody elseBody _ =>
    if (eval c condition).holds then expandAllWith c thenBody else expandAllWith c elseBody
  | .loop key value items body _ =>
    match eval c items with
    | .array items _ =>
      (items.zipIdx.flatMap fun (item, index) =>
        let round := (c.enter none).defineOption key (.int (Int64.ofNat index) .start)
        (expandAllWith (round.defineOption value item) body).1, c)
    | _ => ([], c)
  | .template name parameters body span => ([], c.defineTemplate ⟨name, parameters, body, span⟩)
  | .instantiation i => ([instantiate c i], c)

/-- What the definitions of a body expand to, each in the context after the one before it. -/
def expandAllWith (c : Context) : List Definition → List Definition × Context
  | [] => ([], c)
  | d :: ds =>
    let (out, c) := expandWith c d
    let (rest, c) := expandAllWith c ds
    (out ++ rest, c)

end

/-- The arguments of an instantiation, evaluated. -/
def argumentsOf (c : Context) (i : Instantiation) : List Field :=
  i.arguments.map fun a => { a with value := eval c a.value }

/-- Binds a parameter to the first argument of its name, else to its evaluated default, else not
at all. -/
def bindParameter (arguments : List Field) (c : Context) (p : Parameter) : Context :=
  match arguments.find? (·.name == p.name) with
  | some a => c.define p.name a.value
  | none =>
    match p.default with
    | some default => c.define p.name (eval c default)
    | none => c

end

/-- The object that an instantiation expands to. Its body is the template's, or the arguments
where the template is not known or may not be expanded. -/
def instantiate (policy : ZeroDivision) :
    Nat → List Expansion → Context → Instantiation → Definition
  | 0, active, c, i =>
    .object (.reference i.name i.span.start)
      ((argumentsOf (valueOf policy 0 active) c i).map .field) i.span
  | budget + 1, active, c, i =>
    let arguments := argumentsOf (valueOf policy (budget + 1) active) c i
    let body :=
      match c.template? i.template with
      | none => arguments.map .field
      | some template =>
        let expansion := .template template.name
        if expansion ∈ active then
          arguments.map .field
        else
          let active := expansion :: active
          let eval := valueOf policy budget active
          let inner := template.parameters.foldl (bindParameter eval arguments)
            (c.enter (c.childScope? i.name))
          (expandAllWith eval (instantiate policy budget active) inner template.body).1
    .object (.reference i.name i.span.start) body i.span

/-! ### Entry points -/

/-- The value of an expression in a context. -/
def evaluate (o : EvaluationOptions) (c : Context) (v : Value) : Value :=
  valueOf o.zeroDivision o.maxDepth [] c v

/-- What definitions expand to in a context, and the context after them. -/
def evaluateDefinitions (o : EvaluationOptions) (c : Context) (ds : List Definition) :
    List Definition × Context :=
  expandAllWith (valueOf o.zeroDivision o.maxDepth [])
    (instantiate o.zeroDivision o.maxDepth []) c ds

namespace Index

/-- The value of an expression as if it were written inside a node. -/
def evaluateAt (t : Index) (o : EvaluationOptions) (scope : NodeId) (v : Value) : Value :=
  evaluate o (.ofIndex t (some scope)) v

/-- What definitions expand to as if they were written inside a node. -/
def expandAt (t : Index) (o : EvaluationOptions) (scope : NodeId) (ds : List Definition) :
    List Definition :=
  (evaluateDefinitions o (.ofIndex t (some scope)) ds).1

/-- A summary with `f` applied to the value of each field entry and the result noted. -/
def noteValues (f : Value → Value) (s : Summary) : Summary :=
  { s with
    fields := s.fields.map fun _ entries =>
      entries.map fun e => { e with evaluated := some (f e.value) } }

/-- The index with the value of every field entry evaluated in its node and noted. -/
def reevaluate (t : Index) (o : EvaluationOptions) : Index :=
  { t with
    nodes := t.nodes.map fun id n =>
      { n with summary := noteValues (t.evaluateAt o id) n.summary } }

/-- The field entries of all nodes. -/
def fieldEntries (t : Index) : List FieldEntry :=
  t.nodes.values.flatMap fun n => n.summary.fields.values.flatten

end Index

end SemanticIndex
