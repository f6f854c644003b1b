import SemanticIndex.Source.Value

/-!
# Definitions

What a source file is made of: fields, objects, variables, conditionals, loops, templates and
instantiations of templates. Definitions nest; `Definition.members` flattens those of one body,
entering the branches of conditionals and the bodies of loops, since these only decide whether and
how often a definition counts, and staying out of objects, which are bodies of their own.
-/

namespace SemanticIndex

/-- `name = value`. -/
structure Field where
  name : String
  value : Value
  position : Position

/-- The declaration of a variable. -/
structure VariableDeclaration where
  name : String
  /-- The declared type, as written; empty if there is none. -/
  typeName : String
  /-- The value that the variable has unless another one is bound. -/
  default : Option Value
  /-- Whether it is declared constant. -/
  constant : Bool
  position : Position

/-- A parameter of a template. -/
structure Parameter where
  name : String
  default : Option Value
  position : Position

/-- `name = template { arguments }`: an object made from a template. -/
structure Instantiation where
  name : String
  template : String
  arguments : List Field
  span : Span

/-- A definition in a source file. -/
inductive Definition where
  /-- A field and its value. -/
  | field (field : Field)
  /-- An object. Its name is usually a bare name with sigils, but may be any expression. -/
  | object (name : Value) (body : List Definition) (span : Span)
  /-- A variable. -/
  | var (declaration : VariableDeclaration)
  /-- Definitions that count or not, as the condition turns out. -/
  | conditional (condition : Value) (thenBody elseBody : List Definition) (span : Span)
  /-- Definitions that count once for each item, whose index and value take the two names. -/
  | loop (key value : Option String) (items : Value) (body : List Definition) (span : Span)
  /-- A named list of definitions with parameters, to be instantiated elsewhere. -/
  | template (name : String) (parameters : List Parameter) (body : List Definition) (span : Span)
  /-- An object made from a template. -/
  | instantiation (instantiation : Instantiation)

/-- A named list of definitions with parameters. -/
structure Template where
  name : String
  parameters : List Parameter
  body : List Definition
  span : Span

namespace Definition

/-- Where the definition starts. -/
def position : Definition → Position
  | field f => f.position
  | object _ _ span => span.start
  | var v => v.position
  | conditional _ _ _ span => span.start
  | loop _ _ _ _ span => span.start
  | template _ _ _ span => span.start
  | instantiation i => i.span.start

/-- The name that the definition declares, sigils included. Conditionals and loops declare none. -/
def name? : Definition → Option String
  | field f => some f.name
  | object name _ _ => some name.text
  | var v => some v.name
  | template name _ _ _ => some name
  | instantiation i => some i.name
  | conditional .. | loop .. => none

/-- The span that the declared name covers. -/
def nameSpan? (d : Definition) : Option Span := d.name?.map (Span.ofName d.position)

/-- The names that a loop binds, the index's before the value's. -/
def loopNames (key value : Option String) : List String := key.toList ++ value.toList

/-! ### Equality -/

/-- Whether two fields are the same, positions included. -/
def sameField (a b : Field) : Bool :=
  a.name == b.name && a.value.same b.value && a.position == b.position

/-- Whether two parameters are the same, positions included. -/
def sameParameter (a b : Parameter) : Bool :=
  a.name == b.name && Value.sameOption a.default b.default && a.position == b.position

/-- Whether two lists agree item by item. -/
def sameItems {α : Type} (eq : α → α → Bool) : List α → List α → Bool
  | [], [] => true
  | x :: xs, y :: ys => eq x y && sameItems eq xs ys
  | _, _ => false

mutual

/-- Whether two definitions are the same. The positions of definitions count, those of the values
in them do not. -/
def same : Definition → Definition → Bool
  | field f, field g => sameField f g
  | object n b s, object n' b' s' => n.same n' && sameAll b b' && s == s'
  | var v, var w =>
    v.name == w.name && v.typeName == w.typeName && Value.sameOption v.default w.default &&
      v.constant == w.constant && v.position == w.position
  | conditional c t e s, conditional c' t' e' s' =>
    c.same c' && sameAll t t' && sameAll e e' && s == s'
  | loop k v i b s, loop k' v' i' b' s' =>
    k == k' && v == v' && i.same i' && sameAll b b' && s == s'
  | template n p b s, template n' p' b' s' =>
    n == n' && sameItems sameParameter p p' && sameAll b b' && s == s'
  | instantiation i, instantiation j =>
    i.name == j.name && i.template == j.template && sameItems sameField i.arguments j.arguments &&
      i.span == j.span
  | _, _ => false

/-- Whether two lists hold the same definitions in the same order. -/
def sameAll : List Definition → List Definition → Bool
  | [], [] => true
  | x :: xs, y :: ys => same x y && sameAll xs ys
  | _, _ => false

end

/-! ### Members -/

mutual

/-- A definition and, for a conditional or a loop, what its bodies hold, each with whether it is
conditional. -/
def withInner (conditionally : Bool) : Definition → List (Definition × Bool)
  | d@(conditional _ thenBody elseBody _) =>
    (d, conditionally) :: (members true thenBody ++ members true elseBody)
  | d@(loop _ _ _ body _) => (d, conditionally) :: members true body
  | d => [(d, conditionally)]

/-- The definitions of a body in source order, each with whether it is conditional: the body is,
or a conditional or a loop of the body encloses it. -/
def members (conditionally : Bool) : List Definition → List (Definition × Bool)
  | [] => []
  | d :: ds => withInner conditionally d ++ members conditionally ds

end

theorem members_eq_flatMap (conditionally : Bool) (ds : List Definition) :
    members conditionally ds = ds.flatMap (withInner conditionally) := by
  induction ds with
  | nil => simp [members]
  | cons d ds ih => simp [members, ih]

end Definition

end SemanticIndex
