import SemanticIndex.Source.Definition

/-!
# Mentions

A mention is one occurrence of a name in a value. Inside a loop or a template some names belong to
the construct itself; a mention of such a name is local and is never looked for in the index.

`Definition.mentions` lists the mentions of a definition in source order, each with the objects
that enclose it, outermost first and by their declared names.
-/

namespace SemanticIndex

/-- One occurrence of a name in a value. -/
structure Mention where
  /-- The name, without the mark of a variable. -/
  name : String
  position : Position
  /-- Whether the name is marked as a variable's. -/
  marked : Bool
  /-- Whether the name belongs to an enclosing loop or template. -/
  isLocal : Bool
  deriving DecidableEq

/-- The span of the mention, its mark included. The width is counted in 32 bits. -/
def Mention.span (m : Mention) : Span :=
  Span.ofWidth m.position ((m.name.length + if m.marked then 1 else 0) % UInt32.size)

/-- The first of the names that a dotted name is made of. -/
def nameHead (name : String) : String := Text.upTo '.' name

namespace Value

/-- The mention that a value is, where the names `locals` are local; the values inside it are not
looked at. -/
def mention? (locals : List String) : Value → Option Mention
  | reference name p => some ⟨name, p, false, locals.contains (nameHead name)⟩
  | atReference name p =>
    some ⟨variableName name, p, true, locals.contains (nameHead (variableName name))⟩
  | _ => none

/-- The mentions in a value. -/
def mentions (locals : List String) (v : Value) : List Mention :=
  v.parts.filterMap (mention? locals)

/-- The mentions in an optional value. -/
def mentionsOption (locals : List String) : Option Value → List Mention
  | none => []
  | some v => mentions locals v

end Value

/-- A mention together with the declared names of the objects around it. -/
abbrev ScopedMention := List String × Mention

namespace Definition

/-- The mentions in the values of some fields. -/
def fieldMentions (locals : List String) (fields : List Field) : List Mention :=
  fields.flatMap fun f => f.value.mentions locals

/-- The mentions in the defaults of some parameters. -/
def parameterMentions (locals : List String) (parameters : List Parameter) : List Mention :=
  parameters.flatMap fun p => Value.mentionsOption locals p.default

mutual

/-- The mentions of a definition in a template's body. The body declares nothing by itself, so
all of them stand in the scope of the template; neither the names of objects nor templates inside
it are looked at. -/
def bodyMentions (locals : List String) : Definition → List Mention
  | field f => f.value.mentions locals
  | object _ body _ => bodyMentionsAll locals body
  | var v => Value.mentionsOption locals v.default
  | conditional condition thenBody elseBody _ =>
    condition.mentions locals ++ bodyMentionsAll locals thenBody ++ bodyMentionsAll locals elseBody
  | loop key value items body _ =>
    items.mentions locals ++ bodyMentionsAll (locals ++ loopNames key value) body
  | template .. => []
  | instantiation i => fieldMentions locals i.arguments

/-- The mentions of the definitions of a template's body. -/
def bodyMentionsAll (locals : List String) : List Definition → List Mention
  | [] => []
  | d :: ds => bodyMentions locals d ++ bodyMentionsAll locals ds

end

mutual

/-- The mentions of a definition that stands inside the objects `path`. -/
def mentions (path : List String) (locals : List String) : Definition → List ScopedMention
  | field f => (f.value.mentions locals).map (path, ·)
  | object name body _ =>
    (if name.isReference then [] else (name.mentions locals).map (path, ·)) ++
      mentionsAll (path ++ [name.text]) locals body
  | var v => (Value.mentionsOption locals v.default).map (path, ·)
  | conditional condition thenBody elseBody _ =>
    (condition.mentions locals).map (path, ·) ++ mentionsAll path locals thenBody ++
      mentionsAll path locals elseBody
  | loop key value items body _ =>
    (items.mentions locals).map (path, ·) ++
      mentionsAll path (locals ++ loopNames key value) body
  | template _ parameters body _ =>
    (parameterMentions locals parameters).map (path, ·) ++
      (bodyMentionsAll (locals ++ parameters.map Parameter.name) body).map (path, ·)
  | instantiation i => (fieldMentions locals i.arguments).map (path, ·)

/-- The mentions of the definitions of a body inside the objects `path`. -/
def mentionsAll (path : List String) (locals : List String) :
    List Definition → List ScopedMention
  | [] => []
  | d :: ds => mentions path locals d ++ mentionsAll path locals ds

end

end Definition

end SemanticIndex
