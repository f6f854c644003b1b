import SemanticIndex.Index.Fragment
import SemanticIndex.Source.Mention

/-!
# Outlines

The outline of a document is all that it contributes to an index, worked out before any index is
looked at: the blocks that become fragments of nodes, the mentions of names, the templates, and the
pragmas that belong to no block.

Which branch of a conditional will be taken is not known, so an outline enters all of them and
marks what it finds there as conditional.
-/

namespace SemanticIndex

/-- The innermost of the spans that hold `p`, with what is attached to it; of spans equally far
inside the last. -/
def innermost? {α : Type} (p : Position) (spans : List (Span × α)) : Option (Span × α) :=
  (spans.filter fun s => s.1.contains p).foldl
    (fun best s =>
      match best with
      | none => some s
      | some b => if s.1.isInner b.1 then some s else some b)
    none

/-- A block of a document: the fragment that it contributes, and the declared names of the
objects that lead to it, its own last. -/
structure Block where
  path : List String
  fragment : Fragment

/-- The fragment of an object. -/
def Fragment.ofObject (file : SourcePath) (comments : List Comment) (conditional : Bool)
    (declaredName : String) (body : List Definition) (span : Span) : Fragment where
  file
  declaredName
  definitions := body
  isObject := true
  span := some span
  doc := docBefore? comments span.start
  docs := memberDocs comments body
  pragmas := []
  conditional
  template := none

/-- The fragment of an instantiation: its arguments, as fields. -/
def Fragment.ofInstantiation (file : SourcePath) (comments : List Comment) (conditional : Bool)
    (i : Instantiation) : Fragment where
  file
  declaredName := i.name
  definitions := i.arguments.map .field
  isObject := true
  span := some i.span
  doc := docBefore? comments i.span.start
  docs := ∅
  pragmas := []
  conditional
  template := some i.template

/-- The fragment of a whole file, declared by the last segment of its package path. -/
def Fragment.ofDocument (file : SourcePath) (d : Document) : Fragment where
  file
  declaredName := d.packagePath.getLast?.getD ""
  definitions := d.definitions
  isObject := false
  span := none
  doc := d.package.bind fun p => docBefore? d.comments p.position
  docs := memberDocs d.comments d.definitions
  pragmas := []
  conditional := false
  template := none

namespace Definition

section

variable (file : SourcePath) (comments : List Comment)

mutual

/-- The blocks of a definition that stands inside the objects `path`, inner before outer. -/
def blocks (path : List String) (conditionally : Bool) : Definition → List Block
  | object name body span =>
    blocksAll (path ++ [name.text]) conditionally body ++
      [⟨path ++ [name.text],
        Fragment.ofObject file comments conditionally name.text body span⟩]
  | conditional _ thenBody elseBody _ =>
    blocksAll path true thenBody ++ blocksAll path true elseBody
  | loop _ _ _ body _ => blocksAll path true body
  | instantiation i =>
    [⟨path ++ [i.name], Fragment.ofInstantiation file comments conditionally i⟩]
  | field _ | var _ | template .. => []

/-- The blocks of the definitions of a body inside the objects `path`. -/
def blocksAll (path : List String) (conditionally : Bool) : List Definition → List Block
  | [] => []
  | d :: ds => blocks path conditionally d ++ blocksAll path conditionally ds

end

end

mutual

/-- The templates that a definition registers, in source order. What a template's body holds is
registered by no one. -/
def templates : Definition → List Template
  | object _ body _ => templatesAll body
  | conditional _ thenBody elseBody _ => templatesAll thenBody ++ templatesAll elseBody
  | loop _ _ _ body _ => templatesAll body
  | template name parameters body span => [⟨name, parameters, body, span⟩]
  | field _ | var _ | instantiation _ => []

/-- The templates that the definitions of a body register. -/
def templatesAll : List Definition → List Template
  | [] => []
  | d :: ds => templates d ++ templatesAll ds

end

end Definition

/-- What a document contributes to an index. -/
structure Outline where
  /-- The path of the document's package; empty if it has none. -/
  packagePath : List String
  /-- The blocks, inner before outer, the one of the whole file last. -/
  blocks : List Block
  /-- The mentions of names, in source order. -/
  mentions : List ScopedMention
  /-- The templates, in source order. -/
  templates : List Template
  /-- The pragmas that no object and no instantiation encloses. -/
  pragmas : List Pragma

namespace Outline

/-- The spans of the blocks that have one, each with the place of its block in the list. -/
def spans (blocks : List Block) : List (Span × Nat) :=
  blocks.zipIdx.filterMap fun b => b.1.fragment.span.map (·, b.2)

/-- The pragmas, each with the place in the list of the innermost block around it. -/
def homes (blocks : List Block) (pragmas : List Pragma) : List (Pragma × Option Nat) :=
  let spans := spans blocks
  pragmas.map fun p => (p, (innermost? p.position spans).map Prod.snd)

/-- Gives each block the pragmas of which it is the innermost one. -/
def attachPragmas (blocks : List Block) (homes : List (Pragma × Option Nat)) : List Block :=
  blocks.zipIdx.map fun b =>
    { b.1 with
      fragment :=
        { b.1.fragment with
          pragmas := (homes.filter fun h => h.2 == some b.2).map fun h => h.1.text } }

end Outline

/-- The outline of a document that is the content of `file`. -/
def Document.outline (file : SourcePath) (d : Document) : Outline :=
  let blocks :=
    Definition.blocksAll file d.comments [] false d.definitions ++
      [⟨[], Fragment.ofDocument file d⟩]
  let homes := Outline.homes blocks d.pragmas
  { packagePath := d.packagePath
    blocks := Outline.attachPragmas blocks homes
    mentions := Definition.mentionsAll [] [] d.definitions
    templates := Definition.templatesAll d.definitions
    pragmas := (homes.filter fun h => h.2.isNone).map Prod.fst }

end SemanticIndex
