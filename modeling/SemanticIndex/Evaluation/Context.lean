import SemanticIndex.Index.Resolution

/-!
# Evaluation Contexts

The names that are bound while something is evaluated. A context is a stack of frames, one for
each object, loop round and template body that is being evaluated, over an index or over nothing.
Bindings of the frames are apart from the index: they are looked at first and never stored in it.
-/

namespace SemanticIndex

/-- What one object, loop round or template body binds. -/
structure Frame where
  bindings : Std.ExtTreeMap String Value
  templates : Std.ExtTreeMap String Template
  /-- The node that what is evaluated here stands for. -/
  scope : Option NodeId

/-- A frame without bindings. -/
def Frame.empty (scope : Option NodeId) : Frame := ⟨∅, ∅, scope⟩

/-- The names bound while something is evaluated. -/
structure Context where
  /-- The index to fall back on. -/
  index : Option Index
  /-- The frame in which new names are bound. -/
  inner : Frame
  /-- The frames around it, the nearest first. -/
  outer : List Frame

namespace Context

/-- No bindings and no index. -/
def bare : Context := ⟨none, .empty none, []⟩

/-- No bindings over an index, in the scope of a node if one is given. -/
def ofIndex (t : Index) (scope : Option NodeId) : Context := ⟨some t, .empty scope, []⟩

/-- All frames, the innermost first. -/
def frames (c : Context) : List Frame := c.inner :: c.outer

/-- The context of something inside, which has a scope of its own if one is given. -/
def enter (c : Context) (scope : Option NodeId) : Context := ⟨c.index, .empty scope, c.frames⟩

/-- Binds a name in the innermost frame. -/
def define (c : Context) (name : String) (v : Value) : Context :=
  { c with
    inner := { c.inner with bindings := c.inner.bindings.insert (variableName name) v } }

/-- Binds a name if there is one. -/
def defineOption (c : Context) (name : Option String) (v : Value) : Context :=
  match name with
  | none => c
  | some name => c.define name v

/-- Makes a template known in the innermost frame. -/
def defineTemplate (c : Context) (template : Template) : Context :=
  { c with
    inner := { c.inner with templates := c.inner.templates.insert template.name template } }

/-- The value that the nearest frame binds to a name. -/
def lookup? (c : Context) (name : String) : Option Value :=
  let plain := variableName name
  c.frames.findSome? fun f => f.bindings[plain]?

/-- The template of a name in the nearest frame that knows it, else in the index. -/
def template? (c : Context) (name : String) : Option Template :=
  (c.frames.findSome? fun f => f.templates[name]?).or
    (c.index.bind fun t => (t.template? name).map Prod.snd)

/-- The scope of the nearest frame that has one. -/
def scope? (c : Context) : Option NodeId := c.frames.findSome? Frame.scope

/-- The node that an object declared as `declared` stands for here. -/
def childScope? (c : Context) (declared : String) : Option NodeId :=
  c.index.bind fun t => c.scope?.bind fun scope => t.child? scope declared

end Context

end SemanticIndex
