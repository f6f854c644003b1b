import SemanticIndex.Proofs.Expanding

/-!
# Which Instantiations Evaluation Comes To

While definitions are evaluated, the bodies of templates are expanded inside each other. The
relation `EvaluationOptions.Reaches` says which instantiations come up in this way, in which context
and inside the expansion of which templates. What becomes of each of them is somewhere in the result
(`EvaluationOptions.Reaches.occursIn`).

An instantiation that comes up where another expansion may begin, and of which the template is
known, has the body of the template, expanded, unless a template of the same name is being expanded
(`EvaluationOptions.instantiate_of_reaches`). The name decides: where a template defines another one
of its own name, the inner one is never expanded inside the outer one
(`EvaluationOptions.exists_unexpanded_template`).
-/

namespace SemanticIndex

/-- The context of a round of a loop. -/
def Context.round (c : Context) (key value : Option String) (index : Nat) (item : Value) :
    Context :=
  ((c.enter none).defineOption key (.int (Int64.ofNat index) .start)).defineOption value item

namespace Context

/-! ### The templates that a context knows -/

variable (c : Context) (x name : String)

/-- Going inside keeps templates known. -/
@[simp]
theorem template?_enter (scope : Option NodeId) : (c.enter scope).template? x = c.template? x := by
  simp [template?, enter, frames, Frame.empty]

@[simp]
theorem template?_define (v : Value) : (c.define name v).template? x = c.template? x := rfl

/-- Binding a name that may be absent keeps templates known. -/
@[simp]
theorem template?_defineOption (name : Option String) (v : Value) :
    (c.defineOption name v).template? x = c.template? x := by
  cases name <;> rfl

/-- In a round of a loop the same templates are known. -/
@[simp]
theorem template?_round (key value : Option String) (index : Nat) (item : Value) :
    (c.round key value index item).template? x = c.template? x := by
  simp [round]

/-- A template is known once it is defined. -/
@[simp]
theorem template?_defineTemplate_self (template : Template) :
    (c.defineTemplate template).template? template.name = some template := by
  simp [template?, defineTemplate, frames]

/-- Templates of other names stay known. -/
theorem template?_defineTemplate_of_ne {template : Template} (h : template.name ≠ x) :
    (c.defineTemplate template).template? x = c.template? x := by
  simp [template?, defineTemplate, frames, List.findSome?_cons, Std.ExtTreeMap.getElem?_insert, h]

/-- Binding parameters makes no template known. -/
@[simp]
theorem template?_inside (eval : Context → Value → Value) (arguments : List Field)
    (i : Instantiation) (template : Template) :
    (c.inside eval arguments i template).template? x = c.template? x := by
  refine inside_induction (P := fun c' => c'.template? x = c.template? x) ?_ (template?_enter ..)
  intro c' name v hc'
  rw [template?_define, hc']

end Context

/-- The definition of the template. -/
def Template.definition (t : Template) : Definition := .template t.name t.parameters t.body t.span

/-- An instantiation that evaluation comes to. -/
structure Point where
  /-- The templates of which the bodies are being expanded, the innermost first. -/
  stack : List Template
  context : Context
  instantiation : Instantiation

/-- The definition is one of the list, or stands in an object of the list, at whatever depth. -/
inductive OccursIn (d : Definition) : List Definition → Prop
  | head (ds : List Definition) : OccursIn d (d :: ds)
  | inside {body : List Definition} (name : Value) (span : Span) (ds : List Definition)
      (h : OccursIn d body) : OccursIn d (.object name body span :: ds)
  | tail (d' : Definition) {ds : List Definition} (h : OccursIn d ds) : OccursIn d (d' :: ds)

namespace OccursIn

variable {d : Definition} {ds es : List Definition}

theorem append_right (h : OccursIn d es) (ds : List Definition) : OccursIn d (ds ++ es) := by
  induction ds with
  | nil => exact h
  | cons d' ds ih => exact .tail d' ih

theorem append_left (h : OccursIn d ds) (es : List Definition) : OccursIn d (ds ++ es) := by
  induction h with
  | head ds => exact .head (ds ++ es)
  | inside name span ds h _ => exact .inside name span (ds ++ es) h
  | tail d' _ ih => exact .tail d' ih

theorem flatMap {α : Type} {f : α → List Definition} {x : α} {xs : List α} (h : OccursIn d (f x))
    (hx : x ∈ xs) : OccursIn d (xs.flatMap f) := by
  obtain ⟨before, after, rfl⟩ := List.append_of_mem hx
  rw [List.flatMap_append, List.flatMap_cons]
  exact (h.append_left _).append_right _

end OccursIn

namespace EvaluationOptions

/-! ### Evaluation inside the bodies of templates -/

/-- The expansions of some templates. -/
def inProgress (stack : List Template) : List Expansion := stack.map fun t => .template t.name

/-- The templates in progress are those on the stack. -/
theorem template_mem_inProgress_iff {stack : List Template} {x : String} :
    .template x ∈ inProgress stack ↔ x ∈ stack.map Template.name := by
  simp [inProgress]

/-- The value of an expression inside the bodies of some templates. -/
def valueIn (o : EvaluationOptions) (stack : List Template) : Context → Value → Value :=
  valueOf o.zeroDivision (o.maxDepth - stack.length) (inProgress stack)

/-- What an instantiation expands to inside the bodies of some templates. -/
def instantiateIn (o : EvaluationOptions) (stack : List Template) :
    Context → Instantiation → Definition :=
  instantiate o.zeroDivision (o.maxDepth - stack.length) (inProgress stack)

/-- What definitions expand to inside the bodies of some templates, and the context after them. -/
def expandIn (o : EvaluationOptions) (stack : List Template) (c : Context) (ds : List Definition) :
    List Definition × Context :=
  expandAllWith (o.valueIn stack) (o.instantiateIn stack) c ds

/-- The context in which the body of an object is evaluated. -/
def insideObject (o : EvaluationOptions) (stack : List Template) (c : Context) (name : Value) :
    Context :=
  c.enter (c.childScope? (if name.isReference then name else o.valueIn stack c name).text)

/-- The context in which the body of a template is expanded for an instantiation. -/
def insideTemplate (o : EvaluationOptions) (stack : List Template) (c : Context)
    (i : Instantiation) (template : Template) : Context :=
  c.inside (o.valueIn (template :: stack)) (argumentsOf (o.valueIn stack) c i) i template

/-- The object that an instantiation expands to with the body of a template. -/
def bodyObject (o : EvaluationOptions) (p : Point) (template : Template) : Definition :=
  .object (.reference p.instantiation.name p.instantiation.span.start)
    (o.expandIn (template :: p.stack)
      (o.insideTemplate p.stack p.context p.instantiation template) template.body).1
    p.instantiation.span

/-- What becomes of an instantiation that evaluation comes to. -/
def resultAt (o : EvaluationOptions) (p : Point) : Definition :=
  o.instantiateIn p.stack p.context p.instantiation

theorem evaluateDefinitions_eq_expandIn (o : EvaluationOptions) (c : Context)
    (ds : List Definition) : evaluateDefinitions o c ds = o.expandIn [] c ds := rfl

section

variable {o : EvaluationOptions} {stack : List Template} {c : Context} {i : Instantiation}
  {template : Template}

/-- Where no expansion may begin, an instantiation is its arguments. -/
theorem instantiateIn_of_length_ge (h : o.maxDepth ≤ stack.length) :
    o.instantiateIn stack c i = argumentsObject (o.valueIn stack) c i := by
  rw [instantiateIn, valueIn, Nat.sub_eq_zero_of_le h, instantiate_zero]

/-- So it is if the template is not known. -/
theorem instantiateIn_of_none (h : c.template? i.template = none) :
    o.instantiateIn stack c i = argumentsObject (o.valueIn stack) c i := by
  rw [instantiateIn, instantiate_of_none h, valueIn]

/-- So it is while a template of the name is being expanded. -/
theorem instantiateIn_of_mem_names (h : c.template? i.template = some template)
    (hactive : template.name ∈ stack.map Template.name) :
    o.instantiateIn stack c i = argumentsObject (o.valueIn stack) c i := by
  rw [instantiateIn, instantiate_of_active h (template_mem_inProgress_iff.mpr hactive), valueIn]

/-- Else it is the body of its template. -/
theorem instantiateIn_of_not_mem_names (h : c.template? i.template = some template)
    (hdepth : stack.length < o.maxDepth) (hnew : template.name ∉ stack.map Template.name) :
    o.instantiateIn stack c i = o.bodyObject ⟨stack, c, i⟩ template := by
  -- one expansion less may begin inside this one
  have hbudget : o.maxDepth - stack.length = o.maxDepth - (template :: stack).length + 1 := by
    rw [List.length_cons]
    omega
  rw [instantiateIn, hbudget,
    instantiate_of_not_active h (mt template_mem_inProgress_iff.mp hnew), ← hbudget]
  rfl

end

/-! ### The instantiations that come up -/

/-- Evaluating the definitions in the context, inside the bodies of the templates `stack`, comes to
the instantiation `p`. -/
inductive Reaches (o : EvaluationOptions) :
    List Template → Context → List Definition → Point → Prop
  /-- An instantiation comes up where it stands. -/
  | here (stack : List Template) (c : Context) (i : Instantiation) (ds : List Definition) :
      Reaches o stack c (.instantiation i :: ds) ⟨stack, c, i⟩
  /-- What comes up in the body of its template, if it is expanded. -/
  | expansion {stack : List Template} {c : Context} {i : Instantiation} {template : Template}
      {p : Point} (ds : List Definition) (htemplate : c.template? i.template = some template)
      (hdepth : stack.length < o.maxDepth) (hnew : template.name ∉ stack.map Template.name)
      (h : Reaches o (template :: stack) (o.insideTemplate stack c i template) template.body p) :
      Reaches o stack c (.instantiation i :: ds) p
  | object {stack : List Template} {c : Context} {name : Value} {body : List Definition}
      {p : Point} (span : Span) (ds : List Definition)
      (h : Reaches o stack (o.insideObject stack c name) body p) :
      Reaches o stack c (.object name body span :: ds) p
  | thenBody {stack : List Template} {c : Context} {condition : Value}
      {thenBody : List Definition} {p : Point} (elseBody : List Definition) (span : Span)
      (ds : List Definition) (hholds : (o.valueIn stack c condition).holds = true)
      (h : Reaches o stack c thenBody p) :
      Reaches o stack c (.conditional condition thenBody elseBody span :: ds) p
  | elseBody {stack : List Template} {c : Context} {condition : Value}
      {elseBody : List Definition} {p : Point} (thenBody : List Definition) (span : Span)
      (ds : List Definition) (hholds : (o.valueIn stack c condition).holds = false)
      (h : Reaches o stack c elseBody p) :
      Reaches o stack c (.conditional condition thenBody elseBody span :: ds) p
  | round {stack : List Template} {c : Context} {key value : Option String} {items item : Value}
      {vs : List Value} {q : Position} {index : Nat} {body : List Definition} {p : Point}
      (span : Span) (ds : List Definition) (hitems : o.valueIn stack c items = .array vs q)
      (hitem : (item, index) ∈ vs.zipIdx)
      (h : Reaches o stack (c.round key value index item) body p) :
      Reaches o stack c (.loop key value items body span :: ds) p
  /-- What comes up in the definitions after the first one, in the context that it leaves. -/
  | later {stack : List Template} {c : Context} {ds : List Definition} {p : Point}
      (d : Definition)
      (h : Reaches o stack (expandWith (o.valueIn stack) (o.instantiateIn stack) c d).2 ds p) :
      Reaches o stack c (d :: ds) p

namespace Reaches

variable {o : EvaluationOptions} {stack : List Template} {c : Context} {d : Definition}
  {ds : List Definition} {p p' : Point}

/-- No instantiation comes up in an empty body. -/
theorem not_nil : ¬ o.Reaches stack c [] p := by
  rintro ⟨⟩

/-- What comes up in a definition comes up in a body of which it is the first. -/
theorem of_singleton (h : o.Reaches stack c [d] p) (ds : List Definition) :
    o.Reaches stack c (d :: ds) p := by
  cases h with
  | here => exact .here ..
  | expansion _ htemplate hdepth hnew h => exact .expansion ds htemplate hdepth hnew h
  | object span _ h => exact .object span ds h
  | thenBody elseBody span _ hholds h => exact .thenBody elseBody span ds hholds h
  | elseBody thenBody span _ hholds h => exact .elseBody thenBody span ds hholds h
  | round span _ hitems hitem h => exact .round span ds hitems hitem h
  | later _ h => exact absurd h not_nil

/-- None comes up in a field. -/
theorem field_cons_iff {f : Field} :
    o.Reaches stack c (.field f :: ds) p ↔ o.Reaches stack c ds p := by
  refine ⟨fun h => ?_, fun h => .later _ h⟩
  cases h with
  | later _ h => exact h

/-- In a body that begins with an instantiation, this one comes up, then what comes up in the body
of its template, and then the rest. -/
theorem of_instantiation_cons {i : Instantiation} {template : Template}
    (h : o.Reaches stack c (.instantiation i :: ds) p)
    (htemplate : c.template? i.template = some template) :
    p = ⟨stack, c, i⟩ ∨
      o.Reaches (template :: stack) (o.insideTemplate stack c i template) template.body p ∨
        o.Reaches stack c ds p := by
  cases h with
  | here => exact Or.inl rfl
  | expansion _ htemplate' _ _ h =>
    obtain rfl := Option.some.inj (htemplate.symm.trans htemplate')
    exact Or.inr (Or.inl h)
  | later _ h => exact Or.inr (Or.inr h)

/-- What comes up inside an instantiation that comes up, comes up. -/
theorem trans (h : o.Reaches stack c ds p)
    (h' : o.Reaches p.stack p.context [.instantiation p.instantiation] p') :
    o.Reaches stack c ds p' := by
  induction h with
  | here stack c i ds => exact h'.of_singleton ds
  | expansion ds htemplate hdepth hnew _ ih => exact .expansion ds htemplate hdepth hnew (ih h')
  | object span ds _ ih => exact .object span ds (ih h')
  | thenBody elseBody span ds hholds _ ih => exact .thenBody elseBody span ds hholds (ih h')
  | elseBody thenBody span ds hholds _ ih => exact .elseBody thenBody span ds hholds (ih h')
  | round span ds hitems hitem _ ih => exact .round span ds hitems hitem (ih h')
  | later d _ ih => exact .later d (ih h')

/-- Each template is expanded inside those that were being expanded before, at most as many as may
nest, and no two of them have one name. -/
theorem stack_invariant (h : o.Reaches stack c ds p)
    (hnodup : (stack.map Template.name).Nodup) (hlength : stack.length ≤ o.maxDepth) :
    stack <:+ p.stack ∧ (p.stack.map Template.name).Nodup ∧ p.stack.length ≤ o.maxDepth := by
  induction h with
  | here => exact ⟨List.suffix_rfl, hnodup, hlength⟩
  | @expansion stack c i template p ds htemplate hdepth hnew h ih =>
    have hnodup' : ((template :: stack).map Template.name).Nodup :=
      List.nodup_cons.mpr ⟨hnew, hnodup⟩
    obtain ⟨hsuffix, hrest⟩ := ih hnodup' hdepth
    exact ⟨(List.suffix_cons template stack).trans hsuffix, hrest⟩
  | object _ _ _ ih | thenBody _ _ _ _ _ ih | elseBody _ _ _ _ _ ih | round _ _ _ _ _ ih
  | later _ _ ih => exact ih hnodup hlength

/-- What becomes of an instantiation that comes up is somewhere in the result. -/
theorem occursIn (h : o.Reaches stack c ds p) :
    OccursIn (o.resultAt p) (o.expandIn stack c ds).1 := by
  induction h with
  | here stack c i ds =>
    rw [expandIn, expandAllWith_cons, expandWith]
    exact .head _
  | expansion ds htemplate hdepth hnew _ ih =>
    rw [expandIn, expandAllWith_cons, expandWith,
      instantiateIn_of_not_mem_names htemplate hdepth hnew]
    exact .inside _ _ _ ih
  | object span ds _ ih =>
    rw [expandIn, expandAllWith_cons, expandWith]
    exact .inside _ _ _ ih
  | thenBody elseBody span ds hholds _ ih =>
    rw [expandIn, expandAllWith_cons, expandWith, if_pos hholds]
    exact ih.append_left _
  | elseBody thenBody span ds hholds _ ih =>
    rw [expandIn, expandAllWith_cons, expandWith, if_neg (Bool.eq_false_iff.mp hholds)]
    exact ih.append_left _
  | round span ds hitems hitem _ ih =>
    -- each round contributes its own definitions
    rw [expandIn, expandAllWith_cons, expandWith, hitems]
    refine .append_left (.flatMap ?_ hitem) _
    exact ih
  | later d _ ih =>
    rw [expandIn, expandAllWith_cons]
    exact ih.append_right _

end Reaches

variable {o : EvaluationOptions} {c : Context} {ds : List Definition} {p : Point}

/-- What becomes of an instantiation that evaluation comes to is somewhere in the result. Of the
templates that are being expanded there no two have one name, and there are no more than may nest.
Where another expansion may begin and the template is known, the instantiation has the body of the
template, expanded, unless one of those in progress has the name of the template. It has its
arguments if one does, and wherever no other expansion may begin or the template is not known. -/
theorem instantiate_of_reaches (h : o.Reaches [] c ds p) :
    OccursIn (o.resultAt p) (evaluateDefinitions o c ds).1 ∧
      (p.stack.map Template.name).Nodup ∧ p.stack.length ≤ o.maxDepth ∧
      o.resultAt p = match p.context.template? p.instantiation.template with
        | some template =>
          if p.stack.length < o.maxDepth ∧ ∀ active ∈ p.stack, active.name ≠ template.name then
            o.bodyObject p template
          else
            argumentsObject (o.valueIn p.stack) p.context p.instantiation
        | none => argumentsObject (o.valueIn p.stack) p.context p.instantiation := by
  obtain ⟨-, hnodup, hlength⟩ := h.stack_invariant List.nodup_nil (Nat.zero_le _)
  refine ⟨h.occursIn, hnodup, hlength, ?_⟩
  cases htemplate : p.context.template? p.instantiation.template with
  | none => exact instantiateIn_of_none htemplate
  | some template =>
    have hnames : (∀ active ∈ p.stack, active.name ≠ template.name) ↔
        template.name ∉ p.stack.map Template.name := by
      simp
    simp only [hnames]
    split
    · rename_i hbegins
      exact instantiateIn_of_not_mem_names htemplate hbegins.1 hbegins.2
    · rename_i hnot
      -- it does not begin, because of the templates in progress or of the depth
      by_cases hdepth : p.stack.length < o.maxDepth
      · exact instantiateIn_of_mem_names htemplate
          (not_not.mp fun hnew => hnot ⟨hdepth, hnew⟩)
      · exact instantiateIn_of_length_ge (Nat.le_of_not_lt hdepth)

end EvaluationOptions

/-- A template with a parameter. -/
def probeTemplate : Template where
  name := "probe"
  parameters := [⟨"port", none, .start⟩]
  body := [.field ⟨"Port", .reference "port" .start, .start⟩]
  span := {}

/-- A template that instantiates another one in each round of a loop. -/
def serviceTemplate : Template where
  name := "service"
  parameters := []
  body := [.loop none (some "port") (.array [.int 80 .start, .int 443 .start] .start)
    [.instantiation ⟨"check", "probe", [⟨"port", .reference "port" .start, .start⟩], {}⟩] {}]
  span := {}

/-- The instantiation in the second round of the loop has the body of the other template. -/
theorem EvaluationOptions.instantiate_of_reaches_of_loop :
    let o : EvaluationOptions := {}
    let c := (Context.bare.defineTemplate probeTemplate).defineTemplate serviceTemplate
    let ds : List Definition := [.instantiation ⟨"web", "service", [], {}⟩]
    ∃ p, o.Reaches [] c ds p ∧ p.stack = [serviceTemplate] ∧ p.instantiation.name = "check" ∧
      OccursIn (o.resultAt p) (evaluateDefinitions o c ds).1 ∧
      (p.stack.map Template.name).Nodup ∧ p.stack.length ≤ o.maxDepth ∧
      o.resultAt p = o.bodyObject p probeTemplate := by
  intro o c ds
  have hprobe : c.template? "probe" = some probeTemplate := by
    rw [Context.template?_defineTemplate_of_ne _ _ (by decide)]
    exact Context.template?_defineTemplate_self _ probeTemplate
  have hreaches : o.Reaches [] c ds _ :=
    .expansion [] (Context.template?_defineTemplate_self _ serviceTemplate) (by decide) (by decide)
      (.round {} [] rfl (List.mem_cons_of_mem _ (List.mem_singleton_self _)) (.here _ _ _ []))
  obtain ⟨hoccurs, hnodup, hlength, hresult⟩ := instantiate_of_reaches hreaches
  refine ⟨_, hreaches, rfl, rfl, hoccurs, hnodup, hlength, hresult.trans ?_⟩
  simp only [Context.template?_round, insideTemplate, Context.template?_inside, hprobe]
  rw [if_pos (by decide)]

/-- A template that is defined in another one of its name. -/
def innerService : Template := ⟨"service", [], [.field ⟨"Port", .int 80 .start, .start⟩], {}⟩

/-- A template that defines another one of its name and instantiates it. -/
def outerService : Template where
  name := "service"
  parameters := []
  body := [innerService.definition, .instantiation ⟨"web", "service", [], {}⟩]
  span := {}

/-- The inner template is known where it is instantiated, expansions may nest further, and only the
outer one is being expanded; yet the instantiation does not have its body. -/
theorem EvaluationOptions.exists_unexpanded_template :
    let o : EvaluationOptions := {}
    let ds : List Definition :=
      [outerService.definition, .instantiation ⟨"app", "service", [], {}⟩]
    ∃ p, o.Reaches [] .bare ds p ∧ p.stack = [outerService] ∧
      p.context.template? p.instantiation.template = some innerService ∧
      p.stack.length < o.maxDepth ∧ innerService ∉ p.stack ∧
      o.resultAt p ≠ o.bodyObject p innerService := by
  intro o ds
  have hreaches : o.Reaches [] .bare ds _ :=
    .later _ (.expansion [] (Context.template?_defineTemplate_self _ outerService) (by decide)
      (by decide) (.later _ (.here _ _ _ [])))
  refine ⟨_, hreaches, rfl, Context.template?_defineTemplate_self _ innerService, by decide, ?_, ?_⟩
  · -- the two templates of the one name differ in the length of their bodies
    intro hmem
    have hbody := congrArg (fun t => t.body.length) (List.mem_singleton.mp hmem)
    revert hbody
    decide
  · intro heq
    have hsites := congrArg (fun d => (d.sites [] false).length) heq
    revert hsites
    decide

end SemanticIndex
