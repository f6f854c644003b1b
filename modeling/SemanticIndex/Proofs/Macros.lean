import SemanticIndex.Proofs.Depth
import SemanticIndex.Proofs.Reaching

/-!
# Instantiations as Objects

An instantiation stands for an object: a variable for each parameter, with the argument of its name
for a default if there is one, and then the body of the template (`macroObject`). Evaluating the one
gives the same as evaluating the other
(`EvaluationOptions.evaluateDefinitions_macroObject`), though the body is evaluated inside an
expansion in the one case and outside of it in the other.

What shows of an expansion that is in progress is that no other one of its name is begun inside it,
and that fewer expansions may nest. Where no template of this name comes up again and enough
expansions may nest anyway, nothing shows (`EvaluationOptions.Unrepeated.expandIn_eq`).
-/

namespace SemanticIndex

/-- Number of the variables that the nodes of the index hold. -/
def Context.variableCount (c : Context) : Nat := c.index.elim 0 (·.heldVariables.length)

/-- A variable for each parameter: its default is the first argument of its name, else the default
of the parameter. -/
def parameterVariables (arguments : List Field) (parameters : List Parameter) : List Definition :=
  parameters.map fun p => .var {
    name := p.name
    typeName := ""
    default := ((arguments.find? (·.name == p.name)).map Field.value).or p.default
    constant := false
    position := p.position }

/-- The arguments that match a parameter of the template. -/
def Template.matching (template : Template) (arguments : List Field) : List Field :=
  arguments.filter fun a => template.parameters.any (·.name == a.name)

/-- The object that an instantiation stands for. -/
def macroObject (arguments : List Field) (i : Instantiation) (template : Template) : Definition :=
  .object (.reference i.name i.span.start)
    (parameterVariables arguments template.parameters ++ template.body) i.span

section

variable {eval eval' : Context → Value → Value} {inst : Context → Instantiation → Definition}
  {c : Context} {arguments : List Field}

theorem expandAllWith_append (eval : Context → Value → Value)
    (inst : Context → Instantiation → Definition) (c : Context) (ds es : List Definition) :
    expandAllWith eval inst c (ds ++ es) =
      ((expandAllWith eval inst c ds).1 ++
          (expandAllWith eval inst (expandAllWith eval inst c ds).2 es).1,
        (expandAllWith eval inst (expandAllWith eval inst c ds).2 es).2) := by
  induction ds generalizing c with
  | nil => rw [List.nil_append, expandAllWith, List.nil_append]
  | cons d ds ih =>
    rw [List.cons_append, expandAllWith_cons, expandAllWith_cons, ih, List.append_assoc]

/-- Going through the variables binds the parameters. -/
theorem expandAllWith_parameterVariables
    (harguments : ∀ a ∈ arguments, ∀ c, eval c a.value = a.value) (parameters : List Parameter) :
    expandAllWith eval inst c (parameterVariables arguments parameters) =
      ([], parameters.foldl (bindParameter eval arguments) c) := by
  induction parameters generalizing c with
  | nil => rw [parameterVariables, List.map_nil, expandAllWith, List.foldl_nil]
  | cons p parameters ih =>
    have hbind : expandWith eval inst c (.var {
        name := p.name
        typeName := ""
        default := ((arguments.find? (·.name == p.name)).map Field.value).or p.default
        constant := false
        position := p.position }) = ([], bindParameter eval arguments c p) := by
      rw [expandWith, bindParameter]
      cases hfind : arguments.find? (·.name == p.name) with
      | some a =>
        rw [Option.map_some, Option.some_or]
        simp only [harguments a (List.mem_of_find?_eq_some hfind)]
      | none =>
        rw [Option.map_none, Option.none_or]
        cases p.default <;> rfl
    rw [parameterVariables, List.map_cons, expandAllWith_cons, hbind, ← parameterVariables, ih,
      List.foldl_cons, List.nil_append]

/-- The index is the same inside a template. -/
theorem Context.index_inside (c : Context) (eval : Context → Value → Value)
    (arguments : List Field) (i : Instantiation) (template : Template) :
    (c.inside eval arguments i template).index = c.index :=
  inside_induction (P := fun c' => c'.index = c.index) (fun _ _ _ hc' => hc') rfl

/-- Two ways to evaluate that agree over the index of the context bind parameters to the same. -/
theorem Context.inside_congr
    (heval : ∀ c' : Context, c'.index = c.index → ∀ v, eval c' v = eval' c' v)
    (i : Instantiation) (template : Template) :
    c.inside eval arguments i template = c.inside eval' arguments i template := by
  have hfold : ∀ (ps : List Parameter) (c' : Context), c'.index = c.index →
      ps.foldl (bindParameter eval arguments) c' = ps.foldl (bindParameter eval' arguments) c' := by
    intro ps
    induction ps with
    | nil => exact fun c' _ => rfl
    | cons p ps ih =>
      intro c' hc'
      have hbind : bindParameter eval arguments c' p = bindParameter eval' arguments c' p := by
        unfold bindParameter
        split
        · rfl
        · split
          · rw [heval c' hc']
          · rfl
      rw [List.foldl_cons, List.foldl_cons, hbind]
      exact ih _ (bindParameter_induction (P := fun c' => c'.index = c.index)
        (fun _ _ _ hc' => hc') hc' p)
  exact hfold template.parameters _ rfl

end

namespace EvaluationOptions

variable {o : EvaluationOptions} {stack stack' : List Template} {c : Context}
  {ds : List Definition} {p : Point}

/-! ### The index and the values -/

theorem index_insideTemplate {i : Instantiation} {template : Template} :
    (o.insideTemplate stack c i template).index = c.index :=
  Context.index_inside ..

/-- Evaluation does not leave the index. -/
theorem Reaches.index_eq (h : o.Reaches stack c ds p) : p.context.index = c.index := by
  induction h with
  | here => rfl
  | expansion _ _ _ _ _ ih => exact ih.trans (Context.index_inside ..)
  | object _ _ _ ih | thenBody _ _ _ _ _ ih | elseBody _ _ _ _ _ ih => exact ih
  | @round _ c key value _ item _ _ index _ _ _ _ _ _ _ ih =>
    exact ih.trans (Context.alike_round c key value _ item).index_eq
  | later d _ ih => exact ih.trans (alike_expandWith _ _ _ d).index_eq

/-- The templates whose bodies are being expanded do not show in values, where enough expansions
may nest. -/
theorem valueIn_congr (hc : ∀ t, c.index = some t → ∃ options ops, t = Index.run options ops)
    (h : c.variableCount + stack.length ≤ o.maxDepth)
    (h' : c.variableCount + stack'.length ≤ o.maxDepth) (v : Value) :
    o.valueIn stack c v = o.valueIn stack' c v := by
  have hname : nameValue? o.zeroDivision (o.maxDepth - stack.length) (inProgress stack) c =
      nameValue? o.zeroDivision (o.maxDepth - stack'.length) (inProgress stack') c := by
    funext name
    rw [nameValue?_eq_or, nameValue?_eq_or o.zeroDivision (o.maxDepth - stack'.length)]
    refine congrArg _ (Option.bind_congr fun t ht => ?_)
    obtain ⟨options, ops, hrun⟩ := hc t ht
    obtain ⟨lay, hbuilt, -⟩ := Index.exists_built_run options ops
    rw [← hrun] at hbuilt
    -- only the defaults of variables count against the depth, and none is in progress
    have hinactive : ∀ (stack : List Template) i x, .var i x ∈ inProgress stack ↔
        .var i x ∈ ([] : List Expansion) := by
      simp [inProgress]
    rw [Context.variableCount, ht, Option.elim_some] at h h'
    exact nameValue?_ofIndex_eq_of_sufficient
      (fun _ _ _ _ _ hdefault => hbuilt.var_mem_of_defaultOf? hdefault) (hinactive stack)
      (hinactive stack') (Index.sufficient_of_length_le (by omega))
      (Index.sufficient_of_length_le (by omega)) _ name
  rw [valueIn, valueIn, valueOf, valueOf, hname]

/-! ### Definitions -/

section

variable {eval : Context → Value → Value} {inst : Context → Instantiation → Definition}
  {index : Option Index}

/-- Two ways to evaluate agree on the instantiations that come up right in the bodies of the
templates in progress. -/
def AgreesAt (o : EvaluationOptions) (inst : Context → Instantiation → Definition)
    (stack : List Template) (c : Context) (ds : List Definition) : Prop :=
  ∀ c' i, o.Reaches stack c ds ⟨stack, c', i⟩ → o.instantiateIn stack c' i = inst c' i

/-- What is so for each definition of a body is so for the body. -/
theorem expandIn_congr_of
    (h : ∀ d ∈ ds, ∀ {c : Context}, c.index = index → o.AgreesAt inst stack c [d] →
      expandWith (o.valueIn stack) (o.instantiateIn stack) c d = expandWith eval inst c d)
    (hc : c.index = index) (hinst : o.AgreesAt inst stack c ds) :
    o.expandIn stack c ds = expandAllWith eval inst c ds := by
  induction ds generalizing c with
  | nil => rw [expandIn, expandAllWith, expandAllWith]
  | cons d ds ih =>
    obtain ⟨hd, hds⟩ := List.forall_mem_cons.mp h
    have heq := hd hc fun c' i hreach => hinst c' i (hreach.of_singleton ds)
    have hrest := ih hds ((alike_expandWith (o.valueIn stack) (o.instantiateIn stack) c
      d).index_eq.trans hc) fun c' i hreach => hinst c' i (.later d hreach)
    rw [expandIn] at hrest ⊢
    rw [expandAllWith_cons, expandAllWith_cons, ← heq, hrest]

variable (heval : ∀ c : Context, c.index = index → ∀ v, o.valueIn stack c v = eval c v)

include heval

/-- Another way to evaluate that agrees over the index, and where instantiations come up, expands a
definition to the same. -/
theorem expandWith_congr (d : Definition) (hc : c.index = index)
    (hinst : o.AgreesAt inst stack c [d]) :
    expandWith (o.valueIn stack) (o.instantiateIn stack) c d = expandWith eval inst c d := by
  induction d using Definition.induction generalizing c with
  | field f => rw [expandWith, expandWith, heval c hc]
  | object name body span ih =>
    have hbody := expandIn_congr_of (c := o.insideObject stack c name) ih hc
      fun c' i hreach => hinst c' i (.object span [] hreach)
    rw [insideObject, expandIn, heval c hc] at hbody
    rw [expandWith, expandWith, heval c hc, hbody]
  | var v =>
    rw [expandWith, expandWith]
    split
    · rfl
    · rw [heval c hc]
  | conditional condition thenBody elseBody span ih ih' =>
    rw [expandWith, expandWith, ← heval c hc]
    split
    · rename_i hholds
      exact expandIn_congr_of ih hc fun c' i hreach =>
        hinst c' i (.thenBody elseBody span [] hholds hreach)
    · rename_i hnot
      exact expandIn_congr_of ih' hc fun c' i hreach =>
        hinst c' i (.elseBody thenBody span [] (Bool.eq_false_iff.mpr hnot) hreach)
  | loop key value items body span ih =>
    rw [expandWith, expandWith, ← heval c hc]
    split
    · rename_i vs q hitems
      refine congrArg (·, c) (List.flatMap_congr fun round hround => ?_)
      obtain ⟨item, number⟩ := round
      have hindex : (c.round key value number item).index = index :=
        (Context.alike_round c key value _ item).index_eq.trans hc
      exact congrArg Prod.fst (expandIn_congr_of ih hindex fun c' i hreach =>
        hinst c' i (.round span [] hitems hround hreach))
    · rfl
  | template name parameters body span => rfl
  | instantiation i => rw [expandWith, expandWith, hinst c i (.here stack c i [])]

theorem expandIn_congr (hc : c.index = index) (hinst : o.AgreesAt inst stack c ds) :
    o.expandIn stack c ds = expandAllWith eval inst c ds :=
  expandIn_congr_of (fun d _ _ hc hinst => expandWith_congr heval d hc hinst) hc hinst

end

/-! ### Inside an expansion and outside of it -/

/-- While the definitions are evaluated inside the bodies of `stack` and, around these, of `outer`,
no template of the name of `outer` comes up again. All names of templates that come up are among
`names`, and as many expansions may nest as there are of these and of variables. -/
structure Unrepeated (o : EvaluationOptions) (outer : Template) (names : List String)
    (stack : List Template) (c : Context) (ds : List Definition) : Prop where
  index_run : ∀ t, c.index = some t → ∃ options ops, t = Index.run options ops
  nodup : ((stack ++ [outer]).map Template.name).Nodup
  subset : (stack ++ [outer]).map Template.name ⊆ names
  depth_le : c.variableCount + names.length ≤ o.maxDepth
  comesUp : ∀ p, o.Reaches (stack ++ [outer]) c ds p → ∀ template,
    p.context.template? p.instantiation.template = some template →
      template.name ≠ outer.name ∧ template.name ∈ names

namespace Unrepeated

variable {outer template : Template} {names : List String} {c' : Context} {i : Instantiation}

/-- No more templates are being expanded than there are names. -/
theorem length_le (h : o.Unrepeated outer names stack c ds) :
    c.variableCount + (stack.length + 1) ≤ o.maxDepth := by
  have hlength := (List.subperm_of_subset h.nodup h.subset).length_le
  rw [List.length_map, List.length_append, List.length_singleton] at hlength
  exact Nat.le_trans (Nat.add_le_add_left hlength _) h.depth_le

/-- The index stays, and with it the variables. -/
theorem valueIn_eq (h : o.Unrepeated outer names stack c ds) (hc' : c'.index = c.index)
    (v : Value) : o.valueIn (stack ++ [outer]) c' v = o.valueIn stack c' v := by
  have hcount : c'.variableCount = c.variableCount := by
    rw [Context.variableCount, Context.variableCount, hc']
  refine valueIn_congr (hc' ▸ h.index_run) ?_ ?_ v
  · rw [hcount, List.length_append]
    exact h.length_le
  · rw [hcount]
    exact Nat.le_trans (Nat.add_le_add_left (Nat.le_succ _) _) h.length_le

/-- In the body of a template that comes up, all is as around it, and the template is in progress as
well. -/
theorem inside (h : o.Unrepeated outer names stack c ds)
    (hreaches : o.Reaches (stack ++ [outer]) c ds ⟨stack ++ [outer], c', i⟩)
    (htemplate : c'.template? i.template = some template)
    (hnew : template.name ∉ (stack ++ [outer]).map Template.name) :
    (stack ++ [outer]).length < o.maxDepth ∧
      o.Unrepeated outer names (template :: stack)
        (o.insideTemplate (stack ++ [outer]) c' i template) template.body := by
  have hmem := (h.comesUp _ hreaches template htemplate).2
  have hnodup : ((template :: stack ++ [outer]).map Template.name).Nodup :=
    List.nodup_cons.mpr ⟨hnew, h.nodup⟩
  have hsubset : (template :: stack ++ [outer]).map Template.name ⊆ names :=
    List.cons_subset.mpr ⟨hmem, h.subset⟩
  have hindex : (o.insideTemplate (stack ++ [outer]) c' i template).index = c.index :=
    index_insideTemplate.trans hreaches.index_eq
  have hdepth : (o.insideTemplate (stack ++ [outer]) c' i template).variableCount +
      names.length ≤ o.maxDepth := by
    rw [Context.variableCount, hindex]
    exact h.depth_le
  have hbegins : (stack ++ [outer]).length < o.maxDepth := by
    have hlength := (List.subperm_of_subset hnodup hsubset).length_le
    rw [List.length_map, List.cons_append, List.length_cons] at hlength
    omega
  -- what comes up in the body of the template comes up in the definitions around it
  refine ⟨hbegins, hindex ▸ h.index_run, hnodup, hsubset, hdepth, fun p hp => ?_⟩
  exact h.comesUp p (hreaches.trans (.expansion [] htemplate hbegins hnew hp))

/-- The outermost expansion does not show where an instantiation comes up, if it does not show in
the body of its template. -/
theorem instantiateIn_eq (h : o.Unrepeated outer names stack c ds)
    (hreaches : o.Reaches (stack ++ [outer]) c ds ⟨stack ++ [outer], c', i⟩)
    (hinside : ∀ {template c ds}, o.Unrepeated outer names (template :: stack) c ds →
      o.expandIn (template :: stack ++ [outer]) c ds = o.expandIn (template :: stack) c ds) :
    o.instantiateIn (stack ++ [outer]) c' i = o.instantiateIn stack c' i := by
  have hvalue : ∀ v, o.valueIn (stack ++ [outer]) c' v = o.valueIn stack c' v :=
    h.valueIn_eq hreaches.index_eq
  have harguments : argumentsOf (o.valueIn (stack ++ [outer])) c' i =
      argumentsOf (o.valueIn stack) c' i := by
    simp only [argumentsOf, hvalue]
  cases htemplate : c'.template? i.template with
  | none =>
    rw [instantiateIn_of_none htemplate, instantiateIn_of_none htemplate, argumentsObject,
      argumentsObject, harguments]
  | some template =>
    -- the outermost template has another name, so that it stands in the way of nothing
    obtain ⟨hne, -⟩ := h.comesUp _ hreaches template htemplate
    have hnames : template.name ∈ (stack ++ [outer]).map Template.name ↔
        template.name ∈ stack.map Template.name := by
      simp [hne]
    by_cases hactive : template.name ∈ stack.map Template.name
    · rw [instantiateIn_of_mem_names htemplate (hnames.mpr hactive),
        instantiateIn_of_mem_names htemplate hactive, argumentsObject, argumentsObject, harguments]
    · obtain ⟨hbegins, hbody⟩ := h.inside hreaches htemplate (mt hnames.mp hactive)
      have hbegins' : stack.length < o.maxDepth := by
        rw [List.length_append] at hbegins
        omega
      -- defaults of parameters are evaluated inside the expansion already
      have hcontext : o.insideTemplate (stack ++ [outer]) c' i template =
          o.insideTemplate stack c' i template := by
        rw [insideTemplate, insideTemplate, harguments]
        exact Context.inside_congr
          (fun c hc v => hbody.valueIn_eq (hc.trans index_insideTemplate.symm) v) i template
      have heq := hinside hbody
      rw [hcontext] at heq
      rw [instantiateIn_of_not_mem_names htemplate hbegins (mt hnames.mp hactive),
        instantiateIn_of_not_mem_names htemplate hbegins' hactive, bodyObject, bodyObject]
      show Definition.object _ (o.expandIn (template :: stack ++ [outer])
        (o.insideTemplate (stack ++ [outer]) c' i template) template.body).1 _ = _
      rw [hcontext, heq]

/-- An outermost expansion that is in progress does not show. -/
theorem expandIn_eq (h : o.Unrepeated outer names stack c ds) :
    o.expandIn (stack ++ [outer]) c ds = o.expandIn stack c ds := by
  -- by induction on how many more expansions may begin inside each other
  induction hbudget : o.maxDepth - stack.length using Nat.strongRecOn generalizing stack c ds with
  | ind budget ih =>
    refine expandIn_congr (fun c' hc' v => h.valueIn_eq hc' v) rfl fun c' i hreaches => ?_
    refine h.instantiateIn_eq hreaches fun {template c ds} hinside => ih _ ?_ hinside rfl
    have hlength := h.length_le
    rw [List.length_cons]
    omega

end Unrepeated

variable {i : Instantiation} {template : Template}

/-- The context after the variables of the parameters is the one in which the body of the template
is expanded. -/
theorem expandIn_macroObject
    (hliteral : ∀ a ∈ argumentsOf (evaluate o) c i, a.value.isLiteral = true) :
    o.expandIn [] c [macroObject (argumentsOf (evaluate o) c i) i template] =
      ([.object (.reference i.name i.span.start)
        (o.expandIn [] (c.inside (o.valueIn []) (argumentsOf (evaluate o) c i) i template)
          template.body).1 i.span], c) := by
  have harguments : ∀ a ∈ argumentsOf (evaluate o) c i, ∀ c, o.valueIn [] c a.value = a.value :=
    fun a ha c => Value.reduce_literal (hliteral a ha) _ _
  rw [expandIn, expandAllWith_cons, macroObject, expandWith, expandAllWith_append,
    expandAllWith_parameterVariables harguments]
  simp only [expandAllWith, List.nil_append, List.append_nil]
  rfl

/-- An instantiation expands to one object and leaves the context as it is. -/
theorem expandIn_instantiation (o : EvaluationOptions) (stack : List Template) (c : Context)
    (i : Instantiation) :
    o.expandIn stack c [.instantiation i] = ([o.instantiateIn stack c i], c) := by
  rw [expandIn, expandAllWith_cons, expandWith, expandAllWith, List.append_nil]

/-- Arguments of other names than those of the parameters are not looked at. -/
theorem inside_matching {eval : Context → Value → Value} (arguments : List Field) :
    c.inside eval (template.matching arguments) i template =
      c.inside eval arguments i template := by
  -- the first argument of the name of a parameter is not among those that are dropped
  have hbind : ∀ c, ∀ p ∈ template.parameters,
      bindParameter eval (template.matching arguments) c p = bindParameter eval arguments c p := by
    intro c p hp
    have hfind : (template.matching arguments).find? (·.name == p.name) =
        arguments.find? (·.name == p.name) := by
      rw [Template.matching, List.find?_filter]
      congr 1
      funext a
      by_cases ha : a.name = p.name
      · have hany : template.parameters.any (·.name == a.name) = true :=
          List.any_eq_true.mpr ⟨p, hp, beq_iff_eq.mpr ha.symm⟩
        simp only [hany, true_and, Bool.decide_eq_true]
      · simp only [beq_false_of_ne ha, Bool.false_eq_true, and_false, decide_false]
    rw [bindParameter, bindParameter, hfind]
  exact List.foldl_ext _ _ _ hbind

/-- The arguments that match parameters are evaluated alike. -/
theorem argumentsOf_matching (eval : Context → Value → Value) (c : Context) (i : Instantiation)
    (template : Template) :
    argumentsOf eval c { i with arguments := template.matching i.arguments } =
      template.matching (argumentsOf eval c i) := by
  rw [argumentsOf, argumentsOf, Template.matching, Template.matching, List.filter_map]
  rfl

/-- Where its template is expanded, an instantiation does not depend on arguments of other names
than those of the parameters. -/
theorem instantiateIn_matching (htemplate : c.template? i.template = some template)
    (hdepth : stack.length < o.maxDepth) (hnew : template.name ∉ stack.map Template.name) :
    o.instantiateIn stack c { i with arguments := template.matching i.arguments } =
      o.instantiateIn stack c i := by
  have hinside : o.insideTemplate stack c { i with arguments := template.matching i.arguments }
      template = o.insideTemplate stack c i template := by
    rw [insideTemplate, argumentsOf_matching]
    exact inside_matching _
  have hmatching : o.instantiateIn stack c { i with arguments := template.matching i.arguments } =
      o.bodyObject ⟨stack, c, { i with arguments := template.matching i.arguments }⟩ template :=
    instantiateIn_of_not_mem_names htemplate hdepth hnew
  rw [hmatching, instantiateIn_of_not_mem_names htemplate hdepth hnew, bodyObject, bodyObject]
  simp only [hinside]

/-- Instantiation is macro expansion. Let the template of an instantiation be known, its arguments
evaluate to literals, and no template of its name come up inside the expansion. Where as many
expansions may nest as there are variables on the index and names of templates that come up, the
instantiation evaluates to the same as the object that it stands for, in any context of the index
after a run and in any context without an index. The context stays as it is, and arguments that
match no parameter have no effect. -/
theorem evaluateDefinitions_macroObject (o : EvaluationOptions) {c : Context} {i : Instantiation}
    {template : Template} {names : List String}
    (hc : ∀ t, c.index = some t → ∃ options ops, t = Index.run options ops)
    (htemplate : c.template? i.template = some template)
    (hliteral : ∀ a ∈ argumentsOf (evaluate o) c i, a.value.isLiteral = true)
    (hnever : ∀ p, o.Reaches [] c [.instantiation i] p → p.stack ≠ [] → ∀ inner,
      p.context.template? p.instantiation.template = some inner → inner.name ≠ template.name)
    (hnames : ∀ p, o.Reaches [] c [.instantiation i] p → ∀ inner,
      p.context.template? p.instantiation.template = some inner → inner.name ∈ names)
    (hdepth : c.variableCount + names.length ≤ o.maxDepth) :
    evaluateDefinitions o c [.instantiation i] =
        evaluateDefinitions o c [macroObject (argumentsOf (evaluate o) c i) i template] ∧
      (evaluateDefinitions o c [.instantiation i]).2 = c ∧
      evaluateDefinitions o c [.instantiation
          { i with arguments := template.matching i.arguments }] =
        evaluateDefinitions o c [.instantiation i] := by
  have hname : template.name ∈ names := hnames _ (.here [] c i []) template htemplate
  have hbegins : 0 < o.maxDepth := by
    have hlength := List.length_pos_of_mem hname
    omega
  -- no template comes up again in its own body, so that the body does not show what is in progress
  have hbody : o.Unrepeated template names [] (o.insideTemplate [] c i template) template.body := {
    index_run := index_insideTemplate.symm ▸ hc
    nodup := List.nodup_singleton _
    subset := List.cons_subset.mpr ⟨hname, List.nil_subset _⟩
    depth_le := by
      rw [Context.variableCount, index_insideTemplate]
      exact hdepth
    comesUp := fun p hp inner hinner => by
      have hreaches : o.Reaches [] c [.instantiation i] p :=
        .expansion [] htemplate hbegins List.not_mem_nil hp
      obtain ⟨hsuffix, -⟩ := hp.stack_invariant (List.nodup_singleton _) hbegins
      have hstack : p.stack ≠ [] := hsuffix.ne_nil (List.cons_ne_nil _ _)
      exact ⟨hnever p hreaches hstack inner hinner, hnames p hreaches inner hinner⟩ }
  have hinside : o.insideTemplate [] c i template =
      c.inside (o.valueIn []) (argumentsOf (evaluate o) c i) i template :=
    Context.inside_congr (fun c' hc' v => hbody.valueIn_eq (hc'.trans index_insideTemplate.symm) v)
      i template
  have hroot : ([] : List Template).length < o.maxDepth := hbegins
  have hexpanded : evaluateDefinitions o c [.instantiation i] =
      ([o.bodyObject ⟨[], c, i⟩ template], c) := by
    rw [evaluateDefinitions_eq_expandIn, expandIn_instantiation,
      instantiateIn_of_not_mem_names htemplate hroot List.not_mem_nil]
  refine ⟨?_, congrArg Prod.snd hexpanded, ?_⟩
  · -- the same body is expanded, once with the template in progress and once without
    have heq := hbody.expandIn_eq
    rw [hinside] at heq
    rw [hexpanded, evaluateDefinitions_eq_expandIn, expandIn_macroObject hliteral, bodyObject]
    show ([Definition.object _ (o.expandIn ([] ++ [template]) (o.insideTemplate [] c i template)
      template.body).1 _], c) = _
    rw [hinside, heq]
  · rw [evaluateDefinitions_eq_expandIn, evaluateDefinitions_eq_expandIn, expandIn_instantiation,
      expandIn_instantiation, instantiateIn_matching htemplate hroot List.not_mem_nil]

end EvaluationOptions

/-- A file of the package `app` with a variable. -/
def baseDocument : Document where
  package := some ⟨"app", .start⟩
  definitions := [.var ⟨"base", "", some (.int 8000 .start), false, .start⟩]
  comments := []
  pragmas := []

/-- A template of which one parameter depends on the other one and on a variable, and which
instantiates another template. -/
def gatewayTemplate : Template where
  name := "gateway"
  parameters := [⟨"port", none, .start⟩,
    ⟨"admin", some (.binary .add (.reference "port" .start) (.reference "base" .start) .start),
      .start⟩]
  body := [.field ⟨"Admin", .reference "admin" .start, .start⟩,
    .instantiation ⟨"check", "probe", [⟨"port", .reference "admin" .start, .start⟩], {}⟩]
  span := {}

/-- One argument is given twice and another one matches no parameter. There are a variable and two
names of templates, and three expansions may nest. -/
theorem EvaluationOptions.evaluateDefinitions_macroObject_of_gateway :
    let t := Index.run {} [.add (.ofText "a.pcl") baseDocument]
    let o : EvaluationOptions := { maxDepth := 3 }
    let i : Instantiation := ⟨"web", "gateway",
      [⟨"port", .int 80 .start, .start⟩, ⟨"port", .int 81 .start, .start⟩,
        ⟨"extra", .int 1 .start, .start⟩], {}⟩
    ∃ c : Context, c.index = some t ∧ c.template? i.template = some gatewayTemplate ∧
      (∀ a ∈ argumentsOf (evaluate o) c i, a.value.isLiteral = true) ∧
      (∀ p, o.Reaches [] c [.instantiation i] p → p.stack ≠ [] → ∀ inner,
        p.context.template? p.instantiation.template = some inner →
          inner.name ≠ gatewayTemplate.name) ∧
      (∀ p, o.Reaches [] c [.instantiation i] p → ∀ inner,
        p.context.template? p.instantiation.template = some inner →
          inner.name ∈ ["gateway", "probe"]) ∧
      c.variableCount = 1 ∧
      evaluateDefinitions o c [.instantiation i] =
        evaluateDefinitions o c
          [macroObject (argumentsOf (evaluate o) c i) i gatewayTemplate] ∧
      (evaluateDefinitions o c [.instantiation i]).2 = c ∧
      evaluateDefinitions o c [.instantiation
          { i with arguments := gatewayTemplate.matching i.arguments }] =
        evaluateDefinitions o c [.instantiation i] := by
  intro t o i
  let c := ((Context.ofIndex t (some 1)).defineTemplate probeTemplate).defineTemplate
    gatewayTemplate
  have hgateway : c.template? "gateway" = some gatewayTemplate :=
    Context.template?_defineTemplate_self _ gatewayTemplate
  have hprobe : c.template? "probe" = some probeTemplate := by
    rw [Context.template?_defineTemplate_of_ne _ _ (by decide)]
    exact Context.template?_defineTemplate_self _ probeTemplate
  -- the inner instantiation comes up, and nothing inside it
  have hreach : ∀ p, o.Reaches [] c [.instantiation i] p →
      ∃ inner, p.context.template? p.instantiation.template = some inner ∧
        (p.stack = [] ∧ inner = gatewayTemplate ∨ inner = probeTemplate) := by
    intro p hp
    rcases hp.of_instantiation_cons hgateway with rfl | hp | hp
    · exact ⟨_, hgateway, Or.inl ⟨rfl, rfl⟩⟩
    · have hinner : (o.insideTemplate [] c i gatewayTemplate).template? "probe" =
          some probeTemplate := (Context.template?_inside ..).trans hprobe
      rcases (Reaches.field_cons_iff.mp hp).of_instantiation_cons hinner with
        rfl | hp | hp
      · exact ⟨_, hinner, Or.inr rfl⟩
      · exact absurd (Reaches.field_cons_iff.mp hp)
          Reaches.not_nil
      · exact absurd hp Reaches.not_nil
    · exact absurd hp Reaches.not_nil
  have hnever : ∀ p, o.Reaches [] c [.instantiation i] p → p.stack ≠ [] → ∀ inner,
      p.context.template? p.instantiation.template = some inner →
        inner.name ≠ gatewayTemplate.name := by
    intro p hp hstack inner hinner
    obtain ⟨inner', hinner', ⟨hnil, -⟩ | rfl⟩ := hreach p hp
    · exact absurd hnil hstack
    · obtain rfl := Option.some.inj (hinner.symm.trans hinner')
      decide
  have hnames : ∀ p, o.Reaches [] c [.instantiation i] p → ∀ inner,
      p.context.template? p.instantiation.template = some inner →
        inner.name ∈ ["gateway", "probe"] := by
    intro p hp inner hinner
    obtain ⟨inner', hinner', ⟨-, rfl⟩ | rfl⟩ := hreach p hp <;>
      · obtain rfl := Option.some.inj (hinner.symm.trans hinner')
        decide
  have hliteral : ∀ a ∈ argumentsOf (evaluate o) c i, a.value.isLiteral = true := by decide
  have hcount : c.variableCount = 1 := by decide +kernel
  exact ⟨c, rfl, hgateway, hliteral, hnever, hnames, hcount,
    evaluateDefinitions_macroObject o (fun t' ht' => ⟨{}, _, (Option.some.inj ht').symm⟩) hgateway
      hliteral hnever hnames (by rw [hcount]; decide)⟩

end SemanticIndex
