import SemanticIndex.Evaluation.Evaluate
import SemanticIndex.Proofs.Sites

/-!
# What Evaluation Emits

Evaluating definitions picks branches, unrolls loops and expands instantiations. Outside the bodies
of expanded instantiations (`expandOutside`) it emits nothing that is not written somewhere in the
definitions (`Definition.emitsOnlyWritten`), and it emits whatever no conditional and no loop
encloses (`Definition.emitsUnenclosed`), whatever the context.

The rest of what it emits is the bodies of expanded instantiations (`FilledIn`).
-/

namespace SemanticIndex

/-! ### Outside the bodies of expanded instantiations -/

/-- Whether the name of an object is the same in every context: a bare name or a text. -/
def Value.isLiteralName : Value → Bool
  | .reference .. | .string .. => true
  | _ => false

/-- Whether an instantiation is expanded in a context. -/
def EvaluationOptions.expands (o : EvaluationOptions) (c : Context) (i : Instantiation) : Bool :=
  o.maxDepth != 0 && (c.template? i.template).isSome

/-- What an instantiation expands to, where it is left as it is if it has the body of a template. -/
def instantiateOutside (o : EvaluationOptions) (c : Context) (i : Instantiation) : Definition :=
  if o.expands c i then .instantiation i else instantiate o.zeroDivision o.maxDepth [] c i

/-- What definitions expand to in a context, with expanded instantiations left as they are. -/
def expandOutside (o : EvaluationOptions) (c : Context) (ds : List Definition) : List Definition :=
  (expandAllWith (evaluate o) (instantiateOutside o) c ds).1

/-- The second list is the first with a body for each instantiation. -/
inductive FilledIn : List Definition → List Definition → Prop
  | nil : FilledIn [] []
  | field {ds es : List Definition} (f : Field) (rest : FilledIn ds es) :
      FilledIn (.field f :: ds) (.field f :: es)
  | object {ds es body body' : List Definition} (name : Value) (span : Span)
      (inside : FilledIn body body') (rest : FilledIn ds es) :
      FilledIn (.object name body span :: ds) (.object name body' span :: es)
  | instantiation {ds es : List Definition} (i : Instantiation) (body : List Definition)
      (rest : FilledIn ds es) :
      FilledIn (.instantiation i :: ds) (.object (.reference i.name i.span.start) body i.span :: es)

/-! ### Contexts -/

/-- Going along two ways is going along one and from its end along the other. -/
theorem Index.follow?_append (t : Index) (i : NodeId) (names names' : List String) :
    t.follow? i (names ++ names') = (t.follow? i names).bind (t.follow? · names') := by
  induction names generalizing i with
  | nil => rfl
  | cons x names ih =>
    rw [List.cons_append, follow?, follow?, Option.bind_assoc]
    exact congrArg _ (funext fun j => ih j)

namespace Context

/-- `c'` is a context of the same index in the same scope. -/
structure Alike (c c' : Context) : Prop where
  index_eq : c'.index = c.index
  scope_eq : c'.scope? = c.scope?

/-- The context is one of the index `t` in the scope of the node to which `path` leads from
`top`. -/
structure StandsAt (c : Context) (t : Index) (top : NodeId) (path : List String) : Prop where
  index_eq : c.index = some t
  exists_scope : ∃ i, t.follow? top path = some i ∧ c.scope? = some i

variable {c c' c'' : Context} {t : Index} {top : NodeId} {path : List String}

protected theorem Alike.rfl : c.Alike c := ⟨rfl, rfl⟩

theorem Alike.trans (h : c.Alike c') (h' : c'.Alike c'') : c.Alike c'' :=
  ⟨h'.index_eq.trans h.index_eq, h'.scope_eq.trans h.scope_eq⟩

/-- Binding a name leaves the index and the scope as they are. -/
theorem alike_define (c : Context) (name : String) (v : Value) : c.Alike (c.define name v) :=
  ⟨rfl, rfl⟩

/-- So does binding a name that may be absent. -/
theorem alike_defineOption (c : Context) (name : Option String) (v : Value) :
    c.Alike (c.defineOption name v) := by
  cases name with
  | none => exact .rfl
  | some name => exact alike_define c name v

/-- A loop round has no scope of its own. -/
theorem alike_round (c : Context) (key value : Option String) (index item : Value) :
    c.Alike (((c.enter none).defineOption key index).defineOption value item) := by
  have hround : c.Alike (c.enter none) := ⟨rfl, rfl⟩
  exact (hround.trans (alike_defineOption _ key index)).trans (alike_defineOption _ value item)

/-- Where a context stands is a matter of its index and its scope. -/
theorem StandsAt.congr (h : c.StandsAt t top path) (hc : c.Alike c') : c'.StandsAt t top path := by
  obtain ⟨i, hi, hscope⟩ := h.exists_scope
  exact ⟨hc.index_eq.trans h.index_eq, i, hi, hc.scope_eq.trans hscope⟩

/-- Inside an object that has a node the context stands at this node. -/
theorem StandsAt.enter (h : c.StandsAt t top path) {x : String}
    (hx : ∃ i, t.follow? top (path ++ [x]) = some i) :
    (c.enter (c.childScope? x)).StandsAt t top (path ++ [x]) := by
  obtain ⟨i, hi, hscope⟩ := h.exists_scope
  obtain ⟨j, hj⟩ := hx
  have hchild : c.childScope? x = some j := by
    rw [Index.follow?_append, hi, Option.bind_some, Index.follow?] at hj
    rw [childScope?, h.index_eq, Option.bind_some, hscope, Option.bind_some, ← hj]
    cases t.child? i x <;> rfl
  rw [hchild]
  exact ⟨h.index_eq, j, hj, rfl⟩

end Context

section

variable {eval : Context → Value → Value} {inst : Context → Instantiation → Definition}
  {c : Context} {d : Definition} {ds : List Definition}

theorem expandAllWith_cons (eval : Context → Value → Value)
    (inst : Context → Instantiation → Definition) (c : Context) (d : Definition)
    (ds : List Definition) :
    expandAllWith eval inst c (d :: ds) =
      ((expandWith eval inst c d).1 ++
          (expandAllWith eval inst (expandWith eval inst c d).2 ds).1,
        (expandAllWith eval inst (expandWith eval inst c d).2 ds).2) := by
  rw [expandAllWith]

/-- Expanding a definition may bind names and no more. -/
theorem alike_expandWith (eval : Context → Value → Value)
    (inst : Context → Instantiation → Definition) (c : Context) (d : Definition) :
    c.Alike (expandWith eval inst c d).2 := by
  -- what is so for each definition of a body is so for the body
  have hbody : ∀ (ds : List Definition),
      (∀ d ∈ ds, ∀ c : Context, c.Alike (expandWith eval inst c d).2) → ∀ c : Context,
        c.Alike (expandAllWith eval inst c ds).2 := by
    intro ds ih
    induction ds with
    | nil => exact fun c => .rfl
    | cons d ds ihds =>
      intro c
      rw [expandAllWith_cons]
      obtain ⟨hd, hds⟩ := List.forall_mem_cons.mp ih
      exact (hd c).trans (ihds hds _)
  induction d using Definition.induction generalizing c with
  | field | object | instantiation => exact .rfl
  | template => exact ⟨rfl, rfl⟩
  | var v =>
    rw [expandWith]
    split
    · exact .rfl
    · exact c.alike_define v.name _
  | conditional condition thenBody elseBody span ih ih' =>
    rw [expandWith]
    split
    · exact hbody thenBody ih c
    · exact hbody elseBody ih' c
  | loop key value items body span ih =>
    rw [expandWith]
    split <;> exact .rfl

/-- What a body expands to comes from its definitions. -/
theorem exists_of_mem_expandAllWith {x : Definition}
    (hx : x ∈ (expandAllWith eval inst c ds).1) :
    ∃ d ∈ ds, ∃ c', c.Alike c' ∧ x ∈ (expandWith eval inst c' d).1 := by
  induction ds generalizing c with
  | nil => simp [expandAllWith] at hx
  | cons d ds ih =>
    rw [expandAllWith_cons] at hx
    rcases List.mem_append.mp hx with hx | hx
    · exact ⟨d, List.mem_cons_self, c, .rfl, hx⟩
    · obtain ⟨d', hd', c', hc', hx⟩ := ih hx
      exact ⟨d', List.mem_cons_of_mem _ hd', c', (alike_expandWith eval inst c d).trans hc', hx⟩

/-- And it is all that they expand to, each in its own context. -/
theorem exists_subset_expandAllWith (eval : Context → Value → Value)
    (inst : Context → Instantiation → Definition) (c : Context) (hd : d ∈ ds) :
    ∃ c', c.Alike c' ∧ (expandWith eval inst c' d).1 ⊆ (expandAllWith eval inst c ds).1 := by
  induction ds generalizing c with
  | nil => cases hd
  | cons d' ds ih =>
    rw [expandAllWith_cons]
    rcases List.mem_cons.mp hd with rfl | hd
    · exact ⟨c, .rfl, List.subset_append_left _ _⟩
    · obtain ⟨c', hc', hsub⟩ := ih (expandWith eval inst c d').2 hd
      exact ⟨c', (alike_expandWith eval inst c d').trans hc',
        List.Subset.trans hsub (List.subset_append_right _ _)⟩

end

/-! ### Emission -/

/-- The object that is declared here, by its declared name and its span. -/
def Site.object? (s : Site) : Option (String × Span) :=
  match s.definition with
  | .object name _ span => some (name.text, span)
  | .instantiation i => some (i.name, i.span)
  | _ => none

/-- What is emitted at `out` is a field of `s`, evaluated where `s` stands. -/
def Site.EmitsField (o : EvaluationOptions) (t : Index) (top : NodeId) (s out : Site) : Prop :=
  ∃ f ∈ s.fieldSites, ∃ c : Context, c.StandsAt t top s.path ∧ out.path = f.path ∧
    out.definition = .field { f.field with value := evaluate o c f.field.value }

/-- What is emitted at `out` is the object that is declared at `s`. -/
def Site.EmitsObject (s out : Site) : Prop :=
  out.path = s.path ∧ out.object? = s.object? ∧ s.object?.isSome = true

/-- If an object is declared here, its name is the same in every context, and it has a node. -/
structure Site.Settled (t : Index) (top : NodeId) (s : Site) : Prop where
  literal : ∀ name body span, s.definition = .object name body span → name.isLiteralName = true
  exists_node : ∀ p, s.objectPath? = some p → ∃ i, t.follow? top p = some i

/-- Something is emitted at `out` for what is written at `s`. -/
def Site.Emits (o : EvaluationOptions) (t : Index) (top : NodeId) (s out : Site) : Prop :=
  s.EmitsField o t top out ∨ s.EmitsObject out

/-- If a field stands here, or an object is declared, it is among what is emitted. -/
structure Site.EmittedIn (o : EvaluationOptions) (t : Index) (top : NodeId) (s : Site)
    (outs : List Site) : Prop where
  field : ∀ f, s.definition = .field f → ∃ out ∈ outs, s.EmitsField o t top out
  object : s.object?.isSome = true → ∃ out ∈ outs, s.EmitsObject out

theorem Site.EmittedIn.mono {o : EvaluationOptions} {t : Index} {top : NodeId} {s : Site}
    {outs outs' : List Site} (h : s.EmittedIn o t top outs) (hsub : outs ⊆ outs') :
    s.EmittedIn o t top outs' where
  field f hf := by
    obtain ⟨out, hout, hemits⟩ := h.field f hf
    exact ⟨out, hsub hout, hemits⟩
  object hs := by
    obtain ⟨out, hout, hemits⟩ := h.object hs
    exact ⟨out, hsub hout, hemits⟩

/-- A name that is literal is not evaluated, or evaluates to itself. -/
theorem evaluate_literalName {name : Value} (h : name.isLiteralName = true)
    (o : EvaluationOptions) (c : Context) :
    (if name.isReference then name else evaluate o c name) = name := by
  cases name with
  | reference => rfl
  | string => simp [Value.isReference, evaluate, valueOf, Value.reduce]
  | _ => cases h

/-- An instantiation that is not expanded has its arguments for a body. -/
theorem instantiateOutside_of_not_expands {o : EvaluationOptions} {c : Context}
    {i : Instantiation} (h : o.expands c i = false) :
    instantiateOutside o c i =
      .object (.reference i.name i.span.start) ((argumentsOf (evaluate o) c i).map .field)
        i.span := by
  rw [instantiateOutside, if_neg (Bool.eq_false_iff.mp h)]
  rw [EvaluationOptions.expands, Bool.and_eq_false_iff] at h
  unfold evaluate
  generalize o.maxDepth = depth at h ⊢
  -- either nothing may be expanded, or the template is not known
  cases depth with
  | zero => rw [instantiate]
  | succ budget =>
    have hnone : c.template? i.template = none := by simpa using h
    rw [instantiate, hnone]

namespace Definition

variable {o : EvaluationOptions} {t : Index} {top : NodeId} {path : List String} {b : Bool}
  {c : Context} {d : Definition} {ds : List Definition} {s out : Site}

/-- What the definition emits, in whatever context, comes from what is written in it. -/
def EmitsOnlyWritten (o : EvaluationOptions) (t : Index) (top : NodeId) (d : Definition) : Prop :=
  ∀ {path : List String} {b : Bool} {c : Context} {out : Site},
    (∀ s ∈ sites path b d, s.Settled t top) → c.StandsAt t top path →
    out ∈ sitesAll path false (expandWith (evaluate o) (instantiateOutside o) c d).1 →
    ∃ s ∈ sites path b d, s.Emits o t top out

/-- What no conditional and no loop of the definition encloses is emitted in every context. -/
def EmitsUnenclosed (o : EvaluationOptions) (t : Index) (top : NodeId) (d : Definition) : Prop :=
  ∀ {path : List String} {c : Context} {s : Site},
    (∀ s ∈ sites path false d, s.Settled t top) → c.StandsAt t top path →
    s ∈ sites path false d → s.enclosed = false →
    s.EmittedIn o t top (sitesAll path false
      (expandWith (evaluate o) (instantiateOutside o) c d).1)

/-- A body emits what its definitions emit. -/
theorem exists_site_of_mem_expandAllWith (h : ∀ d ∈ ds, d.EmitsOnlyWritten o t top)
    (hds : ∀ s ∈ sitesAll path b ds, s.Settled t top) (hc : c.StandsAt t top path)
    (hout : out ∈ sitesAll path false
      (expandAllWith (evaluate o) (instantiateOutside o) c ds).1) :
    ∃ s ∈ sitesAll path b ds, s.Emits o t top out := by
  obtain ⟨x, hx, hout⟩ := mem_sitesAll_iff.mp hout
  obtain ⟨d, hd, c', hc', hx⟩ := exists_of_mem_expandAllWith hx
  obtain ⟨s, hs, hemits⟩ := h d hd (fun s hs => hds s (mem_sitesAll_iff.mpr ⟨d, hd, hs⟩))
    (hc.congr hc') (mem_sitesAll_iff.mpr ⟨x, hx, hout⟩)
  exact ⟨s, mem_sitesAll_iff.mpr ⟨d, hd, hs⟩, hemits⟩

/-- What is so for each definition of a body is so for the body. -/
theorem emittedIn_expandAllWith (h : ∀ d ∈ ds, d.EmitsUnenclosed o t top)
    (hds : ∀ s ∈ sitesAll path false ds, s.Settled t top) (hc : c.StandsAt t top path)
    (hs : s ∈ sitesAll path false ds) (henclosed : s.enclosed = false) :
    s.EmittedIn o t top (sitesAll path false
      (expandAllWith (evaluate o) (instantiateOutside o) c ds).1) := by
  obtain ⟨d, hd, hs⟩ := mem_sitesAll_iff.mp hs
  obtain ⟨c', hc', hsub⟩ := exists_subset_expandAllWith (evaluate o) (instantiateOutside o) c hd
  refine (h d hd (fun s hs => hds s (mem_sitesAll_iff.mpr ⟨d, hd, hs⟩)) (hc.congr hc') hs
    henclosed).mono fun out hout => ?_
  obtain ⟨x, hx, hout⟩ := mem_sitesAll_iff.mp hout
  exact mem_sitesAll_iff.mpr ⟨x, hsub hx, hout⟩

theorem sitesAll_singleton (path : List String) (b : Bool) (d : Definition) :
    sitesAll path b [d] = sites path b d := by
  rw [sitesAll, sitesAll, List.append_nil]

/-- An instantiation emits its object and, if it is not expanded, its arguments. -/
theorem emits_of_mem_instantiateOutside {i : Instantiation} (hc : c.StandsAt t top path)
    (hout : out ∈ sites path false (instantiateOutside o c i)) :
    (⟨path, b, .instantiation i⟩ : Site).Emits o t top out := by
  cases hexpands : o.expands c i with
  | true =>
    rw [instantiateOutside, if_pos hexpands] at hout
    obtain rfl := List.mem_singleton.mp hout
    exact Or.inr ⟨rfl, rfl, rfl⟩
  | false =>
    -- the object itself, or an argument in its body
    rw [instantiateOutside_of_not_expands hexpands] at hout
    rcases List.mem_cons.mp hout with rfl | hout
    · exact Or.inr ⟨rfl, rfl, rfl⟩
    · obtain ⟨x, hx, hout⟩ := mem_sitesAll_iff.mp hout
      obtain ⟨f, hf, rfl⟩ := List.mem_map.mp hx
      obtain ⟨a, ha, rfl⟩ := List.mem_map.mp hf
      obtain rfl := List.mem_singleton.mp hout
      exact Or.inl ⟨_, List.mem_map.mpr ⟨a, ha, rfl⟩, c, hc, rfl, rfl⟩

/-- An expansion emits nothing that is not written. -/
theorem emitsOnlyWritten (o : EvaluationOptions) (t : Index) (top : NodeId) (d : Definition) :
    d.EmitsOnlyWritten o t top := by
  induction d using Definition.induction with
  | field f =>
    intro path b c out _ hc hout
    rw [expandWith, sitesAll_singleton] at hout
    obtain rfl := List.mem_singleton.mp hout
    exact ⟨_, self_mem_sites _ _ _, Or.inl ⟨_, List.mem_singleton_self _, c, hc, rfl, rfl⟩⟩
  | var v =>
    intro path b c out _ _ hout
    rw [expandWith] at hout
    split at hout <;> cases hout
  | template => intro path b c out _ _ hout; cases hout
  | object name body span ih =>
    intro path b c out hd hc hout
    -- a literal name is not evaluated, so the object goes to its own node
    have hself := hd _ (self_mem_sites path b (.object name body span))
    rw [expandWith, evaluate_literalName (hself.literal _ _ _ rfl), sitesAll_singleton] at hout
    rcases List.mem_cons.mp hout with rfl | hout
    · exact ⟨_, self_mem_sites _ _ _, Or.inr ⟨rfl, rfl, rfl⟩⟩
    · obtain ⟨s, hs, hemits⟩ := exists_site_of_mem_expandAllWith ih
        (fun s hs => hd s (List.mem_cons_of_mem _ hs)) (hc.enter (hself.exists_node _ rfl)) hout
      exact ⟨s, List.mem_cons_of_mem _ hs, hemits⟩
  | conditional condition thenBody elseBody span ih ih' =>
    intro path b c out hd hc hout
    rw [expandWith] at hout
    rw [sites] at hd ⊢
    split at hout
    · obtain ⟨s, hs, hemits⟩ := exists_site_of_mem_expandAllWith ih
        (fun s hs => hd s (List.mem_cons_of_mem _ (List.mem_append_left _ hs))) hc hout
      exact ⟨s, List.mem_cons_of_mem _ (List.mem_append_left _ hs), hemits⟩
    · obtain ⟨s, hs, hemits⟩ := exists_site_of_mem_expandAllWith ih'
        (fun s hs => hd s (List.mem_cons_of_mem _ (List.mem_append_right _ hs))) hc hout
      exact ⟨s, List.mem_cons_of_mem _ (List.mem_append_right _ hs), hemits⟩
  | loop key value items body span ih =>
    intro path b c out hd hc hout
    rw [expandWith] at hout
    rw [sites] at hd ⊢
    split at hout
    · -- what a round emits is written in the body, and all rounds have one body
      obtain ⟨x, hx, hout⟩ := mem_sitesAll_iff.mp hout
      obtain ⟨⟨item, index⟩, -, hx⟩ := List.mem_flatMap.mp hx
      obtain ⟨s, hs, hemits⟩ := exists_site_of_mem_expandAllWith ih
        (fun s hs => hd s (List.mem_cons_of_mem _ hs)) (hc.congr (c.alike_round key value _ item))
        (mem_sitesAll_iff.mpr ⟨x, hx, hout⟩)
      exact ⟨s, List.mem_cons_of_mem _ hs, hemits⟩
    · cases hout
  | instantiation i =>
    intro path b c out _ hc hout
    rw [expandWith, sitesAll_singleton] at hout
    exact ⟨_, self_mem_sites _ _ _, emits_of_mem_instantiateOutside hc hout⟩

/-- What neither is a field nor declares an object need not be emitted. -/
theorem emittedIn_of_none {outs : List Site} (hfield : ∀ f, s.definition ≠ .field f)
    (hobject : s.object? = none) : s.EmittedIn o t top outs where
  field f hf := absurd hf (hfield f)
  object hs := by
    rw [hobject] at hs
    cases hs

/-- An expansion emits all that stands outside of branches and loops. -/
theorem emitsUnenclosed (o : EvaluationOptions) (t : Index) (top : NodeId) (d : Definition) :
    d.EmitsUnenclosed o t top := by
  induction d using Definition.induction with
  | field f =>
    intro path c s _ hc hs _
    obtain rfl := List.mem_singleton.mp hs
    rw [expandWith, sitesAll_singleton]
    refine ⟨fun g hg => ?_, fun hs => nomatch hs⟩
    exact ⟨_, self_mem_sites _ _ _, ⟨_, List.mem_singleton_self _, c, hc, rfl, rfl⟩⟩
  | var | template =>
    intro path c s _ _ hs _
    obtain rfl := List.mem_singleton.mp hs
    exact emittedIn_of_none (fun _ => Definition.noConfusion) rfl
  | object name body span ih =>
    intro path c s hd hc hs hs'
    have hself := hd _ (self_mem_sites path false (.object name body span))
    rw [expandWith, evaluate_literalName (hself.literal _ _ _ rfl), sitesAll_singleton]
    rcases List.mem_cons.mp hs with rfl | hs
    · exact ⟨fun f hf => (nomatch hf), fun _ => ⟨_, self_mem_sites _ _ _, rfl, rfl, rfl⟩⟩
    · exact (emittedIn_expandAllWith ih (fun s hs => hd s (List.mem_cons_of_mem _ hs))
        (hc.enter (hself.exists_node _ rfl)) hs hs').mono (List.subset_cons_self _ _)
  | conditional condition thenBody elseBody span ih ih' =>
    intro path c s _ _ hs hs'
    rcases List.mem_cons.mp hs with rfl | hs
    · exact emittedIn_of_none (fun _ => Definition.noConfusion) rfl
    -- what a conditional or a loop holds is enclosed
    · rcases List.mem_append.mp hs with hs | hs <;> simp [enclosed_of_mem_sitesAll hs] at hs'
  | loop key value items body span ih =>
    intro path c s _ _ hs hs'
    rcases List.mem_cons.mp hs with rfl | hs
    · exact emittedIn_of_none (fun _ => Definition.noConfusion) rfl
    · simp [enclosed_of_mem_sitesAll hs] at hs'
  | instantiation i =>
    intro path c s _ _ hs _
    obtain rfl := List.mem_singleton.mp hs
    rw [expandWith, sitesAll_singleton]
    refine ⟨fun f hf => (nomatch hf), fun _ => ⟨_, self_mem_sites _ _ _, rfl, ?_, rfl⟩⟩
    cases hexpands : o.expands c i with
    | true => rw [instantiateOutside, if_pos hexpands]
    | false =>
      rw [instantiateOutside_of_not_expands hexpands]
      rfl

end Definition

/-! ### The bodies of expanded instantiations -/

namespace FilledIn

variable {ds ds' es es' : List Definition}

theorem append (h : FilledIn ds es) (h' : FilledIn ds' es') : FilledIn (ds ++ ds') (es ++ es') := by
  induction h with
  | nil => exact h'
  | field f _ ih => exact .field f ih
  | object name span inside _ _ ih => exact .object name span inside ih
  | instantiation i body _ ih => exact .instantiation i body ih

/-- Nothing is to be filled in in fields. -/
theorem fields (fs : List Field) : FilledIn (fs.map .field) (fs.map .field) := by
  induction fs with
  | nil => exact .nil
  | cons f fs ih => exact .field f ih

theorem flatMap {α : Type} {g g' : α → List Definition} (h : ∀ x, FilledIn (g x) (g' x))
    (xs : List α) : FilledIn (xs.flatMap g) (xs.flatMap g') := by
  induction xs with
  | nil => exact .nil
  | cons x xs ih =>
    rw [List.flatMap_cons, List.flatMap_cons]
    exact (h x).append ih

end FilledIn

/-- What an instantiation is expanded to is an object, or its body has been left out. -/
theorem filledIn_instantiate (o : EvaluationOptions) (c : Context) (i : Instantiation) :
    FilledIn [instantiateOutside o c i] [instantiate o.zeroDivision o.maxDepth [] c i] := by
  obtain ⟨body, hbody⟩ : ∃ body, instantiate o.zeroDivision o.maxDepth [] c i =
      .object (.reference i.name i.span.start) body i.span := by
    cases o.maxDepth <;> exact ⟨_, rfl⟩
  cases hexpands : o.expands c i with
  | true =>
    rw [instantiateOutside, if_pos hexpands, hbody]
    exact .instantiation i body .nil
  | false =>
    have hsame : instantiate o.zeroDivision o.maxDepth [] c i = instantiateOutside o c i := by
      rw [instantiateOutside, if_neg (Bool.eq_false_iff.mp hexpands)]
    rw [hsame, instantiateOutside_of_not_expands hexpands]
    exact .object _ _ (.fields _) .nil

/-- The results differ in no more than the bodies of expanded instantiations. -/
def FilledInResult (r r' : List Definition × Context) : Prop := FilledIn r.1 r'.1 ∧ r.2 = r'.2

section

variable {eval : Context → Value → Value} {inst inst' : Context → Instantiation → Definition}
  {c : Context} {ds : List Definition}

/-- What is so for each definition of a body is so for the body. -/
theorem filledIn_expandAllWith_of (h : ∀ d ∈ ds, ∀ c,
      FilledInResult (expandWith eval inst c d) (expandWith eval inst' c d)) :
    FilledInResult (expandAllWith eval inst c ds) (expandAllWith eval inst' c ds) := by
  induction ds generalizing c with
  | nil => exact ⟨.nil, rfl⟩
  | cons d ds ih =>
    obtain ⟨hd, hds⟩ := List.forall_mem_cons.mp h
    obtain ⟨hout, hcontext⟩ := hd c
    obtain ⟨hout', hcontext'⟩ := ih (c := (expandWith eval inst c d).2) hds
    rw [expandAllWith_cons, expandAllWith_cons, ← hcontext]
    exact ⟨hout.append hout', hcontext'⟩

/-- Other ways to expand instantiations do not change what is around them. -/
theorem filledIn_expandWith (h : ∀ c i, FilledIn [inst c i] [inst' c i]) (c : Context)
    (d : Definition) : FilledInResult (expandWith eval inst c d) (expandWith eval inst' c d) := by
  induction d using Definition.induction generalizing c with
  | field f => exact ⟨.field _ .nil, rfl⟩
  | var v =>
    rw [expandWith, expandWith]
    split <;> exact ⟨.nil, rfl⟩
  | template => exact ⟨.nil, rfl⟩
  | object name body span ih => exact ⟨.object _ _ (filledIn_expandAllWith_of ih).1 .nil, rfl⟩
  | conditional condition thenBody elseBody span ih ih' =>
    rw [expandWith, expandWith]
    split
    · exact filledIn_expandAllWith_of ih
    · exact filledIn_expandAllWith_of ih'
  | loop key value items body span ih =>
    rw [expandWith, expandWith]
    split
    · exact ⟨.flatMap (fun _ => (filledIn_expandAllWith_of ih).1) _, rfl⟩
    · exact ⟨.nil, rfl⟩
  | instantiation i => exact ⟨h c i, rfl⟩

end

/-- Evaluation fills bodies in for the instantiations that are expanded, and nothing else. -/
theorem filledIn_evaluateDefinitions (o : EvaluationOptions) (c : Context)
    (ds : List Definition) :
    FilledIn (expandOutside o c ds) (evaluateDefinitions o c ds).1 :=
  (filledIn_expandAllWith_of fun d _ c => filledIn_expandWith (filledIn_instantiate o) c d).1

end SemanticIndex
