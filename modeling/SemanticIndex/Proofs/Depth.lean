import Mathlib.Data.List.Dedup
import SemanticIndex.Proofs.Expanding
import SemanticIndex.Proofs.Meaning
import SemanticIndex.Proofs.Normalization

/-!
# How Deep Expansions Nest

How many expansions may nest is irrelevant from a certain number on. No expansion is begun inside
itself, so no more can nest than there are variables and templates to expand
(`Sufficient.exists_succ`). Where as many may nest as there are, an expansion that is not begun is
one that is in progress, and never one too many. So two limits of at least that number make no
difference, to a name (`nameValue?_eq_of_sufficient`), an instantiation
(`instantiate_eq_of_sufficient`) or anything else (`evaluate_eq_of_nameCount_le`).

The number is that of the variables that nodes hold and of the names of templates that can come up
(`Context.nameCount`).
-/

namespace SemanticIndex

/-! ### What can be expanded -/

/-- The variables that nodes hold, each with its node. -/
def Index.heldVariables (t : Index) : List (NodeId × String) :=
  t.nodes.toList.flatMap fun (id, n) => n.summary.vars.keys.map (id, ·)

theorem Index.mem_heldVariables_iff {t : Index} {i : NodeId} {x : String} :
    (i, x) ∈ t.heldVariables ↔ t.HoldsVariable i x := by
  simp only [heldVariables, HoldsVariable, node?, List.mem_flatMap, List.mem_map, Prod.exists,
    Std.ExtTreeMap.mem_toList_iff_getElem?_eq_some, Std.ExtTreeMap.mem_keys,
    Std.ExtTreeMap.mem_iff_isSome_getElem?, Option.isSome_iff_exists, Prod.mk.injEq]
  constructor
  · rintro ⟨_, n, hn, _, ⟨v, hv⟩, rfl, rfl⟩
    exact ⟨n, v, hn, hv⟩
  · rintro ⟨n, v, hn, hv⟩
    exact ⟨i, n, hn, x, ⟨v, hv⟩, rfl, rfl⟩

namespace Definition

mutual

/-- The names of the templates that are defined in a definition, in the bodies of templates too. -/
def templateNames : Definition → List String
  | template name _ body _ => name :: templateNamesAll body
  | object _ body _ | loop _ _ _ body _ => templateNamesAll body
  | conditional _ thenBody elseBody _ => templateNamesAll thenBody ++ templateNamesAll elseBody
  | field _ | var _ | instantiation _ => []

/-- The names of the templates that are defined in a body. -/
def templateNamesAll : List Definition → List String
  | [] => []
  | d :: ds => templateNames d ++ templateNamesAll ds

end

theorem templateNamesAll_eq_flatMap (ds : List Definition) :
    templateNamesAll ds = ds.flatMap templateNames := by
  induction ds with
  | nil => rw [templateNamesAll, List.flatMap_nil]
  | cons d ds ih => rw [templateNamesAll, List.flatMap_cons, ih]

end Definition

/-- The name of the template, and those of the templates that are defined in its body. -/
def Template.names (template : Template) : List String :=
  template.name :: Definition.templateNamesAll template.body

namespace Context

/-- The templates that frames know and those that are registered in the index. -/
def templates (c : Context) : List Template :=
  c.frames.flatMap (·.templates.values) ++
    c.index.elim [] fun t => t.registrations.map Prod.snd

/-- The names of the templates that can come up when definitions are evaluated, each once. -/
def templateNames (c : Context) (ds : List Definition) : List String :=
  (c.templates.flatMap Template.names ++ Definition.templateNamesAll ds).dedup

/-- Number of the variables that nodes hold and of the names of templates that can come up when
definitions are evaluated. -/
def nameCount (c : Context) (ds : List Definition) : Nat :=
  c.index.elim 0 (·.heldVariables.length) + (c.templateNames ds).length

/-- What can be expanded when definitions are evaluated. -/
def expansions (c : Context) (ds : List Definition) : List Expansion :=
  (c.index.elim [] (·.heldVariables.map fun (id, x) => .var id x)) ++
    (c.templateNames ds).map .template

/-- There are as many possible expansions as names that count. -/
theorem length_expansions (c : Context) (ds : List Definition) :
    (c.expansions ds).length = c.nameCount ds := by
  cases h : c.index <;> simp [expansions, nameCount, h]

end Context

/-- The default to which a name leads is that of a variable that a node holds. -/
theorem Index.Built.holdsVariable_of_defaultOf? {t : Index} {L : Ledger} {lay : Layout}
    (h : t.Built L lay) {i owner : NodeId} {name x : String} {default : Value}
    (hdefault : t.defaultOf? i name = some (owner, x, default)) : t.HoldsVariable owner x := by
  obtain ⟨⟨owner, v⟩, hv, hdeclared⟩ := Option.bind_eq_some_iff.mp hdefault
  obtain ⟨default, -, heq⟩ := Option.map_eq_some_iff.mp hdeclared
  obtain ⟨hname, hholds, -⟩ := h.resolveVariable?_eq_some hv
  obtain ⟨rfl, rfl, rfl⟩ : _ ∧ _ ∧ _ := by simpa only [Prod.mk.injEq] using heq
  rwa [hname]

/-- A default to which a name leads is that of a variable held by the index. -/
theorem Index.Built.var_mem_of_defaultOf? {t : Index} {L : Ledger} {lay : Layout}
    (h : t.Built L lay) {i owner : NodeId} {name x : String} {default : Value}
    (hdefault : t.defaultOf? i name = some (owner, x, default)) :
    .var owner x ∈ t.heldVariables.map fun p => Expansion.var p.1 p.2 :=
  List.mem_map.mpr ⟨_, mem_heldVariables_iff.mpr (h.holdsVariable_of_defaultOf? hdefault), rfl⟩

/-! ### The expansions in progress -/

/-- Of the possible expansions some are in progress, each once, and as many more may begin as there
are others. -/
structure Sufficient (possible active : List Expansion) (budget : Nat) : Prop where
  nodup : active.Nodup
  subset : active ⊆ possible
  length_le : possible.length ≤ active.length + budget

/-- If a possible expansion is not in progress it may begin, and then it is so again. -/
theorem Sufficient.exists_succ {possible active : List Expansion} {budget : Nat}
    (h : Sufficient possible active budget) {e : Expansion} (he : e ∈ possible)
    (hnew : e ∉ active) : ∃ b, budget = b + 1 ∧ Sufficient possible (e :: active) b := by
  have hnodup : (e :: active).Nodup := List.nodup_cons.mpr ⟨hnew, h.nodup⟩
  have hsubset : e :: active ⊆ possible := List.cons_subset.mpr ⟨he, h.subset⟩
  -- there is one more in progress then, and there are no more of them than are possible
  have hle : (e :: active).length ≤ possible.length :=
    (List.subperm_of_subset hnodup hsubset).length_le
  have hlength := h.length_le
  rw [List.length_cons] at hle
  obtain ⟨b, rfl⟩ : ∃ b, budget = b + 1 := Nat.exists_eq_succ_of_ne_zero (by omega)
  refine ⟨b, rfl, hnodup, hsubset, ?_⟩
  rw [List.length_cons]
  omega

/-- As many expansions as there are variables are sufficient for names. -/
theorem Index.sufficient_of_length_le {t : Index} {depth : Nat}
    (h : t.heldVariables.length ≤ depth) :
    Sufficient (t.heldVariables.map fun p => .var p.1 p.2) [] depth :=
  ⟨List.nodup_nil, List.nil_subset _, by simpa using h⟩

namespace Context

variable {c : Context} {possible : List Expansion}

/-- All that can be expanded in the context is possible. -/
structure Within (c : Context) (possible : List Expansion) : Prop where
  var_mem : ∀ t, c.index = some t → ∀ i name owner x default,
    t.defaultOf? i name = some (owner, x, default) → .var owner x ∈ possible
  template_mem : ∀ template ∈ c.templates, ∀ x ∈ template.names, .template x ∈ possible

/-- Going inside adds no template. -/
theorem Within.enter (h : c.Within possible) (scope : Option NodeId) :
    (c.enter scope).Within possible := by
  refine ⟨h.var_mem, fun template hmem => h.template_mem template ?_⟩
  simpa [templates, frames, Context.enter, Frame.empty, values_eq_map_toList] using hmem

/-- Binding a name adds no template. -/
theorem Within.define (h : c.Within possible) (name : String) (v : Value) :
    (c.define name v).Within possible :=
  ⟨h.var_mem, h.template_mem⟩

/-- Neither does binding a name that may be absent. -/
theorem Within.defineOption (h : c.Within possible) (name : Option String) (v : Value) :
    (c.defineOption name v).Within possible := by
  cases name with
  | none => exact h
  | some name => exact h.define name v

/-- A template of a possible name may become known. -/
theorem Within.defineTemplate (h : c.Within possible) {template : Template}
    (hnames : ∀ x ∈ template.names, .template x ∈ possible) :
    (c.defineTemplate template).Within possible := by
  refine ⟨h.var_mem, fun template' hmem => ?_⟩
  have hmem' : template' = template ∨ template' ∈ c.templates := by
    simp only [templates, frames, Context.defineTemplate, List.flatMap_cons, List.mem_append,
      mem_values_iff, Std.ExtTreeMap.getElem?_insert] at hmem ⊢
    rcases hmem with (⟨k, hk⟩ | hmem) | hmem
    · split at hk
      · exact Or.inl (Option.some.inj hk).symm
      · exact Or.inr (Or.inl (Or.inl ⟨k, hk⟩))
    · exact Or.inr (Or.inl (Or.inr hmem))
    · exact Or.inr (Or.inr hmem)
  rcases hmem' with rfl | hmem'
  · exact hnames
  · exact h.template_mem template' hmem'

/-- A template that is found is known or registered. -/
theorem mem_templates_of_template? {name : String} {template : Template}
    (h : c.template? name = some template) : template ∈ c.templates := by
  rw [template?, Option.or_eq_some_iff] at h
  rw [templates, List.mem_append]
  rcases h with h | ⟨-, h⟩
  · obtain ⟨f, hf, hfound⟩ := List.exists_of_findSome?_eq_some h
    exact Or.inl (List.mem_flatMap.mpr ⟨f, hf, mem_values_iff.mpr ⟨name, hfound⟩⟩)
  · obtain ⟨t, ht, hfound⟩ := Option.bind_eq_some_iff.mp h
    obtain ⟨r, hr, rfl⟩ := Option.map_eq_some_iff.mp hfound
    have hmem : r ∈ t.registrations := (List.mem_filter.mp (List.mem_of_getLast? hr)).1
    rw [ht]
    exact Or.inr (List.mem_map_of_mem hmem)

end Context

/-! ### Values -/

section

variable {policy : ZeroDivision} {possible active : List Expansion} {budget budget' : Nat}
  {c : Context}

/-- In a node a name has the same value for any two sufficient numbers. What is in progress besides
variables does not matter. -/
theorem nameValue?_ofIndex_eq_of_sufficient {t : Index} {vars active' : List Expansion}
    (ht : ∀ i name owner x default, t.defaultOf? i name = some (owner, x, default) →
      .var owner x ∈ possible)
    (hactive : ∀ i x, .var i x ∈ active ↔ .var i x ∈ vars)
    (hactive' : ∀ i x, .var i x ∈ active' ↔ .var i x ∈ vars)
    (h : Sufficient possible vars budget) (h' : Sufficient possible vars budget') (i : NodeId)
    (name : String) :
    nameValue? policy budget active (.ofIndex t (some i)) name =
      nameValue? policy budget' active' (.ofIndex t (some i)) name := by
  -- by induction on the number, of which each expansion spends one on both sides
  induction budget using Nat.strongRecOn generalizing budget' active active' vars i name with
  | ind budget ih =>
    cases hdefault : t.defaultOf? i name with
    | none => rw [nameValue?_ofIndex_of_none hdefault, nameValue?_ofIndex_of_none hdefault]
    | some found =>
      obtain ⟨owner, x, default⟩ := found
      by_cases hvar : .var owner x ∈ vars
      · rw [nameValue?_ofIndex_of_active hdefault ((hactive owner x).mpr hvar),
          nameValue?_ofIndex_of_active hdefault ((hactive' owner x).mpr hvar)]
      · have hpossible := ht _ _ _ _ _ hdefault
        obtain ⟨b, rfl, hnext⟩ := h.exists_succ hpossible hvar
        obtain ⟨b', rfl, hnext'⟩ := h'.exists_succ hpossible hvar
        rw [nameValue?_ofIndex_of_not_active hdefault (mt (hactive owner x).mp hvar),
          nameValue?_ofIndex_of_not_active hdefault (mt (hactive' owner x).mp hvar), valueOf,
          valueOf, funext (ih b (Nat.lt_succ_self b) ?_ ?_ hnext hnext' owner)]
        · exact fun j y => by rw [List.mem_cons, List.mem_cons, hactive]
        · exact fun j y => by rw [List.mem_cons, List.mem_cons, hactive']

/-- With enough expansions left a name has the same value. -/
theorem nameValue?_eq_of_sufficient (hc : c.Within possible)
    (h : Sufficient possible active budget) (h' : Sufficient possible active budget')
    (name : String) :
    nameValue? policy budget active c name = nameValue? policy budget' active c name := by
  rw [nameValue?_eq_or policy budget, nameValue?_eq_or policy budget']
  refine congrArg _ (Option.bind_congr fun t ht => ?_)
  exact nameValue?_ofIndex_eq_of_sufficient (hc.var_mem t ht) (fun _ _ => Iff.rfl)
    (fun _ _ => Iff.rfl) h h' _ name

/-- With enough expansions left an expression has the same value. -/
theorem valueOf_eq_of_sufficient (hc : c.Within possible)
    (h : Sufficient possible active budget) (h' : Sufficient possible active budget') (v : Value) :
    valueOf policy budget active c v = valueOf policy budget' active c v := by
  rw [valueOf, valueOf, funext (nameValue?_eq_of_sufficient hc h h')]

end

/-! ### Definitions -/

section

variable {possible : List Expansion} {c : Context} {eval eval' : Context → Value → Value}
  {inst inst' : Context → Instantiation → Definition} {arguments : List Field}

/-- The results are the same, and what they bind is possible. -/
def SameWithin (possible : List Expansion) (r r' : List Definition × Context) : Prop :=
  r = r' ∧ r.2.Within possible

/-- What is so for each definition of a body is so for the body. -/
theorem sameWithin_expandAllWith_of {ds : List Definition}
    (h : ∀ d ∈ ds, ∀ c : Context, c.Within possible →
      SameWithin possible (expandWith eval inst c d) (expandWith eval' inst' c d))
    (hc : c.Within possible) :
    SameWithin possible (expandAllWith eval inst c ds) (expandAllWith eval' inst' c ds) := by
  induction ds generalizing c with
  | nil => exact ⟨rfl, hc⟩
  | cons d ds ih =>
    obtain ⟨hd, hds⟩ := List.forall_mem_cons.mp h
    obtain ⟨heq, hcontext⟩ := hd c hc
    obtain ⟨heq', hcontext'⟩ := ih hds hcontext
    rw [expandAllWith_cons, expandAllWith_cons, ← heq, ← heq']
    exact ⟨rfl, hcontext'⟩

variable (heval : ∀ (c : Context) (v : Value), c.Within possible → eval c v = eval' c v)
  (hinst : ∀ (c : Context) (i : Instantiation), c.Within possible → inst c i = inst' c i)

include heval

section

include hinst

/-- Two ways to evaluate that agree in all contexts in which no more than what is possible can be
expanded expand definitions to the same, if no other templates are defined in them. -/
theorem sameWithin_expandWith (d : Definition)
    (hd : ∀ x ∈ d.templateNames, .template x ∈ possible) (hc : c.Within possible) :
    SameWithin possible (expandWith eval inst c d) (expandWith eval' inst' c d) := by
  -- what is so for each definition of a body is so for the body
  have hbody : ∀ (ds : List Definition),
      (∀ d ∈ ds, ∀ {c : Context}, (∀ x ∈ d.templateNames, .template x ∈ possible) →
        c.Within possible →
          SameWithin possible (expandWith eval inst c d) (expandWith eval' inst' c d)) →
      (∀ x ∈ Definition.templateNamesAll ds, .template x ∈ possible) →
      ∀ {c : Context}, c.Within possible →
        SameWithin possible (expandAllWith eval inst c ds) (expandAllWith eval' inst' c ds) := by
    intro ds ih hds c hc
    rw [Definition.templateNamesAll_eq_flatMap] at hds
    refine sameWithin_expandAllWith_of (fun d hd c hc => ih d hd (fun x hx => ?_) hc) hc
    exact hds x (List.mem_flatMap.mpr ⟨d, hd, hx⟩)
  induction d using Definition.induction generalizing c with
  | field f => exact ⟨by rw [expandWith, expandWith, heval c _ hc], hc⟩
  | object name body span ih =>
    rw [Definition.templateNames] at hd
    rw [expandWith, expandWith, heval c name hc, (hbody body ih hd (hc.enter _)).1]
    exact ⟨rfl, hc⟩
  | var v =>
    rw [expandWith, expandWith]
    split
    · exact ⟨rfl, hc⟩
    · rw [heval c _ hc]
      exact ⟨rfl, hc.define _ _⟩
  | conditional condition thenBody elseBody span ih ih' =>
    rw [Definition.templateNames] at hd
    rw [expandWith, expandWith, heval c condition hc]
    split
    · exact hbody thenBody ih (fun x hx => hd x (List.mem_append_left _ hx)) hc
    · exact hbody elseBody ih' (fun x hx => hd x (List.mem_append_right _ hx)) hc
  | loop key value items body span ih =>
    rw [Definition.templateNames] at hd
    rw [expandWith, expandWith, heval c items hc]
    split
    · refine ⟨congrArg (·, c) (List.flatMap_congr fun round _ => ?_), hc⟩
      obtain ⟨item, index⟩ := round
      have hround : (((c.enter none).defineOption key (.int (Int64.ofNat index)
          .start)).defineOption value item).Within possible :=
        ((hc.enter none).defineOption key _).defineOption value item
      exact congrArg Prod.fst (hbody body ih hd hround).1
    · exact ⟨rfl, hc⟩
  | template name parameters body span => exact ⟨rfl, hc.defineTemplate hd⟩
  | instantiation i => exact ⟨by rw [expandWith, expandWith, hinst c i hc], hc⟩

/-- A body expands to the same if its templates are among the possible ones. -/
theorem sameWithin_expandAllWith (ds : List Definition)
    (hds : ∀ x ∈ Definition.templateNamesAll ds, .template x ∈ possible)
    (hc : c.Within possible) :
    SameWithin possible (expandAllWith eval inst c ds) (expandAllWith eval' inst' c ds) := by
  rw [Definition.templateNamesAll_eq_flatMap] at hds
  refine sameWithin_expandAllWith_of (fun d hd c hc => ?_) hc
  exact sameWithin_expandWith heval hinst d
    (fun x hx => hds x (List.mem_flatMap.mpr ⟨d, hd, hx⟩)) hc

end

/-- Arguments have the same values. -/
theorem argumentsOf_eq (hc : c.Within possible) (i : Instantiation) :
    argumentsOf eval c i = argumentsOf eval' c i := by
  rw [argumentsOf, argumentsOf]
  exact List.map_congr_left fun a _ => by rw [heval c a.value hc]

/-- An instantiation comes down to the same arguments. -/
theorem argumentsObject_eq (hc : c.Within possible) (i : Instantiation) :
    argumentsObject eval c i = argumentsObject eval' c i := by
  rw [argumentsObject, argumentsObject, argumentsOf_eq heval hc]

/-- A template is expanded in the same context. -/
theorem inside_eq (hc : c.Within possible) (arguments : List Field) (i : Instantiation)
    (template : Template) :
    c.inside eval arguments i template = c.inside eval' arguments i template ∧
      (c.inside eval arguments i template).Within possible := by
  -- parameters are bound one after the other, each in a context that is still within
  have hfold : ∀ (ps : List Parameter) (c : Context), c.Within possible →
      ps.foldl (bindParameter eval arguments) c = ps.foldl (bindParameter eval' arguments) c ∧
        (ps.foldl (bindParameter eval arguments) c).Within possible := by
    intro ps
    induction ps with
    | nil => exact fun c hc => ⟨rfl, hc⟩
    | cons p ps ih =>
      intro c hc
      have hbind : bindParameter eval arguments c p = bindParameter eval' arguments c p ∧
          (bindParameter eval arguments c p).Within possible := by
        unfold bindParameter
        split
        · exact ⟨rfl, hc.define _ _⟩
        · split
          · rw [heval c _ hc]
            exact ⟨rfl, hc.define _ _⟩
          · exact ⟨rfl, hc⟩
      rw [List.foldl_cons, List.foldl_cons, ← hbind.1]
      exact ih _ hbind.2
  exact hfold template.parameters _ (hc.enter _)

include hinst

/-- A template that is known expands to the same. -/
theorem templateObject_eq (hc : c.Within possible) {template : Template}
    (htemplate : template ∈ c.templates) (i : Instantiation) :
    templateObject eval inst arguments c i template =
      templateObject eval' inst' arguments c i template := by
  obtain ⟨heq, hinside⟩ := inside_eq heval hc arguments i template
  have hnames : ∀ x ∈ Definition.templateNamesAll template.body, .template x ∈ possible :=
    fun x hx => hc.template_mem template htemplate x (List.mem_cons_of_mem _ hx)
  rw [templateObject, templateObject, ← heq,
    (sameWithin_expandAllWith heval hinst template.body hnames hinside).1]

end

section

variable {policy : ZeroDivision} {possible active : List Expansion} {budget budget' : Nat}
  {c : Context}

/-- An instantiation is expanded to the same for any two sufficient numbers. -/
theorem instantiate_eq_of_sufficient (hc : c.Within possible)
    (h : Sufficient possible active budget) (h' : Sufficient possible active budget')
    (i : Instantiation) :
    instantiate policy budget active c i = instantiate policy budget' active c i := by
  have hvalue : ∀ {active : List Expansion} {budget budget' : Nat},
      Sufficient possible active budget → Sufficient possible active budget' →
        ∀ (c : Context) (v : Value), c.Within possible →
          valueOf policy budget active c v = valueOf policy budget' active c v :=
    fun h h' _ v hc => valueOf_eq_of_sufficient hc h h' v
  induction budget using Nat.strongRecOn generalizing budget' active c i with
  | ind budget ih =>
    cases htemplate : c.template? i.template with
    | none =>
      rw [instantiate_of_none htemplate, instantiate_of_none htemplate]
      exact argumentsObject_eq (hvalue h h') hc i
    | some template =>
      by_cases hactive : .template template.name ∈ active
      · rw [instantiate_of_active htemplate hactive, instantiate_of_active htemplate hactive]
        exact argumentsObject_eq (hvalue h h') hc i
      · -- one of the possible expansions begins, so that enough of both budgets is left
        have hmem := Context.mem_templates_of_template? htemplate
        have hpossible := hc.template_mem template hmem _ List.mem_cons_self
        have harguments := argumentsOf_eq (hvalue h h') hc i
        obtain ⟨b, rfl, hnext⟩ := h.exists_succ hpossible hactive
        obtain ⟨b', rfl, hnext'⟩ := h'.exists_succ hpossible hactive
        rw [instantiate_of_not_active htemplate hactive,
          instantiate_of_not_active htemplate hactive, harguments]
        exact templateObject_eq (hvalue hnext hnext')
          (fun c i hc => ih b (Nat.lt_succ_self b) hc hnext hnext' i) hc hmem i

end

namespace Context

variable {c : Context}

/-- What can be expanded in a context of an index that is built from a ledger is among the
expansions that are counted. -/
theorem within_expansions (hc : ∀ t, c.index = some t → ∃ options ops, t = Index.run options ops)
    (ds : List Definition) : c.Within (c.expansions ds) := by
  refine ⟨fun t ht i name owner x default hdefault => ?_, fun template hmem x hx => ?_⟩
  · obtain ⟨options, ops, rfl⟩ := hc t ht
    obtain ⟨lay, h, -⟩ := Index.exists_built_run options ops
    have hholds := h.holdsVariable_of_defaultOf? hdefault
    rw [expansions, ht]
    exact List.mem_append_left _ (List.mem_map.mpr ⟨_, Index.mem_heldVariables_iff.mpr hholds, rfl⟩)
  · refine List.mem_append_right _ (List.mem_map_of_mem (List.mem_dedup.mpr ?_))
    exact List.mem_append_left _ (List.mem_flatMap.mpr ⟨template, hmem, hx⟩)

/-- The templates named in a body are among its possible expansions. -/
theorem template_mem_expansions (c : Context) {ds : List Definition} :
    ∀ x ∈ Definition.templateNamesAll ds, .template x ∈ c.expansions ds := by
  intro x hx
  refine List.mem_append_right _ (List.mem_map_of_mem (List.mem_dedup.mpr ?_))
  exact List.mem_append_right _ hx

/-- Where as many expansions may nest as there are names, that is sufficient at the start. -/
theorem sufficient_of_nameCount_le {ds : List Definition} {depth : Nat}
    (h : c.nameCount ds ≤ depth) : Sufficient (c.expansions ds) [] depth where
  nodup := List.nodup_nil
  subset := List.nil_subset _
  length_le := by
    rw [length_expansions, List.length_nil]
    omega

end Context

/-- The limit is irrelevant from the number of names on. Where at least as many expansions may nest
as there are variables on the index and names of templates in the frames, in the index and in what
is evaluated, it makes no difference how many. This holds of any context of the index after a run,
and of any context without an index, whatever depends on itself in them. -/
theorem evaluate_eq_of_nameCount_le (o : EvaluationOptions) (depth : Nat) {c : Context}
    (hc : ∀ t, c.index = some t → ∃ options ops, t = Index.run options ops) :
    (∀ v, c.nameCount [] ≤ o.maxDepth → c.nameCount [] ≤ depth →
      evaluate { o with maxDepth := depth } c v = evaluate o c v) ∧
    ∀ ds, c.nameCount ds ≤ o.maxDepth → c.nameCount ds ≤ depth →
      evaluateDefinitions { o with maxDepth := depth } c ds = evaluateDefinitions o c ds := by
  refine ⟨fun v hmax hdepth => ?_, fun ds hmax hdepth => ?_⟩
  · exact valueOf_eq_of_sufficient (Context.within_expansions hc [])
      (Context.sufficient_of_nameCount_le hdepth) (Context.sufficient_of_nameCount_le hmax) v
  · have h := Context.sufficient_of_nameCount_le hdepth
    have h' := Context.sufficient_of_nameCount_le hmax
    exact (sameWithin_expandAllWith (fun _ v hc => valueOf_eq_of_sufficient hc h h' v)
      (fun _ i hc => instantiate_eq_of_sufficient hc h h' i) ds (c.template_mem_expansions)
      (Context.within_expansions hc ds)).1

/-- Three names are enough for two variables that depend on each other and a template that
instantiates itself. -/
theorem evaluate_eq_of_cyclic :
    let t := Index.run {} [.add (.ofText "a.pcl") cyclicDocument]
    let c := Context.ofIndex t (some Index.root)
    let ds := cyclicDocument.definitions
    let v := Value.atReference "b" .start
    c.nameCount ds = 3 ∧
      evaluate { maxDepth := 3 } c v = evaluate {} c v ∧
      evaluateDefinitions { maxDepth := 3 } c ds = evaluateDefinitions {} c ds := by
  intro t c ds v
  have hds : c.nameCount ds = 3 := by decide +kernel
  have hv : c.nameCount [] = 3 := by decide +kernel
  obtain ⟨hvalue, hdefinitions⟩ := evaluate_eq_of_nameCount_le {} 3 (c := c) fun t' ht' =>
    ⟨{}, _, (Option.some.inj ht').symm⟩
  refine ⟨hds, hvalue v ?_ ?_, hdefinitions ds ?_ ?_⟩ <;> simp [hds, hv]

end SemanticIndex
