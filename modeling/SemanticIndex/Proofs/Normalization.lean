import SemanticIndex.Proofs.Expanding
import SemanticIndex.Proofs.Runs

/-!
# Evaluation Normalizes

What evaluation gives has nothing left in it to evaluate. A value in normal form (`Value.Normal`)
is what it evaluates to where no name has a value, and definitions in normal form (`NormalForm`)
are fields and objects with such values. Where names are bound to normal forms (`Context.Normal`),
whatever is evaluated or expanded comes out in normal form, however deep expansions may nest and
whichever of them are cut off (`normal_valueOf`, `normalForm_expandAllWith`). Where nothing is
bound, evaluating once more in no context changes nothing (`evaluation_normalizes`).
-/

namespace SemanticIndex

variable {policy : ZeroDivision}

/-! ### Values -/

namespace Value

/-- What holds of a value if it holds of its operands and items holds of all values. -/
@[elab_as_elim]
theorem induction {motive : Value → Prop} (string : ∀ s quoted p, motive (.string s quoted p))
    (int : ∀ i p, motive (.int i p)) (float : ∀ x p, motive (.float x p))
    (bool : ∀ b p, motive (.bool b p)) (reference : ∀ name p, motive (.reference name p))
    (atReference : ∀ name p, motive (.atReference name p))
    (binary : ∀ o l r p, motive l → motive r → motive (.binary o l r p))
    (unary : ∀ o v p, motive v → motive (.unary o v p))
    (array : ∀ vs p, (∀ v ∈ vs, motive v) → motive (.array vs p)) (v : Value) : motive v :=
  @Value.rec motive (fun vs => ∀ v ∈ vs, motive v) string int float bool reference atReference
    binary unary array (fun _ h => absurd h List.not_mem_nil)
    (fun _ _ hv hvs => List.forall_mem_cons.mpr ⟨hv, hvs⟩) v

/-- The value is what it evaluates to where no name has a value. -/
def Normal (policy : ZeroDivision) (v : Value) : Prop := v.reduce policy (fun _ => none) = v

/-- Whether the value is a text, a number or a truth value. -/
def isLiteral : Value → Bool
  | string .. | int .. | float .. | bool .. => true
  | reference .. | atReference .. | binary .. | unary .. | array .. => false

/-- A literal is reduced to itself. -/
theorem reduce_literal {v : Value} (h : v.isLiteral = true) (policy : ZeroDivision)
    (resolve : String → Option Value) : v.reduce policy resolve = v := by
  cases v with
  | string | int | float | bool => rw [reduce]
  | reference | atReference | binary | unary | array => cases h

/-- A literal is normal. -/
theorem normal_literal {v : Value} (h : v.isLiteral = true) : v.Normal policy :=
  reduce_literal h policy _

end Value

/-- Division by zero results in a literal, if at all. -/
theorem isLiteral_of_result {zero w : Value} (hzero : zero.isLiteral = true)
    (h : policy.result zero = some w) : w.isLiteral = true := by
  cases policy with
  | zero =>
    obtain rfl := Option.some.inj h
    exact hzero
  | unevaluated => cases h

/-- Operators on integers result in literals. -/
theorem isLiteral_of_intResult {o : BinaryOperator} {l r : Int64} {p : Position} {w : Value}
    (h : intResult policy o l r p = some w) : w.isLiteral = true := by
  cases o with
  | and | or | concat => cases h
  | div | mod =>
    simp only [intResult_div, intResult_mod] at h
    split at h
    · exact isLiteral_of_result rfl h
    · cases h
      rfl
  | _ =>
    cases h
    rfl

/-- Operators on floating-point numbers result in literals. -/
theorem isLiteral_of_floatResult {o : BinaryOperator} {l r : Float} {p : Position} {w : Value}
    (h : floatResult policy o l r p = some w) : w.isLiteral = true := by
  cases o with
  | div | mod =>
    rw [floatResult] at h
    split at h
    · exact isLiteral_of_result rfl h
    · cases h
      rfl
  | and | or | concat | bitAnd | bitOr | bitXor | shiftLeft | shiftRight => cases h
  | _ =>
    cases h
    rfl

/-- Operators on truth values result in literals. -/
theorem isLiteral_of_boolResult {o : BinaryOperator} {l r : Bool} {p : Position} {w : Value}
    (h : boolResult o l r p = some w) : w.isLiteral = true := by
  cases o <;> cases h <;> rfl

/-- Operators on texts result in literals. -/
theorem isLiteral_of_stringResult {o : BinaryOperator} {l r : String} {p : Position} {w : Value}
    (h : stringResult o l r p = some w) : w.isLiteral = true := by
  cases o <;> cases h <;> rfl

/-- An operator never gives anything that could be evaluated further. -/
theorem isLiteral_of_binaryResult {o : BinaryOperator} {l r w : Value} {p : Position}
    (h : binaryResult policy o l r p = some w) : w.isLiteral = true := by
  unfold binaryResult at h
  split at h
  · obtain rfl := Option.some.inj h
    rfl
  · split at h
    · exact isLiteral_of_intResult h
    · exact isLiteral_of_boolResult h
    · exact isLiteral_of_stringResult h
    · split at h
      · exact isLiteral_of_floatResult h
      · cases h

/-- Signs result in literals. -/
theorem isLiteral_of_unaryResult {o : UnaryOperator} {v w : Value} {p : Position}
    (h : unaryResult o v p = some w) : w.isLiteral = true := by
  unfold unaryResult at h
  split at h <;> cases h <;> rfl

namespace Value

variable {resolve : String → Option Value}

/-- What stands for a name is in normal form, if it is the name itself or comes from a place where
all is in normal form. -/
theorem normal_getD {v : Value} {w : Option Value} (hw : ∀ w', w = some w' → w'.Normal policy)
    (hv : w = none → v.Normal policy) : (w.getD v).Normal policy := by
  cases w with
  | none => exact hv rfl
  | some w => exact hw w rfl

/-- Where names have values in normal form, every expression has. -/
theorem normal_reduce (hresolve : ∀ x w, resolve x = some w → w.Normal policy) (v : Value) :
    (v.reduce policy resolve).Normal policy := by
  induction v using Value.induction with
  | string | int | float | bool =>
    rw [reduce]
    exact normal_literal rfl
  | reference name p | atReference name p =>
    rw [reduce]
    exact normal_getD (hresolve _) fun _ => by rw [Normal, reduce, Option.getD_none]
  | binary o l r p hl hr =>
    rw [reduce]
    -- the operands are in normal form, so the operator has no result the second time either
    refine normal_getD (fun w hw => normal_literal (isLiteral_of_binaryResult hw)) fun hnone => ?_
    rw [Normal, reduce, hl, hr, hnone, Option.getD_none]
  | unary o v p hv =>
    rw [reduce]
    refine normal_getD (fun w hw => normal_literal (isLiteral_of_unaryResult hw)) fun hnone => ?_
    rw [Normal, reduce, hv, hnone, Option.getD_none]
  | array vs p ih =>
    rw [reduce, Normal, reduce, reduceAll_eq_map, reduceAll_eq_map, List.map_map]
    congr 1
    exact List.map_congr_left ih

end Value

/-! ### Contexts -/

namespace Context

/-- Names are bound to normal forms. -/
def Normal (policy : ZeroDivision) (c : Context) : Prop :=
  ∀ f ∈ c.frames, ∀ (x : String) (v : Value), f.bindings[x]? = some v → v.Normal policy

/-- No name is bound. -/
def Unbound (c : Context) : Prop := ∀ f ∈ c.frames, f.bindings = ∅

variable {c : Context} {name : String} {v : Value}

/-- A context that binds nothing is normal. -/
theorem Unbound.normal (h : c.Unbound) : c.Normal policy := by
  intro f hf x v hv
  simp [h f hf] at hv

/-- A context over an index binds nothing. -/
theorem unbound_ofIndex (t : Index) (scope : Option NodeId) : (ofIndex t scope).Unbound := by
  simp [Unbound, ofIndex, frames, Frame.empty]

/-- A normal context binds normal values. -/
theorem Normal.lookup? (h : c.Normal policy) (hv : c.lookup? name = some v) :
    v.Normal policy := by
  obtain ⟨f, hf, hv⟩ := List.exists_of_findSome?_eq_some hv
  exact h f hf _ v hv

/-- Going inside keeps a context normal. -/
theorem Normal.enter (h : c.Normal policy) (scope : Option NodeId) :
    (c.enter scope).Normal policy := by
  refine List.forall_mem_cons.mpr ⟨?_, h⟩
  simp [Context.enter, Frame.empty]

/-- Binding a normal value keeps a context normal. -/
theorem Normal.define (h : c.Normal policy) (hv : v.Normal policy) (name : String) :
    (c.define name v).Normal policy := by
  obtain ⟨hinner, houter⟩ := List.forall_mem_cons.mp h
  refine List.forall_mem_cons.mpr ⟨fun x w hw => ?_, houter⟩
  simp only [Context.define, Std.ExtTreeMap.getElem?_insert] at hw
  split at hw
  · obtain rfl := Option.some.inj hw
    exact hv
  · exact hinner x w hw

/-- So does binding it to a name that may be absent. -/
theorem Normal.defineOption (h : c.Normal policy) (hv : v.Normal policy) (name : Option String) :
    (c.defineOption name v).Normal policy := by
  cases name with
  | none => exact h
  | some name => exact h.define hv name

theorem Normal.defineTemplate (h : c.Normal policy) (template : Template) :
    (c.defineTemplate template).Normal policy :=
  List.forall_mem_cons.mpr (List.forall_mem_cons.mp h)

end Context

/-! ### Definitions -/

/-- The definitions are fields and objects, at every depth, and the values of fields and the names
of objects are in normal form. A bare name of an object is not evaluated. -/
inductive NormalForm (policy : ZeroDivision) : List Definition → Prop
  | nil : NormalForm policy []
  | field {ds : List Definition} (f : Field) (value : f.value.Normal policy)
      (rest : NormalForm policy ds) : NormalForm policy (.field f :: ds)
  | object {ds body : List Definition} (name : Value) (span : Span)
      (named : name.isReference = true ∨ name.Normal policy) (inside : NormalForm policy body)
      (rest : NormalForm policy ds) : NormalForm policy (.object name body span :: ds)

namespace NormalForm

variable {ds es : List Definition}

theorem append (h : NormalForm policy ds) (h' : NormalForm policy es) :
    NormalForm policy (ds ++ es) := by
  induction h with
  | nil => exact h'
  | field f value _ ih => exact .field f value ih
  | object name span named inside _ _ ih => exact .object name span named inside ih

theorem flatMap {α : Type} {g : α → List Definition} {xs : List α}
    (h : ∀ x ∈ xs, NormalForm policy (g x)) : NormalForm policy (xs.flatMap g) := by
  induction xs with
  | nil => exact .nil
  | cons x xs ih =>
    obtain ⟨hx, hxs⟩ := List.forall_mem_cons.mp h
    rw [List.flatMap_cons]
    exact hx.append (ih hxs)

theorem fields {fs : List Field} (h : ∀ f ∈ fs, f.value.Normal policy) :
    NormalForm policy (fs.map .field) := by
  induction fs with
  | nil => exact .nil
  | cons f fs ih =>
    obtain ⟨hf, hfs⟩ := List.forall_mem_cons.mp h
    exact .field f hf (ih hfs)

/-- At every depth there are fields and objects only. -/
theorem field_or_object (h : NormalForm policy ds) {path : List String} {b : Bool} {s : Site}
    (hs : s ∈ Definition.sitesAll path b ds) :
    (∃ f, s.definition = .field f) ∨ ∃ name body span, s.definition = .object name body span := by
  induction h generalizing path with
  | nil => cases hs
  | field f _ _ ih =>
    rcases List.mem_append.mp hs with hs | hs
    · obtain rfl := List.mem_singleton.mp hs
      exact Or.inl ⟨f, rfl⟩
    · exact ih hs
  | object name span _ _ _ ih ih' =>
    rcases List.mem_append.mp hs with hs | hs
    · rcases List.mem_cons.mp hs with rfl | hs
      · exact Or.inr ⟨name, _, span, rfl⟩
      · exact ih hs
    · exact ih' hs

end NormalForm

section

variable {eval : Context → Value → Value} {inst : Context → Instantiation → Definition}
  {c : Context} {ds : List Definition}

/-- What is so for each definition of a body is so for the body. -/
theorem normalForm_expandAllWith_of (h : ∀ d ∈ ds, ∀ c : Context, c.Normal policy →
      NormalForm policy (expandWith eval inst c d).1 ∧ (expandWith eval inst c d).2.Normal policy)
    (hc : c.Normal policy) :
    NormalForm policy (expandAllWith eval inst c ds).1 ∧
      (expandAllWith eval inst c ds).2.Normal policy := by
  induction ds generalizing c with
  | nil => exact ⟨.nil, hc⟩
  | cons d ds ih =>
    obtain ⟨hd, hds⟩ := List.forall_mem_cons.mp h
    obtain ⟨hout, hcontext⟩ := hd c hc
    obtain ⟨hout', hcontext'⟩ := ih hds hcontext
    rw [expandAllWith_cons]
    exact ⟨hout.append hout', hcontext'⟩

/-- If all values and all expanded instantiations come out in normal form, so does what a
definition expands to, and what it binds. -/
theorem normalForm_expandWith
    (heval : ∀ (c : Context) (v : Value), c.Normal policy → (eval c v).Normal policy)
    (hinst : ∀ (c : Context) (i : Instantiation), c.Normal policy → NormalForm policy [inst c i])
    (hc : c.Normal policy) (d : Definition) :
    NormalForm policy (expandWith eval inst c d).1 ∧
      (expandWith eval inst c d).2.Normal policy := by
  induction d using Definition.induction generalizing c with
  | field f =>
    rw [expandWith]
    exact ⟨.field _ (heval c f.value hc) .nil, hc⟩
  | object name body span ih =>
    have hnamed : (if name.isReference then name else eval c name).isReference = true ∨
        (if name.isReference then name else eval c name).Normal policy := by
      split
      · exact Or.inl ‹_›
      · exact Or.inr (heval c name hc)
    rw [expandWith]
    exact ⟨.object _ span hnamed
      (normalForm_expandAllWith_of (fun d hd c hc => ih d hd hc) (hc.enter _)).1 .nil, hc⟩
  | var v =>
    rw [expandWith]
    split
    · exact ⟨.nil, hc⟩
    · exact ⟨.nil, hc.define (heval c _ hc) v.name⟩
  | conditional condition thenBody elseBody span ih ih' =>
    rw [expandWith]
    split
    · exact normalForm_expandAllWith_of (fun d hd c hc => ih d hd hc) hc
    · exact normalForm_expandAllWith_of (fun d hd c hc => ih' d hd hc) hc
  | loop key value items body span ih =>
    have hitems : (eval c items).Normal policy := heval c items hc
    rw [expandWith]
    split
    · rename_i vs p harray
      -- the items of a normal form are normal forms, and so are the numbers of the rounds
      have hitem : ∀ v ∈ vs, v.Normal policy := by
        rw [harray, Value.Normal, Value.reduce, Value.reduceAll_eq_map, Value.array.injEq] at hitems
        exact List.map_inj_left.mp (hitems.1.trans vs.map_id.symm)
      refine ⟨.flatMap fun round hmem => ?_, hc⟩
      obtain ⟨item, index⟩ := round
      have hindex : (Value.int (Int64.ofNat index) .start).Normal policy := Value.normal_literal rfl
      have hround := ((hc.enter none).defineOption hindex key).defineOption
        (hitem item (List.fst_mem_of_mem_zipIdx hmem)) value
      exact (normalForm_expandAllWith_of (fun d hd c hc => ih d hd hc) hround).1
    · exact ⟨.nil, hc⟩
  | template => exact ⟨.nil, hc.defineTemplate _⟩
  | instantiation i => exact ⟨hinst c i hc, hc⟩

/-- A body expands to a normal form in a normal context, which stays normal. -/
theorem normalForm_expandAllWith
    (heval : ∀ (c : Context) (v : Value), c.Normal policy → (eval c v).Normal policy)
    (hinst : ∀ (c : Context) (i : Instantiation), c.Normal policy → NormalForm policy [inst c i])
    (hc : c.Normal policy) (ds : List Definition) :
    NormalForm policy (expandAllWith eval inst c ds).1 ∧
      (expandAllWith eval inst c ds).2.Normal policy :=
  normalForm_expandAllWith_of (fun d _ _ hc => normalForm_expandWith heval hinst hc d) hc

end

/-! ### Evaluation gives normal forms -/

/-- In a node a name has a value in normal form, if it has one. -/
theorem normal_nameValue?_ofIndex {t : Index} {i : NodeId} {name : String} {v : Value}
    {budget : Nat} {active : List Expansion}
    (hv : nameValue? policy budget active (.ofIndex t (some i)) name = some v) :
    v.Normal policy := by
  -- by induction on the budget, since a default may mention names again
  induction budget generalizing active i name v with
  | zero => simp [nameValue?_ofIndex_zero] at hv
  | succ budget ih =>
    rw [nameValue?_ofIndex_succ, Option.bind_eq_some_iff] at hv
    obtain ⟨⟨owner, x, default⟩, -, hv⟩ := hv
    simp only [Option.ite_none_left_eq_some, Option.some.injEq] at hv
    obtain ⟨-, rfl⟩ := hv
    exact Value.normal_reduce (fun _ _ hw => ih hw) default

/-- Names have normal values. -/
theorem normal_nameValue? {budget : Nat} {active : List Expansion} {c : Context} {name : String}
    {v : Value} (hc : c.Normal policy) (hv : nameValue? policy budget active c name = some v) :
    v.Normal policy := by
  rw [nameValue?_eq_or, Option.or_eq_some_iff] at hv
  rcases hv with hv | ⟨-, hv⟩
  · exact hc.lookup? hv
  · obtain ⟨t, -, hv⟩ := Option.bind_eq_some_iff.mp hv
    exact normal_nameValue?_ofIndex hv

/-- Expressions have normal values. -/
theorem normal_valueOf (budget : Nat) (active : List Expansion) {c : Context}
    (hc : c.Normal policy) (v : Value) : (valueOf policy budget active c v).Normal policy :=
  Value.normal_reduce (fun _ _ => normal_nameValue? hc) v

section

variable {eval : Context → Value → Value} {arguments : List Field} {c : Context}
  (heval : ∀ (c : Context) (v : Value), c.Normal policy → (eval c v).Normal policy)
  (hc : c.Normal policy)

include heval hc

/-- Arguments are evaluated to normal values. -/
theorem normal_argumentsOf (i : Instantiation) :
    ∀ a ∈ argumentsOf eval c i, a.value.Normal policy := by
  intro a ha
  obtain ⟨b, -, rfl⟩ := List.mem_map.mp ha
  exact heval c b.value hc

/-- An object made of arguments is in normal form. -/
theorem normalForm_argumentsObject (i : Instantiation) :
    NormalForm policy [argumentsObject eval c i] :=
  .object _ _ (Or.inl rfl) (.fields (normal_argumentsOf heval hc i)) .nil

/-- Binding a parameter keeps a context normal. -/
theorem normal_bindParameter (harguments : ∀ a ∈ arguments, a.value.Normal policy)
    (p : Parameter) : (bindParameter eval arguments c p).Normal policy := by
  unfold bindParameter
  split
  · rename_i a ha
    exact hc.define (harguments a (List.mem_of_find?_eq_some ha)) p.name
  · split
    · exact hc.define (heval c _ hc) p.name
    · exact hc

omit hc in
/-- So does binding all of them. -/
theorem normal_foldl_bindParameter (harguments : ∀ a ∈ arguments, a.value.Normal policy)
    (ps : List Parameter) (hc : c.Normal policy) :
    (ps.foldl (bindParameter eval arguments) c).Normal policy := by
  induction ps generalizing c with
  | nil => exact hc
  | cons p ps ih => exact ih (normal_bindParameter heval hc harguments p)

/-- An object made of a template is in normal form. -/
theorem normalForm_templateObject {inst : Context → Instantiation → Definition}
    (hinst : ∀ (c : Context) (i : Instantiation), c.Normal policy → NormalForm policy [inst c i])
    (harguments : ∀ a ∈ arguments, a.value.Normal policy) (i : Instantiation)
    (template : Template) : NormalForm policy [templateObject eval inst arguments c i template] :=
  .object _ _ (Or.inl rfl)
    (normalForm_expandAllWith heval hinst (normal_foldl_bindParameter heval harguments _
      (hc.enter _)) template.body).1 .nil

end

/-- An instantiation is expanded to a normal form. -/
theorem normalForm_instantiate (budget : Nat) (active : List Expansion) {c : Context}
    (hc : c.Normal policy) (i : Instantiation) :
    NormalForm policy [instantiate policy budget active c i] := by
  have hvalue : ∀ (budget : Nat) (active : List Expansion) (c : Context) (v : Value),
      c.Normal policy → (valueOf policy budget active c v).Normal policy :=
    fun budget active _ v hc => normal_valueOf budget active hc v
  induction budget generalizing active c i with
  | zero =>
    rw [instantiate_zero]
    exact normalForm_argumentsObject (hvalue 0 active) hc i
  | succ budget ih =>
    -- the template is not known, or being expanded already, or next to be expanded
    cases htemplate : c.template? i.template with
    | none =>
      rw [instantiate_of_none htemplate]
      exact normalForm_argumentsObject (hvalue _ active) hc i
    | some template =>
      by_cases hactive : .template template.name ∈ active
      · rw [instantiate_of_active htemplate hactive]
        exact normalForm_argumentsObject (hvalue _ active) hc i
      · rw [instantiate_of_not_active htemplate hactive]
        exact normalForm_templateObject (hvalue budget _) hc (fun c i hc => ih _ hc i)
          (normal_argumentsOf (hvalue _ active) hc i) i template

/-- Definitions expand to a normal form. -/
theorem normalForm_evaluateDefinitions (o : EvaluationOptions) {c : Context}
    (hc : c.Normal o.zeroDivision) (ds : List Definition) :
    NormalForm o.zeroDivision (evaluateDefinitions o c ds).1 :=
  (normalForm_expandAllWith (fun _ v hc => normal_valueOf _ _ hc v)
    (fun _ i hc => normalForm_instantiate _ _ hc i) hc ds).1

/-! ### Normal forms evaluate to themselves -/

section

variable {budget : Nat} {active : List Expansion} {c : Context}

/-- Going inside binds nothing. -/
theorem Context.Unbound.enter (h : c.Unbound) (scope : Option NodeId) :
    (c.enter scope).Unbound :=
  List.forall_mem_cons.mpr ⟨rfl, h⟩

/-- Without bindings and without an index no name has a value. -/
theorem nameValue?_of_unbound (hindex : c.index = none) (hc : c.Unbound) (name : String) :
    nameValue? policy budget active c name = none := by
  have hlookup : c.lookup? name = none := by
    refine List.findSome?_eq_none_iff.mpr fun f hf => ?_
    simp [hc f hf]
  rw [nameValue?_eq_or, hlookup, hindex]
  rfl

/-- A normal value is its own value where nothing is bound. -/
theorem valueOf_of_unbound (hindex : c.index = none) (hc : c.Unbound) {v : Value}
    (hv : v.Normal policy) : valueOf policy budget active c v = v := by
  have hname : nameValue? policy budget active c = fun _ => none :=
    funext fun name => nameValue?_of_unbound hindex hc name
  rw [valueOf, hname, hv]

/-- Without bindings and without an index, definitions in normal form expand to themselves. -/
theorem NormalForm.expandAllWith_eq {ds : List Definition} (h : NormalForm policy ds)
    (inst : Context → Instantiation → Definition) (hindex : c.index = none) (hc : c.Unbound) :
    expandAllWith (valueOf policy budget active) inst c ds = (ds, c) := by
  induction h generalizing c with
  | nil => rw [expandAllWith]
  | field f value _ ih =>
    rw [expandAllWith_cons, expandWith, valueOf_of_unbound hindex hc value, ih hindex hc]
    rfl
  | object name span named _ _ ih ih' =>
    have hname : (if name.isReference then name else valueOf policy budget active c name) = name :=
      ite_eq_left_iff.mpr fun hnot =>
        valueOf_of_unbound hindex hc (named.resolve_left hnot)
    rw [expandAllWith_cons, expandWith, hname, ih (c := c.enter _) hindex (hc.enter _),
      ih' hindex hc]
    rfl

end

/-- Evaluation normalizes. From a context in which no name is bound, over whatever index and in
whatever scope, definitions expand to fields and objects only, at every depth, and expanding these
once more, without an index, gives the same definitions and binds nothing; and the value of an
expression evaluates to itself. -/
theorem evaluation_normalizes (o : EvaluationOptions) {c : Context} (hc : c.Unbound)
    (ds : List Definition) (v : Value) :
    (∀ s ∈ Definition.sitesAll [] false (evaluateDefinitions o c ds).1,
      (∃ f, s.definition = .field f) ∨ ∃ name body span, s.definition = .object name body span) ∧
    evaluateDefinitions o .bare (evaluateDefinitions o c ds).1 =
      ((evaluateDefinitions o c ds).1, .bare) ∧
    evaluate o .bare (evaluate o c v) = evaluate o c v := by
  have hbare : Context.bare.Unbound := List.forall_mem_singleton.mpr rfl
  have hout := normalForm_evaluateDefinitions o hc.normal ds
  exact ⟨fun s hs => hout.field_or_object hs, hout.expandAllWith_eq _ rfl hbare,
    valueOf_of_unbound rfl hbare (normal_valueOf _ _ hc.normal v)⟩

/-- A file with two variables whose defaults mention each other, a template that instantiates
itself, and a loop over numbers that are worked out from the variables. -/
def cyclicDocument : Document where
  package := none
  definitions := [
    .var ⟨"a", "", some (.binary .add (.atReference "b" .start) (.int 1 .start) .start), false,
      .start⟩,
    .var ⟨"b", "", some (.atReference "a" .start), false, .start⟩,
    .template "tree" [⟨"size", none, .start⟩] [.field ⟨"height", .reference "size" .start, .start⟩,
      .instantiation ⟨"child", "tree", [], {}⟩] {},
    .instantiation ⟨"oak", "tree", [⟨"size", .int 3 .start, .start⟩], {}⟩,
    .loop none (some "n") (.array [.reference "a" .start, .reference "leaf" .start] .start)
      [.field ⟨"grown", .binary .add (.reference "n" .start) (.int 2 .start) .start, .start⟩] {}]
  comments := []
  pragmas := []

/-- Cycles and names without values end in normal forms too. -/
theorem evaluation_normalizes_of_cyclic :
    let t := Index.run {} [.add (.ofText "a.pcl") cyclicDocument]
    let c := Context.ofIndex t (some Index.root)
    let ds := cyclicDocument.definitions
    let v := Value.atReference "b" .start
    c.Unbound ∧
      (∀ s ∈ Definition.sitesAll [] false (evaluateDefinitions {} c ds).1,
        (∃ f, s.definition = .field f) ∨
          ∃ name body span, s.definition = .object name body span) ∧
      evaluateDefinitions {} .bare (evaluateDefinitions {} c ds).1 =
        ((evaluateDefinitions {} c ds).1, .bare) ∧
      evaluate {} .bare (evaluate {} c v) = evaluate {} c v := by
  intro t c ds v
  have hc : c.Unbound := Context.unbound_ofIndex t _
  exact ⟨hc, evaluation_normalizes {} hc ds v⟩

end SemanticIndex
