import SemanticIndex.Proofs.Normalization

/-!
# Evaluators

An evaluator keeps one list of the expansions in progress for all that it evaluates. It counts how
deep it is, begins no expansion at the greatest depth or while the same one is in progress, and
notes one before it expands and strikes it off afterwards (`Evaluating.expand`). Nothing else keeps
it from expanding for ever, and what it expands may be larger than what it expands it for. So how
many evaluations may stand inside each other is an argument here, the fuel, and an evaluator that
runs out of it has no result.

Still, every evaluation ends (`evaluating_ends`): there is enough fuel, beyond which it makes no
difference. While the evaluation goes on, no expansion is in progress twice and there are as many as
it is deep (`Call.IsDisciplined`), so that what is left to the greatest depth
(`EvaluationOptions.HasRoom`) bounds the recursion after all. Each evaluation inside leaves the list
as it has found it, and so an evaluator gives, one after the other, the results of fresh ones.
-/

namespace SemanticIndex

/-- One evaluation that has ended: how deep it was, and which expansions were in progress when it
began and when it ended, the latest one first. -/
structure Call where
  depth : Nat
  before : List Expansion
  after : List Expansion

/-- What an evaluator keeps. -/
structure Evaluator where
  /-- The expansions in progress, the latest one first. -/
  active : List Expansion
  /-- All evaluations that have ended, the latest one first. -/
  calls : List Call

/-- An evaluator that has evaluated nothing. -/
def Evaluator.fresh : Evaluator := ⟨[], []⟩

/-- A computation of an evaluator. It has no result if it runs out of fuel. -/
abbrev Evaluating (α : Type) := StateT Evaluator Option α

namespace Evaluating

/-- One evaluation at a depth. -/
abbrev call {α : Type} (depth : Nat) (body : Evaluating α) : Evaluating α := do
  let before := (← get).active
  let a ← body
  modify fun e => { e with calls := ⟨depth, before, e.active⟩ :: e.calls }
  return a

/-- Notes the expansion while `body` runs. Nothing is done if it is already in progress. -/
abbrev expand {α : Type} (expansion : Expansion) (body : Evaluating α) :
    Evaluating (Option α) := do
  if expansion ∈ (← get).active then
    return none
  else
    modify fun e => { e with active := expansion :: e.active }
    let a ← body
    modify fun e => { e with active := e.active.tail }
    return some a

mutual

/-- Evaluates an expression. -/
def value (o : EvaluationOptions) : Nat → Nat → Context → Value → Evaluating Value
  | 0, _, _, _ => failure
  | fuel + 1, depth, c, v => call depth do
    match v with
    | .string .. | .int .. | .float .. | .bool .. => return v
    | .reference name _ => return (← name? o fuel depth c (variableName name)).getD v
    | .atReference name _ => return (← name? o fuel depth c (variableName name)).getD v
    | .binary operator left right p =>
      let left ← value o fuel depth c left
      let right ← value o fuel depth c right
      return (binaryResult o.zeroDivision operator left right p).getD
        (.binary operator left right p)
    | .unary operator operand p =>
      let operand ← value o fuel depth c operand
      return (unaryResult operator operand p).getD (.unary operator operand p)
    | .array items p => return .array (← items.mapM fun item => value o fuel depth c item) p

/-- Finds out the value of a name. -/
def name? (o : EvaluationOptions) : Nat → Nat → Context → String → Evaluating (Option Value)
  | 0, _, _, _ => failure
  | fuel + 1, depth, c, name => call depth do
    match c.lookup? name with
    | some v => return some v
    | none =>
      match c.index with
      | none => return none
      | some t =>
        if o.maxDepth ≤ depth then
          return none
        else
          match t.defaultOf? (c.scope?.getD Index.root) name with
          | none => return none
          | some (owner, x, default) =>
            expand (.var owner x) <| call (depth + 1) <|
              value o fuel (depth + 1) (.ofIndex t (some owner)) default

end

/-- Evaluates the name of an object. A bare name stays. -/
def objectName (o : EvaluationOptions) (fuel depth : Nat) (c : Context) (name : Value) :
    Evaluating Value :=
  if name.isReference then return name else value o fuel depth c name

/-- Evaluates the arguments of an instantiation. -/
def arguments (o : EvaluationOptions) (fuel depth : Nat) (c : Context) (i : Instantiation) :
    Evaluating (List Field) :=
  i.arguments.mapM fun a => do
    return { a with value := ← value o fuel depth c a.value }

/-- Binds a parameter to the first argument of its name, else to its evaluated default, else not
at all. -/
def parameter (o : EvaluationOptions) (fuel depth : Nat) (arguments : List Field) (c : Context)
    (p : Parameter) : Evaluating Context :=
  match arguments.find? (·.name == p.name) with
  | some a => return c.define p.name a.value
  | none =>
    match p.default with
    | some default => return c.define p.name (← value o fuel depth c default)
    | none => return c

mutual

/-- Evaluates a definition. The context is given back with what the definition binds. -/
def definition (o : EvaluationOptions) :
    Nat → Nat → Context → Definition → Evaluating (List Definition × Context)
  | 0, _, _, _ => failure
  | fuel + 1, depth, c, d => call depth do
    match d with
    | .field f => return ([.field { f with value := ← value o fuel depth c f.value }], c)
    | .object name body span =>
      let name ← objectName o fuel depth c name
      let result ← definitions o fuel depth (c.enter (c.childScope? name.text)) body
      return ([.object name result.1 span], c)
    | .var v =>
      match v.default with
      | none => return ([], c)
      | some default => return ([], c.define v.name (← value o fuel depth c default))
    | .conditional condition thenBody elseBody _ =>
      let condition ← value o fuel depth c condition
      if condition.holds then
        definitions o fuel depth c thenBody
      else
        definitions o fuel depth c elseBody
    | .loop key item items body _ =>
      match ← value o fuel depth c items with
      | .array values _ =>
        let rounds ← values.zipIdx.mapM fun (v, index) => do
          let round := (c.enter none).defineOption key (.int (Int64.ofNat index) .start)
          definitions o fuel depth (round.defineOption item v) body
        return (rounds.flatMap Prod.fst, c)
      | _ => return ([], c)
    | .template name parameters body span =>
      return ([], c.defineTemplate ⟨name, parameters, body, span⟩)
    | .instantiation i => return ([← instantiation o fuel depth c i], c)

/-- Evaluates the definitions of a body, each in the context after the one before it. -/
def definitions (o : EvaluationOptions) :
    Nat → Nat → Context → List Definition → Evaluating (List Definition × Context)
  | 0, _, _, _ => failure
  | fuel + 1, depth, c, ds => call depth <|
    ds.foldlM (fun r d => return (← definition o fuel depth r.2 d).map (r.1 ++ ·) id) ([], c)

/-- Evaluates an instantiation to an object. -/
def instantiation (o : EvaluationOptions) :
    Nat → Nat → Context → Instantiation → Evaluating Definition
  | 0, _, _, _ => failure
  | fuel + 1, depth, c, i => call depth do
    let arguments ← arguments o fuel depth c i
    let body? ← templateBody? o fuel depth c i arguments
    return .object (.reference i.name i.span.start) (body?.getD (arguments.map .field)) i.span

/-- Expands the template of an instantiation, if it may be expanded. -/
def templateBody? (o : EvaluationOptions) :
    Nat → Nat → Context → Instantiation → List Field → Evaluating (Option (List Definition))
  | 0, _, _, _, _ => failure
  | fuel + 1, depth, c, i, arguments => call depth do
    match c.template? i.template with
    | none => return none
    | some template =>
      if o.maxDepth ≤ depth then
        return none
      else
        expand (.template template.name) <| call (depth + 1) do
          let inner ← template.parameters.foldlM (parameter o fuel (depth + 1) arguments)
            (c.enter (c.childScope? i.name))
          return (← definitions o fuel (depth + 1) inner template.body).1

end

end Evaluating

/-! ### Discipline -/

/-- No expansion is in progress twice, there are as many as the evaluation is deep, which is no
deeper than allowed, and the evaluation leaves them as it has found them. -/
structure Call.IsDisciplined (limit : Nat) (call : Call) : Prop where
  nodup : call.before.Nodup
  length_eq : call.before.length = call.depth
  depth_le : call.depth ≤ limit
  after_eq : call.after = call.before

/-- As long as no more than these expansions are in progress, `budget` more may begin. -/
structure EvaluationOptions.HasRoom (o : EvaluationOptions) (budget : Nat)
    (active : List Expansion) : Prop where
  nodup : active.Nodup
  length_add : active.length + budget = o.maxDepth

variable {o : EvaluationOptions} {budget : Nat} {active : List Expansion} {c : Context}

namespace EvaluationOptions.HasRoom

theorem nil (o : EvaluationOptions) : o.HasRoom o.maxDepth [] := ⟨.nil, Nat.zero_add _⟩

/-- No more expansions are in progress than may be. -/
theorem length_le (h : o.HasRoom budget active) : active.length ≤ o.maxDepth :=
  h.length_add ▸ Nat.le_add_right _ _

/-- Where there is no room left, as many expansions are in progress as may be. -/
theorem maxDepth_le (h : o.HasRoom 0 active) : o.maxDepth ≤ active.length :=
  Nat.le_of_eq h.length_add.symm

/-- Where there is room left, another expansion may begin. -/
theorem not_maxDepth_le (h : o.HasRoom (budget + 1) active) : ¬ o.maxDepth ≤ active.length := by
  have := h.length_add
  omega

/-- An expansion that begins takes up room. -/
theorem cons {e : Expansion} (h : o.HasRoom (budget + 1) active) (he : e ∉ active) :
    o.HasRoom budget (e :: active) := by
  refine ⟨List.nodup_cons.mpr ⟨he, h.nodup⟩, ?_⟩
  rw [List.length_cons, ← h.length_add]
  omega

end EvaluationOptions.HasRoom

/-- With these expansions in progress, the computation ends with `a` and with the same ones in
progress, and all evaluations in it are disciplined. With enough fuel it makes no difference how
much there is. -/
def Ends {α : Type} (limit : Nat) (active : List Expansion) (m : Nat → Evaluating α) (a : α) :
    Prop :=
  ∃ new : List Call, (∀ call ∈ new, call.IsDisciplined limit) ∧
    ∃ enough, ∀ fuel, enough ≤ fuel → ∀ calls,
      (m fuel).run ⟨active, calls⟩ = some (a, ⟨active, new ++ calls⟩)

namespace Ends

variable {α β : Type} {limit : Nat} {m : Nat → Evaluating α} {a : α}

protected theorem pure (a : α) : Ends limit active (fun _ => pure a) a :=
  ⟨[], List.forall_mem_nil _, 0, fun _ _ _ => rfl⟩

/-- What ends with one evaluation fewer inside each other, ends. -/
theorem succ (hm : Ends limit active (fun fuel => m (fuel + 1)) a) : Ends limit active m a := by
  obtain ⟨new, hnew, enough, hrun⟩ := hm
  refine ⟨new, hnew, enough + 1, fun fuel hfuel calls => ?_⟩
  obtain ⟨fuel, rfl⟩ := Nat.exists_eq_add_of_le' (Nat.one_le_of_lt hfuel)
  exact hrun fuel (Nat.le_of_succ_le_succ hfuel) calls

protected theorem bind {k : Nat → α → Evaluating β} {b : β} (hm : Ends limit active m a)
    (hk : Ends limit active (fun fuel => k fuel a) b) :
    Ends limit active (fun fuel => m fuel >>= k fuel) b := by
  obtain ⟨new, hnew, enough, hrun⟩ := hm
  obtain ⟨new', hnew', enough', hrun'⟩ := hk
  refine ⟨new' ++ new, ?_, max enough enough', fun fuel hfuel calls => ?_⟩
  · intro call hcall
    exact (List.mem_append.mp hcall).elim (hnew' call) (hnew call)
  · rw [StateT.run_bind, hrun fuel (Nat.le_trans (Nat.le_max_left ..) hfuel), Option.bind_eq_bind,
      Option.bind_some, hrun' fuel (Nat.le_trans (Nat.le_max_right ..) hfuel), List.append_assoc]

/-- An evaluation at the depth that there are expansions in progress is disciplined. -/
theorem call (hroom : o.HasRoom budget active) (hm : Ends o.maxDepth active m a) :
    Ends o.maxDepth active (fun fuel => Evaluating.call active.length (m fuel)) a := by
  obtain ⟨new, hnew, enough, hrun⟩ := hm
  refine ⟨⟨active.length, active, active⟩ :: new, ?_, enough, fun fuel hfuel calls => ?_⟩
  · exact List.forall_mem_cons.mpr ⟨⟨hroom.nodup, rfl, hroom.length_le, rfl⟩, hnew⟩
  · have hbind : (Evaluating.call active.length (m fuel)).run ⟨active, calls⟩ =
        ((m fuel).run ⟨active, calls⟩).bind fun (a, e) =>
          some (a, { e with calls := ⟨active.length, active, e.active⟩ :: e.calls }) := rfl
    rw [hbind, hrun fuel hfuel]
    rfl

/-- What is in progress is not begun again. -/
theorem expand_of_mem {e : Expansion} (he : e ∈ active) :
    Ends limit active (fun fuel => Evaluating.expand e (m fuel)) none := by
  refine ⟨[], List.forall_mem_nil _, 0, fun fuel _ calls => ?_⟩
  have hrun : (Evaluating.expand e (m fuel)).run ⟨active, calls⟩ =
      (if e ∈ active then pure none else _ : Evaluating (Option α)).run ⟨active, calls⟩ := rfl
  rw [hrun, if_pos he]
  rfl

/-- An expansion is struck off where it was noted. -/
theorem expand_of_not_mem {e : Expansion} (he : e ∉ active) (hm : Ends limit (e :: active) m a) :
    Ends limit active (fun fuel => Evaluating.expand e (m fuel)) (some a) := by
  obtain ⟨new, hnew, enough, hrun⟩ := hm
  refine ⟨new, hnew, enough, fun fuel hfuel calls => ?_⟩
  have hbind : ((m fuel).run ⟨e :: active, calls⟩).bind (fun (a, s) =>
      some (some a, { s with active := s.active.tail })) =
        some (some a, ⟨active, new ++ calls⟩) := by
    rw [hrun fuel hfuel]
    rfl
  have hrun' : (Evaluating.expand e (m fuel)).run ⟨active, calls⟩ =
      (if e ∈ active then pure none else _ : Evaluating (Option α)).run ⟨active, calls⟩ := rfl
  rw [hrun', if_neg he]
  exact hbind

/-- Evaluations one after the other. -/
theorem mapM {as : List α} {k : Nat → α → Evaluating β} {f : α → β}
    (hk : ∀ a ∈ as, Ends limit active (fun fuel => k fuel a) (f a)) :
    Ends limit active (fun fuel => as.mapM (k fuel)) (as.map f) := by
  induction as with
  | nil => exact .pure []
  | cons a as ih =>
    obtain ⟨ha, has⟩ := List.forall_mem_cons.mp hk
    simp only [List.mapM_cons]
    exact ha.bind ((ih has).bind (.pure _))

/-- Evaluations one after the other, each from what the one before it gives. -/
theorem foldlM {as : List α} {k : Nat → β → α → Evaluating β} {f : β → α → β}
    (hk : ∀ a ∈ as, ∀ b, Ends limit active (fun fuel => k fuel b a) (f b a)) (b : β) :
    Ends limit active (fun fuel => as.foldlM (k fuel) b) (as.foldl f b) := by
  induction as generalizing b with
  | nil => exact .pure b
  | cons a as ih =>
    obtain ⟨ha, has⟩ := List.forall_mem_cons.mp hk
    simp only [List.foldlM_cons, List.foldl_cons]
    exact (ha b).bind (ih has _)

end Ends

/-! ### Values -/

/-- An expression has the value that it has with the same expansions in progress. -/
theorem ends_value_of (hroom : o.HasRoom budget active)
    (hname : ∀ x, Ends o.maxDepth active (fun fuel => Evaluating.name? o fuel active.length c x)
      (nameValue? o.zeroDivision budget active c x)) (v : Value) :
    Ends o.maxDepth active (fun fuel => Evaluating.value o fuel active.length c v)
      (valueOf o.zeroDivision budget active c v) := by
  rw [valueOf]
  refine .succ ?_
  induction v using Value.induction with
  | string | int | float | bool =>
    simp only [Evaluating.value, Value.reduce]
    exact .call hroom (.pure _)
  | reference name p =>
    simp only [Evaluating.value, Value.reduce]
    exact .call hroom ((hname _).bind (.pure _))
  | atReference name p =>
    simp only [Evaluating.value, Value.reduce]
    exact .call hroom ((hname _).bind (.pure _))
  | binary operator l r p hl hr =>
    simp only [Evaluating.value, Value.reduce]
    exact .call hroom (hl.succ.bind (hr.succ.bind (.pure _)))
  | unary operator v p hv =>
    simp only [Evaluating.value, Value.reduce]
    exact .call hroom (hv.succ.bind (.pure _))
  | array vs p ih =>
    simp only [Evaluating.value, Value.reduce, Value.reduceAll_eq_map]
    exact .call hroom ((Ends.mapM fun v hv => (ih v hv).succ).bind (.pure _))

/-- A name has the value that it has with the same expansions in progress. -/
theorem ends_name? (hroom : o.HasRoom budget active) (c : Context) (x : String) :
    Ends o.maxDepth active (fun fuel => Evaluating.name? o fuel active.length c x)
      (nameValue? o.zeroDivision budget active c x) := by
  -- by induction on the room left: the names in a default have less of it
  induction budget generalizing active c x with
  | zero =>
    refine .succ ?_
    simp only [nameValue?, Evaluating.name?, if_pos hroom.maxDepth_le]
    refine .call hroom ?_
    cases c.lookup? x with
    | some v => exact .pure _
    | none => cases c.index <;> exact .pure _
  | succ budget ih =>
    rw [nameValue?_eq_or]
    refine .succ ?_
    simp only [Evaluating.name?, if_neg hroom.not_maxDepth_le]
    refine .call hroom ?_
    cases c.lookup? x with
    | some v => exact .pure _
    | none =>
      cases c.index with
      | none => exact .pure _
      | some t =>
        simp only [Option.none_or, Option.bind_some, nameValue?_ofIndex_succ]
        cases t.defaultOf? (c.scope?.getD Index.root) x with
        | none => exact .pure _
        | some default =>
          obtain ⟨owner, y, default⟩ := default
          simp only [Option.bind_some]
          by_cases hactive : .var owner y ∈ active
          · rw [if_pos hactive]
            exact .expand_of_mem hactive
          · rw [if_neg hactive]
            have hroom' := hroom.cons hactive
            exact .expand_of_not_mem hactive (.call hroom' (ends_value_of hroom' (ih hroom' _) _))

/-- An expression has the value that it has with the same expansions in progress. -/
theorem ends_value (hroom : o.HasRoom budget active) (c : Context) (v : Value) :
    Ends o.maxDepth active (fun fuel => Evaluating.value o fuel active.length c v)
      (valueOf o.zeroDivision budget active c v) :=
  ends_value_of hroom (ends_name? hroom c) v

/-! ### Definitions -/

section

variable {inst : Context → Instantiation → Definition}

/-- A body is expanded definition by definition, the results appended. -/
theorem foldl_expandWith (eval : Context → Value → Value)
    (inst : Context → Instantiation → Definition) (r : List Definition × Context)
    (ds : List Definition) :
    ds.foldl (fun r d => (expandWith eval inst r.2 d).map (r.1 ++ ·) id) r =
      (expandAllWith eval inst r.2 ds).map (r.1 ++ ·) id := by
  induction ds generalizing r with
  | nil => rw [List.foldl_nil, expandAllWith, Prod.map_apply, List.append_nil, id]
  | cons d ds ih =>
    rw [List.foldl_cons, ih, expandAllWith_cons]
    simp only [Prod.map, List.append_assoc, id]

/-- The definitions of a body, given that each of them is evaluated as it is with the same
expansions in progress. -/
theorem ends_definitions_of (hroom : o.HasRoom budget active) {ds : List Definition}
    (h : ∀ d ∈ ds, ∀ c,
      Ends o.maxDepth active (fun fuel => Evaluating.definition o fuel active.length c d)
        (expandWith (valueOf o.zeroDivision budget active) inst c d)) (c : Context) :
    Ends o.maxDepth active (fun fuel => Evaluating.definitions o fuel active.length c ds)
      (expandAllWith (valueOf o.zeroDivision budget active) inst c ds) := by
  have hfold := foldl_expandWith (valueOf o.zeroDivision budget active) inst ([], c) ds
  refine .succ ?_
  simp only [Evaluating.definitions]
  refine .call hroom ?_
  rw [show expandAllWith (valueOf o.zeroDivision budget active) inst c ds = _ from hfold.symm]
  refine .foldlM (fun d hd r => ?_) ([], c)
  refine (h d hd r.2).bind ?_
  exact .pure _

/-- A definition, given that instantiations are evaluated as they are with the same expansions in
progress. -/
theorem ends_definition_of (hroom : o.HasRoom budget active)
    (hinst : ∀ c i,
      Ends o.maxDepth active (fun fuel => Evaluating.instantiation o fuel active.length c i)
        (inst c i)) (d : Definition) (c : Context) :
    Ends o.maxDepth active (fun fuel => Evaluating.definition o fuel active.length c d)
      (expandWith (valueOf o.zeroDivision budget active) inst c d) := by
  have hvalue := fun c v => ends_value hroom c v
  -- each definition is one call, which asks for values and for the bodies inside
  induction d using Definition.induction generalizing c with
  | field f =>
    refine .succ ?_
    simp only [Evaluating.definition, expandWith]
    exact .call hroom ((hvalue _ _).bind (.pure _))
  | object name body span ih =>
    have hname : Ends o.maxDepth active
        (fun fuel => Evaluating.objectName o fuel active.length c name)
        (if name.isReference then name else valueOf o.zeroDivision budget active c name) := by
      unfold Evaluating.objectName
      split
      · exact .pure _
      · exact hvalue c name
    refine .succ ?_
    simp only [Evaluating.definition, expandWith]
    exact .call hroom (hname.bind ((ends_definitions_of hroom ih _).bind (.pure _)))
  | var v =>
    refine .succ ?_
    simp only [Evaluating.definition, expandWith]
    refine .call hroom ?_
    cases v.default with
    | none => exact .pure _
    | some default => exact (hvalue _ _).bind (.pure _)
  | conditional condition thenBody elseBody span hthen helse =>
    refine .succ ?_
    simp only [Evaluating.definition, expandWith]
    refine .call hroom ((hvalue _ _).bind ?_)
    split
    · exact ends_definitions_of hroom hthen c
    · exact ends_definitions_of hroom helse c
  | loop key item items body span ih =>
    refine .succ ?_
    simp only [Evaluating.definition, expandWith]
    refine .call hroom ((hvalue _ _).bind ?_)
    cases valueOf o.zeroDivision budget active c items with
    | array values p =>
      -- the rounds are evaluated one after the other
      refine Ends.bind (.mapM fun e _ => ends_definitions_of hroom ih _) ?_
      simp only [List.flatMap_map]
      exact .pure _
    | string | int | float | bool | reference | atReference | binary | unary => exact .pure _
  | template name parameters body span =>
    refine .succ ?_
    simp only [Evaluating.definition, expandWith]
    exact .call hroom (.pure _)
  | instantiation i =>
    refine .succ ?_
    simp only [Evaluating.definition, expandWith]
    exact .call hroom ((hinst _ _).bind (.pure _))

end

/-- The definitions of a body, given that instantiations are evaluated as they are with the same
expansions in progress. -/
theorem ends_definitions_of_instantiation (hroom : o.HasRoom budget active)
    (hinst : ∀ c i,
      Ends o.maxDepth active (fun fuel => Evaluating.instantiation o fuel active.length c i)
        (instantiate o.zeroDivision budget active c i)) (c : Context) (ds : List Definition) :
    Ends o.maxDepth active (fun fuel => Evaluating.definitions o fuel active.length c ds)
      (expandAllWith (valueOf o.zeroDivision budget active)
        (instantiate o.zeroDivision budget active) c ds) :=
  ends_definitions_of hroom (fun d _ => ends_definition_of hroom hinst d) c

/-- Evaluating arguments ends. -/
theorem ends_arguments (hroom : o.HasRoom budget active) (c : Context) (i : Instantiation) :
    Ends o.maxDepth active (fun fuel => Evaluating.arguments o fuel active.length c i)
      (argumentsOf (valueOf o.zeroDivision budget active) c i) :=
  .mapM fun a _ => (ends_value hroom c a.value).bind (.pure _)

/-- Binding a parameter ends. -/
theorem ends_parameter (hroom : o.HasRoom budget active) (arguments : List Field) (c : Context)
    (p : Parameter) :
    Ends o.maxDepth active (fun fuel => Evaluating.parameter o fuel active.length arguments c p)
      (bindParameter (valueOf o.zeroDivision budget active) arguments c p) := by
  simp only [Evaluating.parameter, bindParameter]
  cases arguments.find? (·.name == p.name) with
  | some a => exact .pure _
  | none =>
    cases p.default with
    | some default => exact (ends_value hroom _ _).bind (.pure _)
    | none => exact .pure _

/-- An object with the arguments for a body, where the template is not expanded. -/
theorem ends_argumentsObject (hroom : o.HasRoom budget active) {i : Instantiation}
    (hbody : ∀ arguments, Ends o.maxDepth active
      (fun fuel => Evaluating.templateBody? o fuel active.length c i arguments) none) :
    Ends o.maxDepth active (fun fuel => Evaluating.instantiation o fuel active.length c i)
      (argumentsObject (valueOf o.zeroDivision budget active) c i) := by
  refine .succ ?_
  simp only [Evaluating.instantiation]
  exact .call hroom ((ends_arguments hroom c i).bind ((hbody _).bind (.pure _)))

/-- An instantiation is evaluated to the object to which it is with the same expansions in
progress. -/
theorem ends_instantiation (hroom : o.HasRoom budget active) (c : Context) (i : Instantiation) :
    Ends o.maxDepth active (fun fuel => Evaluating.instantiation o fuel active.length c i)
      (instantiate o.zeroDivision budget active c i) := by
  -- by induction on the room left: the instantiations in a template have less of it
  induction budget generalizing active c i with
  | zero =>
    rw [instantiate_zero]
    refine ends_argumentsObject hroom fun arguments => .succ ?_
    simp only [Evaluating.templateBody?, if_pos hroom.maxDepth_le]
    refine .call hroom ?_
    cases c.template? i.template <;> exact .pure _
  | succ budget ih =>
    cases htemplate : c.template? i.template with
    | none =>
      rw [instantiate_of_none htemplate]
      refine ends_argumentsObject hroom fun arguments => .succ ?_
      simp only [Evaluating.templateBody?, htemplate]
      exact .call hroom (.pure _)
    | some template =>
      by_cases hactive : .template template.name ∈ active
      · rw [instantiate_of_active htemplate hactive]
        refine ends_argumentsObject hroom fun arguments => .succ ?_
        simp only [Evaluating.templateBody?, htemplate, if_neg hroom.not_maxDepth_le]
        exact .call hroom (.expand_of_mem hactive)
      · rw [instantiate_of_not_active htemplate hactive]
        have hroom' := hroom.cons hactive
        have hbody : ∀ arguments, Ends o.maxDepth active
            (fun fuel => Evaluating.templateBody? o fuel active.length c i arguments)
            (some (expandAllWith (valueOf o.zeroDivision budget (.template template.name :: active))
              (instantiate o.zeroDivision budget (.template template.name :: active))
              (c.inside (valueOf o.zeroDivision budget (.template template.name :: active))
                arguments i template) template.body).1) := by
          intro arguments
          refine .succ ?_
          simp only [Evaluating.templateBody?, htemplate, if_neg hroom.not_maxDepth_le]
          refine .call hroom (.expand_of_not_mem hactive (.call hroom' ?_))
          refine Ends.bind (.foldlM (fun p _ c => ends_parameter hroom' arguments c p) _) ?_
          exact (ends_definitions_of_instantiation hroom' (ih hroom') _ _).bind (.pure _)
        refine .succ ?_
        simp only [Evaluating.instantiation]
        exact .call hroom ((ends_arguments hroom c i).bind ((hbody _).bind (.pure _)))

/-- Definitions are evaluated to what they are with the same expansions in progress. -/
theorem ends_definitions (hroom : o.HasRoom budget active) (c : Context) (ds : List Definition) :
    Ends o.maxDepth active (fun fuel => Evaluating.definitions o fuel active.length c ds)
      (expandAllWith (valueOf o.zeroDivision budget active)
        (instantiate o.zeroDivision budget active) c ds) :=
  ends_definitions_of_instantiation hroom (ends_instantiation hroom) c ds

/-! ### Evaluations one after the other -/

/-- Something to evaluate in a context. -/
inductive Request where
  | value (c : Context) (v : Value)
  | definitions (c : Context) (ds : List Definition)

/-- What something is evaluated to. Definitions are evaluated to others and to a context. -/
inductive Answer where
  | value (v : Value)
  | definitions (ds : List Definition) (c : Context)

/-- What an evaluation of its own gives. -/
def Request.answer (o : EvaluationOptions) : Request → Answer
  | value c v => .value (evaluate o c v)
  | definitions c ds => .definitions (evaluateDefinitions o c ds).1 (evaluateDefinitions o c ds).2

/-- Answers a request, from depth zero on. -/
def Evaluating.request (o : EvaluationOptions) (fuel : Nat) : Request → Evaluating Answer
  | .value c v => return .value (← value o fuel 0 c v)
  | .definitions c ds => do
    let result ← definitions o fuel 0 c ds
    return .definitions result.1 result.2

/-- Every request is answered in the end. -/
theorem ends_request (o : EvaluationOptions) (request : Request) :
    Ends o.maxDepth [] (fun fuel => Evaluating.request o fuel request) (request.answer o) := by
  cases request with
  | value c v => exact (ends_value (.nil o) c v).bind (.pure _)
  | definitions c ds => exact (ends_definitions (.nil o) c ds).bind (.pure _)

/-- However cyclic the variables and the templates are, an evaluator comes to the end of any
evaluations that it is given one after the other, if there is enough fuel. It gives the result of
each as a fresh evaluator does, with no expansion left in progress, and all the evaluations inside
are disciplined. -/
theorem evaluating_ends (o : EvaluationOptions) (requests : List Request) :
    (∀ request, ∃ enough calls, ∀ fuel, enough ≤ fuel →
        (Evaluating.request o fuel request).run .fresh = some (request.answer o, ⟨[], calls⟩)) ∧
      ∃ enough calls, (∀ fuel, enough ≤ fuel →
          (requests.mapM (Evaluating.request o fuel)).run .fresh =
            some (requests.map (Request.answer o), ⟨[], calls⟩)) ∧
        ∀ call ∈ calls, call.IsDisciplined o.maxDepth := by
  constructor
  · intro request
    obtain ⟨calls, -, enough, hrun⟩ := ends_request o request
    exact ⟨enough, calls ++ [], fun fuel hfuel => hrun fuel hfuel []⟩
  · have hall : Ends o.maxDepth [] (fun fuel => requests.mapM (Evaluating.request o fuel))
        (requests.map (Request.answer o)) :=
      .mapM fun request _ => ends_request o request
    obtain ⟨calls, hcalls, enough, hrun⟩ := hall
    refine ⟨enough, calls, fun fuel hfuel => ?_, hcalls⟩
    have hfresh := hrun fuel hfuel []
    rwa [List.append_nil] at hfresh

end SemanticIndex
