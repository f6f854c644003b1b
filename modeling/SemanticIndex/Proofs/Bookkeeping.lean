import SemanticIndex.Proofs.Normalization

/-!
# One List of Expansions

The expansions in progress need not be handed on from one evaluation to the next inside it. An
evaluator may keep one list of them, note an expansion there before it evaluates a default and
strike it off afterwards (`Expansion.during`). Such an evaluator leaves the list as it has found it
(`Restores`), whether a default is cyclic, is too deep, or is evaluated to the end, and its values
are those of the evaluator that hands the list on (`restores_nameValueTracked`,
`restores_evaluateTracked`). So one evaluator can be used for any number of expressions.
-/

namespace SemanticIndex

/-- A computation that sees and changes the list of the expansions in progress. -/
abbrev Tracked (α : Type) := StateM (List Expansion) α

/-- Notes the expansion while `body` runs. Nothing is done if it is already in progress. -/
def Expansion.during {α : Type} (e : Expansion) (body : Tracked α) : Tracked (Option α) := do
  let active ← get
  if e ∈ active then
    return none
  else
    set (e :: active)
    let a ← body
    modify List.tail
    return some a

namespace Value

mutual

/-- Evaluates an expression, operands from left to right, where `meaning` finds out the values of
names. -/
def reduceTracked (policy : ZeroDivision) (meaning : String → Tracked (Option Value)) :
    Value → Tracked Value
  | string s quoted p => return string s quoted p
  | int i p => return int i p
  | float x p => return float x p
  | bool b p => return bool b p
  | reference name p => return (← meaning (variableName name)).getD (reference name p)
  | atReference name p => return (← meaning (variableName name)).getD (atReference name p)
  | binary o l r p => do
    let l ← reduceTracked policy meaning l
    let r ← reduceTracked policy meaning r
    return (binaryResult policy o l r p).getD (binary o l r p)
  | unary o v p => do
    let v ← reduceTracked policy meaning v
    return (unaryResult o v p).getD (unary o v p)
  | array vs p => return array (← reduceAllTracked policy meaning vs) p

/-- Evaluates each expression of a list, one after the other. -/
def reduceAllTracked (policy : ZeroDivision) (meaning : String → Tracked (Option Value)) :
    List Value → Tracked (List Value)
  | [] => return []
  | v :: vs => return (← reduceTracked policy meaning v) :: (← reduceAllTracked policy meaning vs)

end

end Value

/-- Finds out the value of a name, where at most `budget` expansions may begin inside each other. -/
def nameValueTracked (policy : ZeroDivision) :
    Nat → Context → String → Tracked (Option Value)
  | 0, c, name => return c.lookup? name
  | budget + 1, c, name =>
    match c.lookup? name, c.index with
    | some v, _ => return some v
    | none, none => return none
    | none, some t =>
      match t.defaultOf? (c.scope?.getD Index.root) name with
      | none => return none
      | some (owner, x, default) =>
        Expansion.during (.var owner x) <|
          default.reduceTracked policy (nameValueTracked policy budget (.ofIndex t (some owner)))

/-- Evaluates an expression in a context. -/
def evaluateTracked (o : EvaluationOptions) (c : Context) (v : Value) : Tracked Value :=
  v.reduceTracked o.zeroDivision (nameValueTracked o.zeroDivision o.maxDepth c)

/-- The computation gives what `f` says for the expansions in progress and leaves their list as it
has found it. -/
def Restores {α : Type} (m : Tracked α) (f : List Expansion → α) : Prop :=
  ∀ active, m.run active = (f active, active)

namespace Restores

variable {α β : Type} {m : Tracked α} {f : List Expansion → α}

protected theorem pure (a : α) : Restores (pure a) fun _ => a := fun _ => rfl

protected theorem bind {k : α → Tracked β} {g : α → List Expansion → β} (hm : Restores m f)
    (hk : ∀ a, Restores (k a) (g a)) : Restores (m >>= k) fun active => g (f active) active := by
  intro active
  rw [StateT.run_bind, hm active]
  exact hk (f active) active

/-- The expansion is struck off where it was noted, so that the list is again what it was. -/
theorem during (e : Expansion) (hm : Restores m f) :
    Restores (e.during m) fun active => if e ∈ active then none else some (f (e :: active)) := by
  intro active
  show (ite (e ∈ active) (pure none) _ : Tracked (Option α)).run active =
    (if e ∈ active then none else some (f (e :: active)), active)
  by_cases he : e ∈ active
  · rw [if_pos he, if_pos he]
    rfl
  · rw [if_neg he, if_neg he, StateT.run_bind, StateT.run_set, pure_bind, StateT.run_bind,
      hm (e :: active)]
    rfl

/-- Computations one after the other see the same list. -/
theorem mapM {as : List α} {k : α → Tracked β} {g : α → List Expansion → β}
    (hk : ∀ a ∈ as, Restores (k a) (g a)) :
    Restores (as.mapM k) fun active => as.map fun a => g a active := by
  induction as with
  | nil => exact .pure []
  | cons a as ih =>
    obtain ⟨ha, has⟩ := List.forall_mem_cons.mp hk
    rw [List.mapM_cons]
    exact ha.bind fun b => (ih has).bind fun bs => .pure (b :: bs)

end Restores

/-! ### Values -/

namespace Value

variable {policy : ZeroDivision} {meaning : String → Tracked (Option Value)}
  {resolve : List Expansion → String → Option Value}

theorem reduceAllTracked_eq_mapM (vs : List Value) :
    reduceAllTracked policy meaning vs = vs.mapM (reduceTracked policy meaning) := by
  induction vs with
  | nil => rw [reduceAllTracked, List.mapM_nil]
  | cons v vs ih => rw [reduceAllTracked, List.mapM_cons, ih]

/-- An expression is evaluated as it is where the values of names are given. -/
theorem restores_reduceTracked
    (hmeaning : ∀ x, Restores (meaning x) fun active => resolve active x) (v : Value) :
    Restores (v.reduceTracked policy meaning) fun active => v.reduce policy (resolve active) := by
  -- by induction on the expression: each operand finds the list that the one before it has found
  induction v using Value.induction with
  | string | int | float | bool =>
    simp only [reduceTracked, reduce]
    exact .pure _
  | reference name p =>
    simp only [reduceTracked, reduce]
    exact (hmeaning _).bind fun w => .pure (w.getD _)
  | atReference name p =>
    simp only [reduceTracked, reduce]
    exact (hmeaning _).bind fun w => .pure (w.getD _)
  | binary o l r p hl hr =>
    simp only [reduceTracked, reduce]
    exact hl.bind fun l => hr.bind fun r => .pure ((binaryResult policy o l r p).getD _)
  | unary o v p hv =>
    simp only [reduceTracked, reduce]
    exact hv.bind fun v => .pure ((unaryResult o v p).getD _)
  | array vs p ih =>
    simp only [reduceTracked, reduce, reduceAllTracked_eq_mapM, reduceAll_eq_map]
    exact (Restores.mapM ih).bind fun vs => .pure (array vs p)

end Value

/-- The value of a name is that which the list of the expansions in progress gives it. -/
theorem restores_nameValueTracked (policy : ZeroDivision) (budget : Nat) (c : Context)
    (name : String) :
    Restores (nameValueTracked policy budget c name) fun active =>
      nameValue? policy budget active c name := by
  -- by induction on the budget: the names in a default have one expansion fewer left
  induction budget generalizing c name with
  | zero => exact .pure _
  | succ budget ih =>
    rw [funext fun active => nameValue?_eq_or policy (budget + 1) active c name, nameValueTracked]
    split
    · rename_i v hv
      simp only [hv, Option.some_or]
      exact .pure _
    · rename_i hv hindex
      simp only [hv, hindex, Option.none_or, Option.bind_none]
      exact .pure _
    · rename_i t hv hindex
      simp only [hv, hindex, Option.none_or, Option.bind_some, nameValue?_ofIndex_succ]
      split
      · rename_i hdefault
        simp only [hdefault, Option.bind_none]
        exact .pure _
      · rename_i owner x default hdefault
        simp only [hdefault, Option.bind_some]
        exact (Value.restores_reduceTracked (ih _) default).during (.var owner x)

/-- An evaluation leaves the stack as it has found it. -/
theorem restores_evaluateTracked (o : EvaluationOptions) (c : Context) (v : Value) :
    Restores (evaluateTracked o c v) fun active => valueOf o.zeroDivision o.maxDepth active c v :=
  v.restores_reduceTracked (restores_nameValueTracked o.zeroDivision o.maxDepth c)

end SemanticIndex
