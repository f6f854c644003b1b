import SemanticIndex.Proofs.Variables

/-!
# Variables and What They Stand For

A variable stands for its default, evaluated where it is declared. Where no default depends on
itself, a name that leads to a variable has this value from wherever it is written, and so the index
can be done without: a value in a node is what becomes of it, in no context, when each such name is
replaced beforehand (`Index.evaluateAt_substitute_run`).
-/

namespace SemanticIndex

namespace Value

mutual

/-- The value in which every name that `resolve` knows gives way to what `resolve` has for it. A
name is looked up without the mark of a variable, and one that is not known stays. -/
def substitute (resolve : String → Option Value) : Value → Value
  | string s quoted p => string s quoted p
  | int i p => int i p
  | float x p => float x p
  | bool b p => bool b p
  | reference name p => (resolve (variableName name)).getD (reference name p)
  | atReference name p => (resolve (variableName name)).getD (atReference name p)
  | binary o l r p => binary o (substitute resolve l) (substitute resolve r) p
  | unary o v p => unary o (substitute resolve v) p
  | array vs p => array (substituteAll resolve vs) p

/-- The substitution in each value of a list. -/
def substituteAll (resolve : String → Option Value) : List Value → List Value
  | [] => []
  | v :: vs => substitute resolve v :: substituteAll resolve vs

end

theorem substituteAll_eq_map (resolve : String → Option Value) (vs : List Value) :
    substituteAll resolve vs = vs.map (substitute resolve) := by
  induction vs with
  | nil => rw [substituteAll, List.map_nil]
  | cons v vs ih => rw [substituteAll, List.map_cons, ih]

variable {policy : ZeroDivision} {resolve : String → Option Value}

/-- What has been put in the place of a name is in normal form, so that nothing is evaluated
twice. -/
theorem reduce_getD {w : Option Value} {v : Value} (hw : ∀ w', w = some w' → w'.Normal policy)
    (hv : v.Normal policy) : (w.getD v).reduce policy (fun _ => none) = w.getD v :=
  normal_getD hw fun _ => hv

/-- Values in normal form can be put in the places of the names before the evaluation. -/
theorem reduce_substitute (hresolve : ∀ x w, resolve x = some w → w.Normal policy) (v : Value) :
    (v.substitute resolve).reduce policy (fun _ => none) = v.reduce policy resolve := by
  induction v using Value.induction with
  | string | int | float | bool => rw [substitute, reduce, reduce]
  | reference name p =>
    rw [substitute, reduce]
    exact reduce_getD (hresolve _) (by rw [Normal, reduce, Option.getD_none])
  | atReference name p =>
    rw [substitute, reduce]
    exact reduce_getD (hresolve _) (by rw [Normal, reduce, Option.getD_none])
  | binary o l r p hl hr => rw [substitute, reduce, reduce, hl, hr]
  | unary o v p hv => rw [substitute, reduce, reduce, hv]
  | array vs p ih =>
    rw [substitute, reduce, reduce, reduceAll_eq_map, reduceAll_eq_map, substituteAll_eq_map,
      List.map_map]
    congr 1
    exact List.map_congr_left ih

end Value

namespace Index

variable {t : Index} {L : Ledger} {lay : Layout} {o : EvaluationOptions} {i owner : NodeId}
  {x : String} {v : VariableEntry} {default : Value} {p : Position}

/-- What a name stands for in a node: the default of the variable that it leads to, evaluated in the
node that holds the variable. -/
def unfolded? (t : Index) (o : EvaluationOptions) (i : NodeId) (x : String) : Option Value :=
  (t.resolveVariable? i x).bind fun (owner, v) => v.declaration.default.map (t.evaluateAt o owner)

theorem unfolded?_eq_map (t : Index) (o : EvaluationOptions) (i : NodeId) (x : String) :
    t.unfolded? o i x =
      (t.defaultOf? i x).map fun (owner, _, default) => t.evaluateAt o owner default := by
  rw [unfolded?, defaultOf?, Option.map_bind]
  refine Option.bind_congr fun found _ => ?_
  obtain ⟨owner, v⟩ := found
  rw [Function.comp_apply, Option.map_map]
  rfl

/-- A name that means a variable is unfolded to the value of its default. -/
theorem unfolded?_of_resolveVariable? (hv : t.resolveVariable? i x = some (owner, v))
    (hdefault : v.declaration.default = some default) :
    t.unfolded? o i x = some (t.evaluateAt o owner default) := by
  rw [unfolded?, hv]
  show v.declaration.default.map (t.evaluateAt o owner) = _
  rw [hdefault, Option.map_some]

/-- A name is looked up without the mark of a variable. -/
theorem unfolded?_variableName (t : Index) (o : EvaluationOptions) (i : NodeId) (x : String) :
    t.unfolded? o i (variableName x) = t.unfolded? o i x := by
  rw [unfolded?_eq_map, unfolded?_eq_map, defaultOf?_variableName]

/-- What a name stands for is in normal form. -/
theorem normal_unfolded? {w : Value} (hw : t.unfolded? o i x = some w) :
    w.Normal o.zeroDivision := by
  rw [unfolded?_eq_map, Option.map_eq_some_iff] at hw
  obtain ⟨⟨owner, y, default⟩, -, rfl⟩ := hw
  exact normal_valueOf _ _ (Context.unbound_ofIndex t _).normal default

namespace Built

section

variable (h : t.Built L lay) (hacyclic : t.Acyclic)
  (hdepth : t.heldVariables.length ≤ o.maxDepth)

include h hacyclic hdepth

/-- Where no default depends on itself, a name has the value of what it stands for. -/
theorem nameValue?_eq_unfolded? (i : NodeId) (x : String) :
    nameValue? o.zeroDivision o.maxDepth [] (.ofIndex t (some i)) x = t.unfolded? o i x := by
  rw [unfolded?_eq_map]
  cases hdefault : t.defaultOf? i x with
  | none => rw [nameValue?_ofIndex_of_none hdefault, Option.map_none]
  | some found =>
    obtain ⟨owner, y, default⟩ := found
    rw [h.nameValue?_eq_some_evaluateAt hacyclic hdepth hdefault, Option.map_some]

/-- An expression is reduced with its names unfolded. -/
theorem evaluateAt_eq_reduce (i : NodeId) (w : Value) :
    t.evaluateAt o i w = w.reduce o.zeroDivision (t.unfolded? o i) := by
  rw [evaluateAt, evaluate, valueOf, funext (h.nameValue?_eq_unfolded? hacyclic hdepth i)]

/-- A name that leads to a default, marked or not, has the value of the default in the node that
holds the variable. -/
theorem evaluateAt_name (hv : t.resolveVariable? i x = some (owner, v))
    (hdefault : v.declaration.default = some default) (p : Position) :
    t.evaluateAt o i (.reference x p) = t.evaluateAt o owner default ∧
      t.evaluateAt o i (.atReference x p) = t.evaluateAt o owner default := by
  have hunfolded := unfolded?_of_resolveVariable? (o := o) hv hdefault
  rw [← unfolded?_variableName] at hunfolded
  constructor
  · rw [h.evaluateAt_eq_reduce hacyclic hdepth, Value.reduce, hunfolded, Option.getD_some]
  · rw [h.evaluateAt_eq_reduce hacyclic hdepth, Value.reduce, hunfolded, Option.getD_some]

/-- A value in a node is what becomes of it, in no context, with all names replaced by what they
stand for. -/
theorem evaluateAt_eq_evaluate_substitute (i : NodeId) (w : Value) :
    t.evaluateAt o i w = evaluate o .bare (w.substitute (t.unfolded? o i)) := by
  -- without an index and without bindings no name has a value
  have hbare : nameValue? o.zeroDivision o.maxDepth [] .bare = fun _ => none :=
    funext (nameValue?_of_unbound rfl (List.forall_mem_singleton.mpr rfl))
  rw [h.evaluateAt_eq_reduce hacyclic hdepth, evaluate, valueOf, hbare,
    Value.reduce_substitute fun _ _ => normal_unfolded?]

end

/-- No default depends on itself if the names in it are all of a lower rank than its own. -/
theorem acyclic_of_rank (h : t.Built L lay) (rank : String → Nat)
    (hrank : ∀ s ∈ L.variableSites,
      ∀ y ∈ (s.2.declaration.default.map Value.names).getD [],
        rank (variableName y) < rank s.2.declaration.name) : t.Acyclic := by
  -- the rank falls with each dependency, so that none comes back to where it began
  have hstep : ∀ p q, t.DependsOn p q → rank q.2 < rank p.2 := by
    intro p q hpq
    obtain ⟨s, hs, hp, default, hdefault, y, hy, hq⟩ := h.exists_mem_names_of_dependsOn hpq
    rw [← hp, ← hq]
    refine hrank s hs y ?_
    rwa [hdefault, Option.map_some, Option.getD_some]
  have hpath : ∀ p q, Relation.TransGen t.DependsOn p q → rank q.2 < rank p.2 := by
    intro p q hpq
    induction hpq with
    | single hpq => exact hstep _ _ hpq
    | tail _ hqr ih => exact Nat.lt_trans (hstep _ _ hqr) ih
  exact fun p hp => Nat.lt_irrefl _ (hpath p p hp)

end Built

/-- Variables unfold to their declarations. After any run in which no default depends on itself, and
where as many expansions may nest as there are variables: a name that leads from a node to a default
has the value of the default in the node that holds the variable, marked or not; and any value in a
node is what it evaluates to without an index and without bindings, once every such name in it is
replaced by this value of its default. -/
theorem evaluateAt_substitute_run (options : IndexOptions) (ops : List Operation)
    (o : EvaluationOptions) (hacyclic : (run options ops).Acyclic)
    (hdepth : (run options ops).heldVariables.length ≤ o.maxDepth) (i : NodeId) :
    let t := run options ops
    (∀ x owner v default, t.resolveVariable? i x = some (owner, v) →
      v.declaration.default = some default → ∀ p,
        t.evaluateAt o i (.reference x p) = t.evaluateAt o owner default ∧
          t.evaluateAt o i (.atReference x p) = t.evaluateAt o owner default) ∧
      ∀ w, t.evaluateAt o i w = evaluate o .bare (w.substitute (t.unfolded? o i)) := by
  intro t
  obtain ⟨lay, h, -⟩ := exists_built_run options ops
  exact ⟨fun x owner v default hv hdefault p =>
      h.evaluateAt_name hacyclic hdepth hv hdefault p,
    h.evaluateAt_eq_evaluate_substitute hacyclic hdepth i⟩

/-- A file of the package `app` with two variables `base`, of which the inner one hides the outer
one, and with two more that depend on them. -/
def shadowedDocument : Document where
  package := some ⟨"app", .start⟩
  definitions := [
    .var ⟨"base", "", some (.int 80 .start), false, .start⟩,
    .var ⟨"offset", "", some (.binary .add (.atReference "base" .start) (.int 1 .start) .start),
      false, .start⟩,
    .object (.reference "web" .start) [
      .var ⟨"base", "", some (.int 8000 .start), false, .start⟩,
      .var ⟨"port", "", some
        (.binary .add (.reference "base" .start) (.reference "offset" .start) .start), false,
        .start⟩] {}]
  comments := []
  pragmas := []

/-- The inner variables mention the outer ones, and each is evaluated where it is declared: three
nested expansions are more than enough. -/
theorem evaluateAt_substitute_run_of_shadowed :
    let t := run {} [.add (.ofText "a.pcl") shadowedDocument]
    let o : EvaluationOptions := { maxDepth := 4 }
    ∃ web, t.path web = "app.web" ∧ t.Acyclic ∧ t.heldVariables.length = 4 ∧
      (∀ x owner v default, t.resolveVariable? web x = some (owner, v) →
        v.declaration.default = some default → ∀ p,
          t.evaluateAt o web (.reference x p) = t.evaluateAt o owner default ∧
            t.evaluateAt o web (.atReference x p) = t.evaluateAt o owner default) ∧
      (∀ w, t.evaluateAt o web w = evaluate o .bare (w.substitute (t.unfolded? o web))) ∧
      (t.evaluateAt o web (.reference "port" .start)).same (.int 8081 .start) = true := by
  intro t o
  have hacyclic : t.Acyclic := by
    obtain ⟨lay, h, -⟩ := exists_built_run {} [.add (.ofText "a.pcl") shadowedDocument]
    exact h.acyclic_of_rank
      (fun x => if x = "port" then 2 else if x = "offset" then 1 else 0) (by decide)
  have hcount : t.heldVariables.length = 4 := by decide +kernel
  obtain ⟨hname, hvalue⟩ := evaluateAt_substitute_run {} _ o hacyclic (Nat.le_of_eq hcount) 2
  exact ⟨2, by decide, hacyclic, hcount, hname, hvalue, by decide⟩

end Index

end SemanticIndex
