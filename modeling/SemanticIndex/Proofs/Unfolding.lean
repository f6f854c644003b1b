import Mathlib.Logic.Relation
import SemanticIndex.Proofs.Depth

/-!
# Unfolding Variables

Where no default depends on itself, a name that leads to a default has just the value that the
default has where it is declared (`Index.Built.nameValue?_eq_some_evaluateAt`). Evaluation keeps
account of the expansions in progress and of how many may still nest, but without a cycle none of
this shows: an expansion in progress makes no difference to what does not depend on it
(`Index.Built.nameValue?_eq_of_avoids`).
-/

namespace SemanticIndex

namespace Value

/-- The names in a value, those of variables without their mark. -/
def names (v : Value) : List String := v.parts.filterMap referenceName?

theorem names_binary (o : BinaryOperator) (l r : Value) (p : Position) :
    (binary o l r p).names = l.names ++ r.names := by
  rw [names, parts, List.cons_append, List.filterMap_cons_none rfl, List.filterMap_append]
  rfl

theorem names_unary (o : UnaryOperator) (v : Value) (p : Position) :
    (unary o v p).names = v.names := by
  rw [names, parts, List.filterMap_cons_none rfl]
  rfl

theorem names_array (vs : List Value) (p : Position) :
    (array vs p).names = vs.flatMap names := by
  rw [names, parts, List.filterMap_cons_none rfl]
  induction vs with
  | nil => rfl
  | cons v vs ih =>
    rw [partsAll, List.filterMap_append, ih, List.flatMap_cons]
    rfl

variable {policy : ZeroDivision} {resolve resolve' : String → Option Value}

/-- The value of an expression depends on the values of the names in it. -/
theorem reduce_congr (v : Value)
    (h : ∀ x ∈ v.names, resolve (variableName x) = resolve' (variableName x)) :
    v.reduce policy resolve = v.reduce policy resolve' := by
  induction v using Value.induction with
  | string | int | float | bool => rw [reduce, reduce]
  | reference name p =>
    rw [reduce, reduce, h name (List.mem_singleton_self name)]
  | atReference name p =>
    -- the name is stripped of its mark twice
    have hname := h (variableName name) (List.mem_singleton_self _)
    rw [variableName_variableName] at hname
    rw [reduce, reduce, hname]
  | binary o l r p hl hr =>
    rw [names_binary] at h
    rw [reduce, reduce, hl fun x hx => h x (List.mem_append_left _ hx),
      hr fun x hx => h x (List.mem_append_right _ hx)]
  | unary o v p hv =>
    rw [names_unary] at h
    rw [reduce, reduce, hv h]
  | array vs p ih =>
    rw [names_array] at h
    rw [reduce, reduce, reduceAll_eq_map, reduceAll_eq_map]
    congr 1
    exact List.map_congr_left fun v hv =>
      ih v hv fun x hx => h x (List.mem_flatMap.mpr ⟨v, hv, hx⟩)

end Value

namespace Index

/-- The declaration of the variable that a node holds under a name. -/
def declaration? (t : Index) (i : NodeId) (x : String) : Option VariableDeclaration :=
  ((t.node? i).bind fun n => n.summary.vars[x]?).map VariableEntry.declaration

/-- A name in the default of the one variable means the other one. Variables are given by their
nodes and names. -/
def DependsOn (t : Index) (p q : NodeId × String) : Prop :=
  ∃ d default name v, t.declaration? p.1 p.2 = some d ∧ d.default = some default ∧
    name ∈ default.names ∧ t.resolveVariable? p.1 name = some (q.1, v) ∧ v.declaration.name = q.2

/-- No default depends on itself, be it through others. -/
def Acyclic (t : Index) : Prop := ∀ p, ¬ Relation.TransGen t.DependsOn p p

/-- The variable depends on none of which the default is being expanded. -/
def Avoids (t : Index) (active : List Expansion) (p : NodeId × String) : Prop :=
  ∀ i x, .var i x ∈ active → ¬ Relation.ReflTransGen t.DependsOn p (i, x)

variable {t : Index} {L : Ledger} {lay : Layout} {i owner : NodeId} {name x : String}
  {default : Value} {active active' possible possible' : List Expansion} {budget budget' : Nat}
  {policy : ZeroDivision}

/-- A name is resolved without the mark of a variable. -/
theorem defaultOf?_variableName (t : Index) (i : NodeId) (name : String) :
    t.defaultOf? i (variableName name) = t.defaultOf? i name := by
  rw [defaultOf?, defaultOf?, resolveVariable?, resolveVariable?, variableName_variableName]

/-- What is avoided is not in progress. -/
theorem Avoids.not_mem (h : t.Avoids active (i, x)) : .var i x ∉ active :=
  fun hmem => h i x hmem .refl

/-- Where there is no cycle, what a default depends on does not depend on the default. -/
theorem Avoids.cons (h : t.Avoids active (i, x)) (hacyclic : t.Acyclic) {q : NodeId × String}
    (hq : t.DependsOn (i, x) q) : t.Avoids (.var i x :: active) q := by
  intro j y hmem hreach
  rcases List.mem_cons.mp hmem with heq | hmem
  · obtain ⟨rfl, rfl⟩ := Expansion.var.inj heq
    exact hacyclic _ (.head' hq hreach)
  · exact h j y hmem (.head hq hreach)

namespace Built

/-- A variable is found with the declaration that its node holds. -/
theorem declaration?_of_resolveVariable? {v : VariableEntry}
    (hv : t.resolveVariable? i name = some (owner, v)) :
    t.declaration? owner (variableName name) = some v.declaration := by
  obtain ⟨j, -, hfound⟩ := List.exists_of_findSome?_eq_some hv
  obtain ⟨v, hheld, heq⟩ := Option.map_eq_some_iff.mp hfound
  obtain ⟨rfl, rfl⟩ := Prod.mk.inj heq
  rw [declaration?, hheld, Option.map_some]

/-- The default to which a name leads is declared where it is found. -/
theorem declaration?_of_defaultOf? (h : t.Built L lay)
    (hdefault : t.defaultOf? i name = some (owner, x, default)) :
    ∃ v, t.resolveVariable? i name = some (owner, v) ∧ v.declaration.name = x ∧
      t.declaration? owner x = some v.declaration ∧ v.declaration.default = some default := by
  obtain ⟨⟨owner, v⟩, hv, hdeclared⟩ := Option.bind_eq_some_iff.mp hdefault
  obtain ⟨default, hd, heq⟩ := Option.map_eq_some_iff.mp hdeclared
  obtain ⟨rfl, rfl, rfl⟩ : _ ∧ _ ∧ _ := by simpa only [Prod.mk.injEq] using heq
  refine ⟨v, hv, rfl, ?_, hd⟩
  rw [(h.resolveVariable?_eq_some hv).1, declaration?_of_resolveVariable? hv]

/-- What a name in a default leads to is what the default depends on. -/
theorem dependsOn_of_mem_names (h : t.Built L lay)
    (hdefault : t.defaultOf? i name = some (owner, x, default)) {y : String}
    (hy : y ∈ default.names) {owner' : NodeId} {x' : String} {default' : Value}
    (hdefault' : t.defaultOf? owner (variableName y) = some (owner', x', default')) :
    t.DependsOn (owner, x) (owner', x') := by
  obtain ⟨v, -, -, hv, hd⟩ := h.declaration?_of_defaultOf? hdefault
  rw [defaultOf?_variableName] at hdefault'
  obtain ⟨v', hresolved, hname, -⟩ := h.declaration?_of_defaultOf? hdefault'
  exact ⟨v.declaration, default, y, v', hv, hd, hy, hresolved, hname⟩

/-- The expansions in progress make no difference to a name that leads to a default which depends
on none of them, nor does it how many more may nest, as long as they are sufficient. -/
theorem nameValue?_eq_of_avoids (h : t.Built L lay) (hacyclic : t.Acyclic)
    (hpossible : ∀ i x, t.HoldsVariable i x → .var i x ∈ possible)
    (hbudget : Sufficient possible active budget) (hbudget' : Sufficient possible active' budget')
    (havoids : ∀ owner x default, t.defaultOf? i name = some (owner, x, default) →
      t.Avoids active (owner, x) ∧ t.Avoids active' (owner, x)) :
    nameValue? policy budget active (.ofIndex t (some i)) name =
      nameValue? policy budget' active' (.ofIndex t (some i)) name := by
  -- by induction on how many may nest; what a default depends on avoids the default as well
  induction budget using Nat.strongRecOn generalizing budget' active active' i name with
  | ind budget ih =>
    cases hdefault : t.defaultOf? i name with
    | none => rw [nameValue?_ofIndex_of_none hdefault, nameValue?_ofIndex_of_none hdefault]
    | some found =>
      obtain ⟨owner, x, default⟩ := found
      obtain ⟨ha, ha'⟩ := havoids owner x default hdefault
      have hmem := hpossible _ _ (h.holdsVariable_of_defaultOf? hdefault)
      obtain ⟨b, rfl, hnext⟩ := hbudget.exists_succ hmem ha.not_mem
      obtain ⟨b', rfl, hnext'⟩ := hbudget'.exists_succ hmem ha'.not_mem
      rw [nameValue?_ofIndex_of_not_active hdefault ha.not_mem,
        nameValue?_ofIndex_of_not_active hdefault ha'.not_mem, valueOf, valueOf]
      refine congrArg some (Value.reduce_congr default fun y hy => ?_)
      refine ih b (Nat.lt_succ_self b) hnext hnext' fun owner' x' default' hdefault' => ?_
      have hdepends := h.dependsOn_of_mem_names hdefault hy hdefault'
      exact ⟨ha.cons hacyclic hdepends, ha'.cons hacyclic hdepends⟩

/-- A name that leads to a default has the value that the default has where it is declared. -/
theorem nameValue?_eq_some_evaluateAt (h : t.Built L lay) (hacyclic : t.Acyclic)
    {o : EvaluationOptions} (hdepth : t.heldVariables.length ≤ o.maxDepth)
    (hdefault : t.defaultOf? i name = some (owner, x, default)) :
    nameValue? o.zeroDivision o.maxDepth [] (.ofIndex t (some i)) name =
      some (t.evaluateAt o owner default) := by
  have hpossible : ∀ j y, t.HoldsVariable j y →
      Expansion.var j y ∈ t.heldVariables.map fun p => .var p.1 p.2 := fun j y hholds =>
    List.mem_map.mpr ⟨(j, y), mem_heldVariables_iff.mpr hholds, rfl⟩
  have hstart := sufficient_of_length_le hdepth
  obtain ⟨b, hb, hnext⟩ := hstart.exists_succ
    (hpossible _ _ (h.holdsVariable_of_defaultOf? hdefault)) List.not_mem_nil
  -- the default is expanded in its own expansion, which it does not depend on
  rw [evaluateAt, evaluate, hb, nameValue?_ofIndex_of_not_active hdefault List.not_mem_nil,
    ← hb, valueOf, valueOf]
  refine congrArg some (Value.reduce_congr default fun y hy => ?_)
  refine h.nameValue?_eq_of_avoids hacyclic hpossible hnext hstart fun owner' x' default' hd' => ?_
  have havoids : ∀ p, t.Avoids [] p := fun _ _ _ hmem => absurd hmem List.not_mem_nil
  have hdepends := h.dependsOn_of_mem_names hdefault hy hd'
  exact ⟨(havoids _).cons hacyclic hdepends, havoids _⟩

end Built

end Index

end SemanticIndex
