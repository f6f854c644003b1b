import SemanticIndex.Proofs.Emission

/-!
# One Expansion

Two kinds of expansion nest: that of the default of a variable and that of the body of a template.
For each of the two, this is what one expansion comes to when it is the next to begin: which default
or template it is, in which context, and what stands in its place if it may not begin.

A name that no frame binds means what it means in the node that is the scope
(`nameValue?_eq_or`), and there it has the value of the default to which it leads
(`Index.defaultOf?`, `nameValue?_ofIndex_succ`). An instantiation is its arguments
(`argumentsObject`) or the body of its template (`templateObject`).
-/

namespace SemanticIndex

variable {policy : ZeroDivision} {budget : Nat} {active : List Expansion} {c : Context} {t : Index}
  {i : NodeId} {name : String}

/-! ### Defaults -/

/-- The default of the variable that a name means in a node, with the node that holds the variable
and the name under which it is declared. -/
def Index.defaultOf? (t : Index) (i : NodeId) (name : String) : Option (NodeId × String × Value) :=
  (t.resolveVariable? i name).bind fun (owner, v) =>
    v.declaration.default.map fun default => (owner, v.declaration.name, default)

/-- A context over an index binds no name. -/
@[simp]
theorem Context.lookup?_ofIndex (t : Index) (scope : Option NodeId) (name : String) :
    (ofIndex t scope).lookup? name = none := by
  simp [lookup?, ofIndex, frames, Frame.empty]

@[simp]
theorem Context.scope?_ofIndex (t : Index) (scope : Option NodeId) :
    (ofIndex t scope).scope? = scope := by
  cases scope <;> rfl

/-- Nothing is expanded where no expansion may begin. -/
theorem nameValue?_ofIndex_zero (policy : ZeroDivision) (active : List Expansion) (t : Index)
    (i : NodeId) (name : String) :
    nameValue? policy 0 active (.ofIndex t (some i)) name = none := by
  rw [nameValue?, Context.lookup?_ofIndex]

/-- In a node a name has the value of the default to which it leads, unless this default is being
expanded. -/
theorem nameValue?_ofIndex_succ (policy : ZeroDivision) (budget : Nat) (active : List Expansion)
    (t : Index) (i : NodeId) (name : String) :
    nameValue? policy (budget + 1) active (.ofIndex t (some i)) name =
      (t.defaultOf? i name).bind fun (owner, x, default) =>
        if .var owner x ∈ active then
          none
        else
          some
            (valueOf policy budget (.var owner x :: active) (.ofIndex t (some owner)) default) := by
  rw [nameValue?, Context.lookup?_ofIndex, Option.none_or, Context.scope?_ofIndex,
    Index.defaultOf?, Option.bind_assoc]
  show ((t.resolveVariable? i name).bind _) = _
  refine Option.bind_congr ?_
  rintro ⟨owner, v⟩ -
  simp only [Option.bind_map]
  rfl

/-- A name means what a frame binds it to, else what it means in the scope. -/
theorem nameValue?_eq_or (policy : ZeroDivision) (budget : Nat) (active : List Expansion)
    (c : Context) (name : String) :
    nameValue? policy budget active c name =
      (c.lookup? name).or (c.index.bind fun t =>
        nameValue? policy budget active (.ofIndex t (some (c.scope?.getD Index.root))) name) := by
  cases budget with
  | zero =>
    rw [nameValue?]
    cases c.index <;> simp [nameValue?_ofIndex_zero]
  | succ budget =>
    rw [nameValue?]
    simp only [nameValue?, Context.lookup?_ofIndex, Option.none_or, Context.scope?_ofIndex,
      Option.getD_some]
    rfl

/-- A name that leads to no default has no value. -/
theorem nameValue?_ofIndex_of_none (h : t.defaultOf? i name = none) :
    nameValue? policy budget active (.ofIndex t (some i)) name = none := by
  cases budget with
  | zero => exact nameValue?_ofIndex_zero ..
  | succ budget => rw [nameValue?_ofIndex_succ, h, Option.bind_none]

/-- A name has no value while its default is being expanded. -/
theorem nameValue?_ofIndex_of_active {owner : NodeId} {x : String} {default : Value}
    (h : t.defaultOf? i name = some (owner, x, default)) (hactive : .var owner x ∈ active) :
    nameValue? policy budget active (.ofIndex t (some i)) name = none := by
  cases budget with
  | zero => exact nameValue?_ofIndex_zero ..
  | succ budget => simp only [nameValue?_ofIndex_succ, h, Option.bind_some, if_pos hactive]

/-- Else it has the value of its default, which is then being expanded. -/
theorem nameValue?_ofIndex_of_not_active {owner : NodeId} {x : String} {default : Value}
    (h : t.defaultOf? i name = some (owner, x, default)) (hactive : .var owner x ∉ active) :
    nameValue? policy (budget + 1) active (.ofIndex t (some i)) name =
      some (valueOf policy budget (.var owner x :: active) (.ofIndex t (some owner)) default) := by
  simp only [nameValue?_ofIndex_succ, h, Option.bind_some, if_neg hactive]

/-! ### Templates -/

/-- An object with the arguments of an instantiation for a body. -/
def argumentsObject (eval : Context → Value → Value) (c : Context) (i : Instantiation) :
    Definition :=
  .object (.reference i.name i.span.start) ((argumentsOf eval c i).map .field) i.span

/-- The context in which the body of a template is expanded: inside the object of the
instantiation, with the parameters bound. -/
def Context.inside (c : Context) (eval : Context → Value → Value) (arguments : List Field)
    (i : Instantiation) (template : Template) : Context :=
  template.parameters.foldl (bindParameter eval arguments) (c.enter (c.childScope? i.name))

/-- Binding a parameter keeps what binding a name keeps. -/
theorem bindParameter_induction {P : Context → Prop} {eval : Context → Value → Value}
    {arguments : List Field} (hdefine : ∀ c name v, P c → P (c.define name v)) (hc : P c)
    (p : Parameter) : P (bindParameter eval arguments c p) := by
  unfold bindParameter
  split
  · exact hdefine _ _ _ hc
  · split
    · exact hdefine _ _ _ hc
    · exact hc

/-- What is so right inside the object and is kept when a name is bound, is so where the body of the
template is expanded. -/
theorem Context.inside_induction {P : Context → Prop} {eval : Context → Value → Value}
    {arguments : List Field} {i : Instantiation} {template : Template}
    (hdefine : ∀ c name v, P c → P (c.define name v)) (hc : P (c.enter (c.childScope? i.name))) :
    P (c.inside eval arguments i template) := by
  rw [inside]
  generalize c.enter (c.childScope? i.name) = c' at hc
  induction template.parameters generalizing c' with
  | nil => exact hc
  | cons p ps ih => exact ih _ (bindParameter_induction hdefine hc p)

/-- An object with the body of a template, given the arguments of the instantiation. -/
def templateObject (eval : Context → Value → Value) (inst : Context → Instantiation → Definition)
    (arguments : List Field) (c : Context) (i : Instantiation) (template : Template) : Definition :=
  .object (.reference i.name i.span.start)
    (expandAllWith eval inst (c.inside eval arguments i template) template.body).1 i.span

variable {j : Instantiation} {template : Template}

/-- Where no expansion may begin, an instantiation is its arguments. -/
theorem instantiate_zero (policy : ZeroDivision) (active : List Expansion) (c : Context)
    (j : Instantiation) :
    instantiate policy 0 active c j = argumentsObject (valueOf policy 0 active) c j := by
  rw [instantiate, argumentsObject]

/-- So it is if the template is not known. -/
theorem instantiate_of_none (h : c.template? j.template = none) :
    instantiate policy budget active c j = argumentsObject (valueOf policy budget active) c j := by
  cases budget with
  | zero => exact instantiate_zero ..
  | succ budget => rw [instantiate, h, argumentsObject]

/-- So it is while the template is being expanded. -/
theorem instantiate_of_active (h : c.template? j.template = some template)
    (hactive : .template template.name ∈ active) :
    instantiate policy budget active c j = argumentsObject (valueOf policy budget active) c j := by
  cases budget with
  | zero => exact instantiate_zero ..
  | succ budget =>
    rw [instantiate, h, argumentsObject]
    simp only [if_pos hactive]

/-- Else it is the body of its template, which is then being expanded. -/
theorem instantiate_of_not_active (h : c.template? j.template = some template)
    (hactive : .template template.name ∉ active) :
    instantiate policy (budget + 1) active c j =
      templateObject (valueOf policy budget (.template template.name :: active))
        (instantiate policy budget (.template template.name :: active))
        (argumentsOf (valueOf policy (budget + 1) active) c j) c j template := by
  rw [instantiate, h, templateObject, Context.inside]
  simp only [if_neg hactive]

end SemanticIndex
