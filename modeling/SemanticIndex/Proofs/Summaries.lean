import SemanticIndex.Evaluation.Evaluate

/-!
# Current Summaries

What a node stores besides its fragments is a digest of them. A node is current when its digest is
the one that summing up its fragments anew would give, apart from the values that evaluation has
noted (`Node.IsCurrent`); then `Node.refreshed` only forgets these values
(`Node.IsCurrent.refreshed_eq`).
-/

namespace SemanticIndex

/-- The entry as it was before any evaluation. -/
def FieldEntry.withoutValue (e : FieldEntry) : FieldEntry := { e with evaluated := none }

/-- The summary as it was before any evaluation. -/
def Summary.withoutValues (s : Summary) : Summary :=
  { s with fields := s.fields.map fun _ entries => entries.map FieldEntry.withoutValue }

/-- The node as it was before any evaluation. -/
def Node.withoutValues (n : Node) : Node := { n with summary := n.summary.withoutValues }

namespace Summary

/-- A fresh summary has no values yet. -/
@[simp]
theorem withoutValues_ofFragments (options : IndexOptions) (fragments : List Fragment) :
    (ofFragments options fragments).withoutValues = ofFragments options fragments := by
  -- each entry is made from a member of a fragment, and has no value then
  have hfields : (gather (fragments.flatMap fragmentFields)).map
      (fun _ entries => entries.map FieldEntry.withoutValue) =
        gather (fragments.flatMap fragmentFields) := by
    refine Std.ExtTreeMap.ext_getElem? fun name => ?_
    rw [Std.ExtTreeMap.getElem?_map]
    cases hentries : (gather (fragments.flatMap fragmentFields))[name]? with
    | none => rfl
    | some entries =>
      have hlist := getElem?_gather (fragments.flatMap fragmentFields) name
      rw [hentries, Option.getD_some] at hlist
      rw [Option.map_some, Option.some.injEq]
      refine (List.map_congr_left ?_).trans (List.map_id entries)
      intro e he
      rw [hlist] at he
      simp only [List.mem_map, List.mem_filter, List.mem_flatMap, fragmentFields,
        List.mem_filterMap] at he
      obtain ⟨⟨_, _⟩, ⟨⟨f, -, m, -, hm⟩, -⟩, rfl⟩ := he
      -- only a field makes an entry
      split at hm
      · cases hm
        rfl
      · cases hm
  unfold withoutValues ofFragments
  rw [hfields]

/-- Nothing but values is noted. -/
@[simp]
theorem withoutValues_noteValues (f : Value → Value) (s : Summary) :
    (Index.noteValues f s).withoutValues = s.withoutValues := by
  have hfields : ((s.fields.map fun _ entries =>
      entries.map fun e => { e with evaluated := some (f e.value) }).map
        fun _ entries => entries.map FieldEntry.withoutValue) =
      s.fields.map fun _ entries => entries.map FieldEntry.withoutValue := by
    refine Std.ExtTreeMap.ext_getElem? fun name => ?_
    simp only [Std.ExtTreeMap.getElem?_map, Option.map_map, Function.comp_def, List.map_map]
    rfl
  unfold withoutValues Index.noteValues
  rw [hfields]

/-- Without values a field has the same entry, without its value. -/
theorem field?_withoutValues (s : Summary) (name : String) :
    s.withoutValues.field? name = (s.field? name).map FieldEntry.withoutValue := by
  rw [field?, field?, withoutValues, Std.ExtTreeMap.getElem?_map]
  cases s.fields[name]? with
  | none => rfl
  | some entries => exact List.getLast?_map

end Summary

namespace Node

/-- What the node stores about its fragments is what they amount to. -/
structure IsCurrent (options : IndexOptions) (n : Node) : Prop where
  realName_eq : n.realName = n.declaredRealName
  summary_eq : n.summary.withoutValues = .ofFragments options n.fragments
  isLink_of_target : n.target ≠ none → n.isLink options = true

variable {options : IndexOptions} {n m : Node}

/-- Summing up a current node anew only forgets values. -/
theorem IsCurrent.refreshed_eq (h : n.IsCurrent options) :
    n.refreshed options = n.withoutValues := by
  -- a node that is no link has no target that could be lost
  have htarget : (if n.isLink options then n.target else none) = n.target := by
    cases ht : n.target with
    | none => simp
    | some id => rw [if_pos (h.isLink_of_target (by simp [ht]))]
  rw [refreshed, withoutValues, h.summary_eq, ← h.realName_eq, htarget]

/-- A node that has been refreshed is current. -/
theorem isCurrent_refreshed (options : IndexOptions) (n : Node) :
    (n.refreshed options).IsCurrent options where
  realName_eq := rfl
  summary_eq := Summary.withoutValues_ofFragments options n.fragments
  isLink_of_target h := by
    have hlink : (n.refreshed options).isLink options = n.isLink options := rfl
    have htarget : (n.refreshed options).target = if n.isLink options then n.target else none := rfl
    rw [htarget] at h
    rw [hlink]
    split at h
    · assumption
    · exact absurd rfl h

/-- A node without fragments that is declared without sigils is current. -/
theorem isCurrent_new (options : IndexOptions) (name : String) (above : List NodeId) :
    (new name name above).IsCurrent options where
  realName_eq := rfl
  summary_eq := Summary.withoutValues_ofFragments {} []
  isLink_of_target h := absurd rfl h

/-- A link is one with more fragments. -/
theorem isLink_of_isPrefix (h : n.isLink options = true)
    (hfragments : n.fragments <+: m.fragments) : m.isLink options = true := by
  obtain ⟨more, hmore⟩ := hfragments
  rw [isLink, ← hmore, List.any_append, Bool.or_eq_true]
  exact Or.inl h

/-- Whether a node is current depends on what it holds, not on where it stands. -/
theorem IsCurrent.congr (h : n.IsCurrent options) (hname : m.name = n.name)
    (hreal : m.realName = n.realName) (hfragments : m.fragments = n.fragments)
    (hsummary : m.summary.withoutValues = n.summary.withoutValues)
    (htarget : m.target ≠ none → n.target ≠ none) : m.IsCurrent options where
  realName_eq := by
    rw [hreal, h.realName_eq, declaredRealName, declaredRealName, hname, hfragments]
  summary_eq := by rw [hsummary, h.summary_eq, hfragments]
  isLink_of_target hm := by
    rw [isLink, hfragments]
    exact h.isLink_of_target (htarget hm)

/-- The variables of a current node are those of its fragments. -/
theorem IsCurrent.vars_eq (h : n.IsCurrent options) :
    n.summary.vars = .ofList (n.fragments.flatMap Summary.fragmentVariables) :=
  congrArg Summary.vars h.summary_eq

/-- So are its fields, the entries of each name in the order of the fragments. -/
theorem IsCurrent.map_fields_eq (h : n.IsCurrent options) (x : String) :
    (n.summary.fields[x]?.getD []).map FieldEntry.withoutValue =
      ((n.fragments.flatMap Summary.fragmentFields).filter fun e => e.1 = x).map Prod.snd := by
  have hfields : n.summary.fields.map (fun _ entries => entries.map FieldEntry.withoutValue) =
      gather (n.fragments.flatMap Summary.fragmentFields) := congrArg Summary.fields h.summary_eq
  rw [← getElem?_gather, ← hfields, Std.ExtTreeMap.getElem?_map]
  cases n.summary.fields[x]? <;> rfl

/-- An entry of a current node is that of a field in one of its fragments. -/
theorem IsCurrent.exists_fragment_of_mem_fields (h : n.IsCurrent options) {x : String}
    {e : FieldEntry} (he : e ∈ n.summary.fields[x]?.getD []) :
    ∃ g ∈ n.fragments, (x, e.withoutValue) ∈ Summary.fragmentFields g := by
  have hentry := List.mem_map_of_mem (f := FieldEntry.withoutValue) he
  rw [h.map_fields_eq] at hentry
  obtain ⟨⟨y, e'⟩, hfilter, heq⟩ := List.mem_map.mp hentry
  obtain ⟨hmem, hname⟩ := List.mem_filter.mp hfilter
  obtain rfl : y = x := of_decide_eq_true hname
  obtain rfl : e' = e.withoutValue := heq
  exact List.mem_flatMap.mp hmem

/-- A field in a fragment of a current node has an entry. -/
theorem IsCurrent.exists_mem_fields (h : n.IsCurrent options) {x : String} {e : FieldEntry}
    {g : Fragment} (hg : g ∈ n.fragments) (he : (x, e) ∈ Summary.fragmentFields g) :
    ∃ e' ∈ n.summary.fields[x]?.getD [], e'.withoutValue = e := by
  refine List.mem_map.mp ?_
  rw [h.map_fields_eq]
  refine List.mem_map.mpr ⟨(x, e), List.mem_filter.mpr ⟨?_, decide_eq_true rfl⟩, rfl⟩
  exact List.mem_flatMap.mpr ⟨g, hg, he⟩

/-- A variable of a current node is made of a member of one of its fragments. -/
theorem IsCurrent.exists_mem_fragmentVariables (h : n.IsCurrent options) {x : String}
    {v : VariableEntry} (hv : n.summary.vars[x]? = some v) :
    ∃ g ∈ n.fragments, (x, v) ∈ Summary.fragmentVariables g := by
  rw [h.vars_eq, getElem?_ofList, Option.map_eq_some_iff] at hv
  obtain ⟨⟨y, v⟩, hlast, rfl⟩ := hv
  obtain ⟨hmem, hname⟩ := List.mem_filter.mp (List.mem_of_getLast? hlast)
  obtain rfl : y = x := of_decide_eq_true hname
  exact List.mem_flatMap.mp hmem

/-- A variable of a current node is that of a declaration in one of its fragments. -/
theorem IsCurrent.exists_fragment_of_vars (h : n.IsCurrent options) {x : String} {v : VariableEntry}
    (hv : n.summary.vars[x]? = some v) :
    ∃ g ∈ n.fragments, v.file = g.file ∧ v.declaration.name = x ∧
      ∃ c, (.var v.declaration, c) ∈ g.members := by
  obtain ⟨g, hg, hmade⟩ := h.exists_mem_fragmentVariables hv
  obtain ⟨m, hm, hmade⟩ := List.mem_filterMap.mp hmade
  split at hmade
  · rename_i declaration hvar
    obtain ⟨rfl, rfl⟩ := Prod.mk.inj (Option.some.inj hmade)
    exact ⟨g, hg, rfl, rfl, m.2, hvar ▸ hm⟩
  · cases hmade

end Node

end SemanticIndex
