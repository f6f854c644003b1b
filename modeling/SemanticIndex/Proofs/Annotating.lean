import SemanticIndex.Index.Resolution
import SemanticIndex.Proofs.Ledger

/-!
# What Is Found Out Later

Resolution, evaluation and the clearing of what dangles leave the nodes where they stand and the
fragments on them: they only note targets, bindings and values, so an index stays built from its
ledger (`Index.Built.resolve`, `Index.Built.reevaluate`, `Index.Built.clearDangling`).
-/

namespace SemanticIndex

namespace Index

variable {t u : Index} {lay : Layout} {L : Ledger}

/-! ### Notes on the nodes -/

/-- Other values and other targets, of links only, do not change what an index holds. -/
theorem Holds.annotate {ds : List Deposit} (h : t.Holds lay ds []) {g : NodeId → Node → Node}
    (hoptions : u.options = t.options) (hnext : u.nextId = t.nextId) (hnames : u.names = t.names)
    (hnode : ∀ i, u.node? i = (t.node? i).map (g i))
    (hg : ∀ i n, g i n = { n with summary := (g i n).summary, target := (g i n).target })
    (hsummary : ∀ i n, (g i n).summary.withoutValues = n.summary.withoutValues)
    (htarget : ∀ i n, t.node? i = some n → (g i n).target ≠ none →
      n.isLink t.options = true) : u.Holds lay ds [] := by
  refine { laid := h.laid.congr hnext fun i => ?_, named := h.named.congr hnames fun i => ?_,
           fragments_eq := ?_, placed := h.placed, current := ?_ }
  · rw [hnode, Option.map_map]
    refine Option.map_congr fun n _ => ?_
    rw [Function.comp_apply, hg]
    rfl
  · rw [hnode, Option.map_map]
    refine Option.map_congr fun n _ => ?_
    rw [Function.comp_apply, hg]
  · intro a i m ha hm
    rw [hnode] at hm
    obtain ⟨n, hn, rfl⟩ := Option.map_eq_some_iff.mp hm
    rw [hg]
    show n.fragments = _
    exact h.fragments_eq ha hn
  · intro i m hm _
    rw [hnode] at hm
    obtain ⟨n, hn, rfl⟩ := Option.map_eq_some_iff.mp hm
    have hcurrent := h.current hn List.not_mem_nil
    have hsum := hsummary i n
    have hlink := htarget i n hn
    rw [hoptions]
    -- the changed node is the old one with other values and another target
    rw [hg] at hsum hlink ⊢
    refine ⟨hcurrent.realName_eq, hsum.trans hcurrent.summary_eq, hlink⟩

/-! ### Clearing -/

/-- Clearing takes the targets away that are gone, and nothing else. -/
theorem node?_clearDangling (t : Index) (i : NodeId) :
    t.clearDangling.node? i =
      (t.node? i).map fun n => { n with target := n.target.filter t.isLive } := by
  rw [node?, clearDangling, Std.ExtTreeMap.getElem?_map]
  rfl

/-- Clearing targets changes no fragment. -/
theorem Holds.clearDangling {ds : List Deposit} (h : t.Holds lay ds []) :
    t.clearDangling.Holds lay ds [] := by
  refine h.annotate (g := fun _ n => { n with target := n.target.filter t.isLive }) rfl rfl rfl
    (node?_clearDangling t) (fun _ _ => rfl) (fun _ _ => rfl) fun i n hn htarget => ?_
  refine (h.current hn List.not_mem_nil).isLink_of_target fun hnone => htarget ?_
  show n.target.filter t.isLive = none
  rw [hnone, Option.filter_none]

/-- Clearing targets keeps a built index built. -/
theorem Built.clearDangling (h : t.Built L lay) : t.clearDangling.Built L lay :=
  h.congr h.toHolds.clearDangling
    ⟨fun r => t.keepBinding r.binding, fun _ => Std.ExtTreeMap.getElem?_map⟩ rfl

/-! ### Evaluation -/

/-- Evaluating fields changes the summaries only. -/
theorem node?_reevaluate (t : Index) (o : EvaluationOptions) (i : NodeId) :
    (t.reevaluate o).node? i =
      (t.node? i).map fun n => { n with summary := noteValues (t.evaluateAt o i) n.summary } := by
  rw [node?, reevaluate, Std.ExtTreeMap.getElem?_map]
  rfl

/-- Evaluating fields keeps a built index built. -/
theorem Built.reevaluate (h : t.Built L lay) (o : EvaluationOptions) :
    (t.reevaluate o).Built L lay := by
  have hholds : (t.reevaluate o).Holds lay L.deposits [] := by
    refine h.toHolds.annotate
      (g := fun i n => { n with summary := noteValues (t.evaluateAt o i) n.summary }) rfl rfl rfl
      (node?_reevaluate t o) (fun _ _ => rfl)
      (fun i n => Summary.withoutValues_noteValues _ _) fun i n hn htarget => ?_
    exact (h.current hn List.not_mem_nil).isLink_of_target htarget
  refine h.congr hholds ⟨Reference.binding, fun k => ?_⟩ rfl
  have hsame : FileRecord.rebound Reference.binding = id :=
    funext fun f => FileRecord.rebound_eq_self fun _ _ => rfl
  rw [hsame, Option.map_id]
  rfl

/-! ### Resolution -/

/-- A node has a link name only if one of its fragments makes it a link. -/
theorem isLink_of_linkName? {id : NodeId} {n : Node} {name : String} (hn : t.node? id = some n)
    (hcurrent : n.IsCurrent t.options) (hname : t.linkName? id = some name) :
    n.isLink t.options = true := by
  rw [linkName?, hn, Option.bind_some, List.findSome?_eq_some_iff] at hname
  obtain ⟨before, field, after, hfields, hentry, -⟩ := hname
  obtain ⟨entry, hentry, hbare⟩ := Option.bind_eq_some_iff.mp hentry
  rw [Node.field?, Summary.field?, Option.bind_eq_some_iff] at hentry
  obtain ⟨entries, hentries, hlast⟩ := hentry
  -- the entry is that of a member of some fragment
  have hsum : (n.summary.withoutValues).fields[field]? =
      some (entries.map FieldEntry.withoutValue) := by
    rw [Summary.withoutValues, Std.ExtTreeMap.getElem?_map, hentries]
    rfl
  rw [hcurrent.summary_eq] at hsum
  have hgather := getElem?_gather (n.fragments.flatMap Summary.fragmentFields) field
  have hfresh : (gather (n.fragments.flatMap Summary.fragmentFields))[field]? =
      some (entries.map FieldEntry.withoutValue) := hsum
  rw [hfresh, Option.getD_some] at hgather
  -- the last entry comes from a field that is a link by its name and has a reference for a value
  have hmem : entry.withoutValue ∈ entries.map FieldEntry.withoutValue :=
    List.mem_map_of_mem (List.mem_of_getLast? hlast)
  rw [hgather] at hmem
  simp only [List.mem_map, List.mem_filter, List.mem_flatMap, Summary.fragmentFields,
    List.mem_filterMap] at hmem
  obtain ⟨⟨key, e⟩, ⟨⟨f, hf, m, hm, heq⟩, hkey⟩, he⟩ := hmem
  refine List.any_eq_true.mpr ⟨f, hf, List.any_eq_true.mpr ⟨m, hm, ?_⟩⟩
  split at heq
  · rename_i d hd
    rw [Option.some.injEq, Prod.mk.injEq] at heq
    obtain ⟨rfl, rfl⟩ := heq
    have hvalue : d.value = entry.value := congrArg FieldEntry.value he
    simp only [decide_eq_true_eq] at hkey
    have hreference : d.value.isReference = true := by
      rw [hvalue]
      revert hbare
      cases entry.value <;> simp [bareName?, Value.isReference]
    have hfield : t.options.isLinkField d.name = true := by
      rw [hkey, IndexOptions.isLinkField, List.contains_iff_mem, hfields]
      exact List.mem_append_right _ List.mem_cons_self
    rw [hfield, hreference]
    rfl
  · cases heq

/-- Resolution gives each node its target and changes nothing else of it. -/
theorem node?_resolve (t : Index) (i : NodeId) :
    t.resolve.node? i = (t.node? i).map fun n => { n with target := t.targetOf i n } := by
  rw [node?, resolve, Std.ExtTreeMap.getElem?_map]
  rfl

/-- Resolution keeps a built index built. -/
theorem Built.resolve (h : t.Built L lay) : t.resolve.Built L lay := by
  have hholds : t.resolve.Holds lay L.deposits [] := by
    refine h.toHolds.annotate (g := fun i n => { n with target := t.targetOf i n }) rfl rfl rfl
      (node?_resolve t) (fun _ _ => rfl) (fun _ _ => rfl) fun i n hn htarget => ?_
    have hcurrent := h.current hn List.not_mem_nil
    -- without a link name the target is the one from before
    cases hname : t.linkName? i with
    | none =>
      rw [targetOf, hname] at htarget
      exact hcurrent.isLink_of_target htarget
    | some name => exact isLink_of_linkName? hn hcurrent hname
  exact h.congr hholds
    ⟨fun r => t.bindingOf r.scope r.mention, fun _ => Std.ExtTreeMap.getElem?_map⟩ rfl

end Index

end SemanticIndex
