import SemanticIndex.Proofs.Meaning

/-!
# Bindings Across Operations

What a reference may be bound to depends on its mention (`Mention.Admits`), and no node is its own
target; every operation keeps to that (`Index.Built.admissible_apply`). Adding and removing a file
leave the bindings of the other files alone, except that those that lead to what is gone with the
old content of the file are cleared (`Index.Built.onlyClears_remove`,
`Index.Built.onlyClears_add`).

The node and the variable of a reference may be kept apart: what is found for each of them
(`Index.targetsOf_eq`), and what is cleared of each (`Index.keepTargets_eq`), are the parts of one
binding.
-/

namespace SemanticIndex

/-- The variable that the reference is bound to, with the node that holds it. -/
def Reference.boundVariable? (r : Reference) : Option (NodeId × String) :=
  match r.binding with
  | .var owner name => some (owner, name)
  | _ => none

/-- The parts of what a reference is bound to are its node and its variable. -/
theorem Reference.targets_binding (r : Reference) :
    r.binding.targets = (r.target?, r.boundVariable?) := by
  unfold target? boundVariable?
  cases r.binding <;> rfl

/-- A binding has one part at most. -/
theorem Binding.one_target (b : Binding) : b.targets.1 = none ∨ b.targets.2 = none := by
  cases b with
  | unbound | var => exact Or.inl rfl
  | node => exact Or.inr rfl

/-- A local mention is bound to nothing, and one that is marked as a variable's to no node. -/
structure Mention.Admits (m : Mention) (b : Binding) : Prop where
  of_local : m.isLocal = true → b = .unbound
  of_marked : m.marked = true → ∀ id, b ≠ .node id

/-- Every mention may be unbound. -/
theorem Mention.admits_unbound (m : Mention) : m.Admits .unbound :=
  ⟨fun _ => rfl, fun _ _ h => nomatch h⟩

namespace Index

/-- What a binding leads to is there. -/
def Offers (t : Index) : Binding → Prop
  | .unbound => True
  | .node id => t.isLive id = true
  | .var owner name => t.HoldsVariable owner name

/-- No reference is bound to what its mention may not be bound to, and no node is its own target. -/
structure Admissible (t : Index) : Prop where
  admits : ∀ {k : List PathComponent} {f : FileRecord} {r : Reference},
    t.files[k]? = some f → r ∈ f.references → r.mention.Admits r.binding
  target_ne : ∀ {i : NodeId} {n : Node}, t.node? i = some n → n.target ≠ some i

/-- From `t` to `u`, where `path` has lost its old content, a reference of another file is cleared
if what it was bound to is gone with that content, and stays as it was if not. -/
def OnlyClears (t u : Index) (path : SourcePath) : Prop :=
  ∀ other : SourcePath, other.components ≠ path.components →
    List.Forall₂
      (fun r r' => (t.remove path).Offers r.binding ∧ r' = r ∨
        ¬ (t.remove path).Offers r.binding ∧ r' = { r with binding := .unbound })
      (t.referencesIn other) (u.referencesIn other)

/-- References and links are bound to what is there and to nothing else, each to one thing at most
and to none that it may not be bound to. -/
structure WellBound (t : Index) : Prop where
  scope_live : ∀ r ∈ t.references, t.isLive r.scope = true
  one_target : ∀ r ∈ t.references, r.target? = none ∨ r.boundVariable? = none
  local_unbound : ∀ r ∈ t.references, r.mention.isLocal = true →
    r.target? = none ∧ r.boundVariable? = none
  marked_no_node : ∀ r ∈ t.references, r.mention.marked = true → r.target? = none
  target_live : ∀ r ∈ t.references, ∀ id, r.target? = some id → t.isLive id = true
  variable_held : ∀ r ∈ t.references, ∀ owner name, r.boundVariable? = some (owner, name) →
    t.HoldsVariable owner name
  link_live : ∀ i n j, t.node? i = some n → n.target = some j → t.isLive j = true ∧ j ≠ i

variable {t u : Index} {L : Ledger} {lay : Layout} {path : SourcePath} {b : Binding}

/-! ### What is kept -/

/-- A binding is kept if it leads to something. -/
theorem keepBinding_of_offers (h : t.Offers b) : t.keepBinding b = b := by
  cases b with
  | unbound => rfl
  | node id => exact if_pos h
  | var owner name =>
    obtain ⟨n, v, hn, hv⟩ := h
    rw [keepBinding, hn]
    refine if_pos ?_
    rw [Std.ExtTreeMap.contains_eq_isSome_getElem?, hv, Option.isSome_some]

/-- A binding to what is no longer there is cleared. -/
theorem keepBinding_of_not_offers (h : ¬ t.Offers b) : t.keepBinding b = .unbound := by
  cases b with
  | unbound => rfl
  | node id => exact if_neg h
  | var owner name =>
    rw [keepBinding]
    split
    · rename_i n hn
      refine if_neg fun hvar => h ?_
      rw [Std.ExtTreeMap.contains_eq_isSome_getElem?] at hvar
      obtain ⟨v, hv⟩ := Option.isSome_iff_exists.mp hvar
      exact ⟨n, v, hn, hv⟩
    · rfl

/-- What is kept leads to something. -/
theorem offers_of_keepBinding (h : t.keepBinding b = b) : t.Offers b := by
  by_contra hgone
  rw [keepBinding_of_not_offers hgone] at h
  exact hgone (h ▸ trivial)

/-- A binding that is kept or cleared is still one that the mention may have. -/
theorem admits_keepBinding {m : Mention} (h : m.Admits b) (t : Index) :
    m.Admits (t.keepBinding b) := by
  by_cases hoffers : t.Offers b
  · rwa [keepBinding_of_offers hoffers]
  · rw [keepBinding_of_not_offers hoffers]
    exact m.admits_unbound

/-- Clearing takes no node and no variable away, so the same bindings are kept afterwards. -/
theorem keepBinding_clearDangling (t : Index) (b : Binding) :
    t.clearDangling.keepBinding b = t.keepBinding b := by
  cases b with
  | unbound => rfl
  | node id =>
    have hlive : t.clearDangling.isLive id = t.isLive id := by
      rw [isLive, node?_clearDangling, Option.isSome_map, isLive]
    rw [keepBinding, keepBinding, hlive]
  | var owner name =>
    rw [keepBinding, keepBinding, node?_clearDangling]
    cases t.node? owner <;> rfl

/-! ### Records of files -/

/-- Removing a file takes its record away, and keeps of the bindings of the others those that still
lead to something. -/
theorem Built.files_remove (h : t.Built L lay) (ht : t.Anchored) (path : SourcePath)
    (k : List PathComponent) :
    (t.remove path).files[k]? =
      if path.components = k then none
      else (t.files[k]?).map
        (FileRecord.rebound fun r => (t.remove path).keepBinding r.binding) := by
  cases hfile : t.file? path with
  | none =>
    rw [remove_of_not_hasFile (hasFile_eq_false_iff.mpr hfile)]
    split
    · rename_i hk
      rw [← hk]
      exact hfile
    -- nothing is removed, and nothing dangles as it is
    · cases hf : t.files[k]? with
      | none => rfl
      | some f =>
        rw [Option.map_some, FileRecord.rebound_eq_self fun r hr => ht.keep_binding hf hr]
  | some f =>
    obtain ⟨u, lay', hpruned, -, heq⟩ := h.exists_withdraw_eq hfile
    have hfiles : u.files = t.files.erase f.path.components :=
      ((sameFiles_emptied t f).trans hpruned.toSameFiles).files_eq
    have hcleared : u.clearDangling.files[k]? =
        (u.files[k]?).map (FileRecord.rebound fun r => u.keepBinding r.binding) :=
      Std.ExtTreeMap.getElem?_map
    rw [remove_of_file? hfile, heq, hcleared, hfiles, Std.ExtTreeMap.getElem?_erase,
      h.components_eq hfile]
    simp only [Std.LawfulEqCmp.compare_eq_iff_eq, keepBinding_clearDangling]
    split <;> rfl

/-- Adding a file enters a record in which nothing is bound, and leaves the others alone. -/
theorem Built.exists_files_contribute (h : t.Built L lay) (hnew : t.hasFile path = false)
    (doc : Document) :
    ∃ f : FileRecord, (∀ r ∈ f.references, r.binding = .unbound) ∧
      ∀ k : List PathComponent, (t.contribute path (doc.outline path)).files[k]? =
        if path.components = k then some f else t.files[k]? := by
  obtain ⟨u, lay', ids, top, hlaying, -, heq⟩ := h.exists_contribute_eq hnew doc
  have hsame := hlaying.extended.toSameFiles.trans (SameFiles.foldl sameFiles_refresh ids u)
  refine ⟨newRecord (ids.foldl refresh u) path (doc.outline path) top ids, fun r hr => ?_,
    fun k => ?_⟩
  · obtain ⟨m, -, rfl⟩ := List.mem_map.mp hr
    rfl
  · rw [heq, recorded, Std.ExtTreeMap.getElem?_insert, hsame.files_eq]
    simp only [Std.LawfulEqCmp.compare_eq_iff_eq]

/-! ### Operations on bindings -/

/-- No reference stands in the empty index. -/
theorem admissible_empty (options : IndexOptions) : (empty options).Admissible where
  admits hf := by simp [empty] at hf
  target_ne hn := by
    rw [node?_empty] at hn
    split at hn
    · rw [← Option.some.inj hn]
      rintro ⟨⟩
    · cases hn

/-- Removing a file sets no target. -/
theorem Built.exists_node_of_remove (h : t.Built L lay) {i : NodeId} {m : Node}
    (hm : (t.remove path).node? i = some m) :
    ∃ n, t.node? i = some n ∧ ∀ j, m.target = some j → n.target = some j := by
  cases hfile : t.file? path with
  | none =>
    rw [remove, hfile] at hm
    exact ⟨m, hm, fun _ => id⟩
  | some f =>
    obtain ⟨u, lay', hpruned, -, heq⟩ := h.exists_withdraw_eq hfile
    rw [remove_of_file? hfile, heq, node?_clearDangling] at hm
    obtain ⟨k, hk, rfl⟩ := Option.map_eq_some_iff.mp hm
    obtain ⟨e, he, hke⟩ := hpruned.node hk
    have htarget : k.target = e.target := by rw [hke]
    -- summing up clears the target of what is no link any more, clearing what dangles
    rw [node?_emptied] at he
    split at he
    · obtain ⟨n, hn, rfl⟩ := Option.map_eq_some_iff.mp he
      refine ⟨n, hn, fun j hj => ?_⟩
      have hj := (Option.filter_eq_some_iff.mp hj).1
      rw [htarget, Node.refreshed] at hj
      dsimp only at hj
      split at hj
      · exact hj
      · cases hj
    · exact ⟨e, he, fun j hj => htarget ▸ (Option.filter_eq_some_iff.mp hj).1⟩

/-- Removing a file leaves bindings that their mentions may have. -/
theorem Built.admissible_remove (h : t.Built L lay) (hanchored : t.Anchored) (ht : t.Admissible)
    (path : SourcePath) : (t.remove path).Admissible := by
  refine ⟨fun {k g r} hg hr => ?_, fun {i m} hm htarget => ?_⟩
  · rw [h.files_remove hanchored] at hg
    split at hg
    · cases hg
    · obtain ⟨f, hf, rfl⟩ := Option.map_eq_some_iff.mp hg
      obtain ⟨r', hr', rfl⟩ := List.mem_map.mp hr
      exact admits_keepBinding (ht.admits hf hr') _
  · obtain ⟨n, hn, hback⟩ := h.exists_node_of_remove hm
    exact ht.target_ne hn (hback i htarget)

/-- So does contributing one, of which no reference is bound yet. -/
theorem Built.admissible_contribute (h : t.Built L lay) (ht : t.Admissible)
    (hnew : t.hasFile path = false) (doc : Document) :
    (t.contribute path (doc.outline path)).Admissible := by
  refine ⟨fun {k g r} hg hr => ?_, fun {i m} hm htarget => ?_⟩
  -- a reference is one of the new file, and unbound, or one that was there before
  · obtain ⟨f, hunbound, hfiles⟩ := h.exists_files_contribute hnew doc
    rw [hfiles] at hg
    split at hg
    · rw [← Option.some.inj hg] at hr
      rw [hunbound r hr]
      exact r.mention.admits_unbound
    · exact ht.admits hg hr
  · obtain ⟨u, lay', ids, top, hlaying, -, heq⟩ := h.exists_contribute_eq hnew doc
    rw [heq] at hm
    obtain ⟨n, hn, hback⟩ := hlaying.exists_target hm (by simp [htarget])
    exact ht.target_ne hn (hback.trans htarget)

/-- What a mention is bound to is admitted. -/
theorem admits_bindingOf (t : Index) (scope : NodeId) (m : Mention) :
    m.Admits (t.bindingOf scope m) := by
  unfold bindingOf
  split
  · exact m.admits_unbound
  · refine ⟨fun hlocal => absurd hlocal ‹_›, fun hmarked id => ?_⟩
    split
    · exact Binding.noConfusion
    · rw [if_pos hmarked]
      exact Binding.noConfusion

/-- A link is never resolved to itself. -/
theorem admissible_resolve (htarget : ∀ {i n}, t.node? i = some n → n.target ≠ some i) :
    t.resolve.Admissible := by
  refine ⟨fun {k g r} hg hr => ?_, fun {i m} hm hself => ?_⟩
  · have hfiles : t.resolve.files[k]? =
        (t.files[k]?).map (FileRecord.rebound fun r => t.bindingOf r.scope r.mention) :=
      Std.ExtTreeMap.getElem?_map
    rw [hfiles] at hg
    obtain ⟨f, -, rfl⟩ := Option.map_eq_some_iff.mp hg
    obtain ⟨r, -, rfl⟩ := List.mem_map.mp hr
    exact admits_bindingOf t r.scope r.mention
  · rw [node?_resolve] at hm
    obtain ⟨n, hn, rfl⟩ := Option.map_eq_some_iff.mp hm
    change t.targetOf i n = some i at hself
    rw [targetOf] at hself
    split at hself
    -- without a link name the node has the target from before
    · exact htarget hn hself
    · obtain ⟨_, -, haccept⟩ := accepted_of_resolveName?_eq hself
      exact bne_iff_ne.mp haccept rfl

/-- In a copy every binding is one that its mention may have. -/
theorem Built.admissible_copy (h : t.Built L lay) : t.copy.Admissible := by
  refine admissible_resolve (t := t.bareCopy.rebuildNames) fun {i m} hm => ?_
  obtain ⟨id, n, -, -, rfl⟩ := exists_of_node?_bareCopy h.laid h.rooted hm
  rintro ⟨⟩

/-- An operation binds no reference and no link to what it may not be bound to. -/
theorem Built.admissible_apply (h : t.Built L lay) (hanchored : t.Anchored) (ht : t.Admissible)
    (op : Operation) : (t.apply op).Admissible := by
  cases op with
  | add path doc =>
    obtain ⟨lay', hremoved⟩ := h.exists_remove path
    exact hremoved.admissible_contribute (h.admissible_remove hanchored ht path)
      (h.hasFile_remove path) doc
  | remove path => exact h.admissible_remove hanchored ht path
  | resolve => exact admissible_resolve ht.target_ne
  | reevaluate options =>
    refine ⟨ht.admits, fun {i m} hm => ?_⟩
    rw [apply, node?_reevaluate] at hm
    obtain ⟨n, hn, rfl⟩ := Option.map_eq_some_iff.mp hm
    exact ht.target_ne (n := n) hn
  | copy => exact h.admissible_copy

/-! ### Other files -/

/-- Removing a file does nothing to the bindings of other files but clear some. -/
theorem Built.onlyClears_remove (h : t.Built L lay) (ht : t.Anchored) (path : SourcePath) :
    t.OnlyClears (t.remove path) path := by
  intro other hother
  have hreferences : (t.remove path).referencesIn other =
      (t.referencesIn other).map fun r =>
        { r with binding := (t.remove path).keepBinding r.binding } := by
    rw [referencesIn, file?, h.files_remove ht, if_neg hother.symm, referencesIn, file?]
    cases t.files[other.components]? <;> rfl
  rw [hreferences]
  refine List.forall₂_map_right_iff.mpr (List.forall₂_same.mpr fun r _ => ?_)
  by_cases hoffers : (t.remove path).Offers r.binding
  · exact Or.inl ⟨hoffers, by rw [keepBinding_of_offers hoffers]⟩
  · exact Or.inr ⟨hoffers, by rw [keepBinding_of_not_offers hoffers]⟩

/-- Neither does adding one. -/
theorem Built.onlyClears_add (h : t.Built L lay) (ht : t.Anchored) (path : SourcePath)
    (doc : Document) : t.OnlyClears (t.add path doc) path := by
  intro other hother
  obtain ⟨lay', hremoved⟩ := h.exists_remove path
  obtain ⟨f, -, hfiles⟩ := hremoved.exists_files_contribute (h.hasFile_remove path) doc
  -- once the old content is gone, the new one changes no other file
  have hsame : (t.add path doc).referencesIn other = (t.remove path).referencesIn other := by
    rw [referencesIn, file?, add, hfiles, if_neg hother.symm, referencesIn, file?]
  rw [hsame]
  exact h.onlyClears_remove ht path other hother

/-! ### Runs -/

/-- Bindings that mentions may have and that lead to live nodes are sound. -/
theorem Built.wellBound (h : t.Built L lay) (hanchored : t.Anchored) (ht : t.Admissible) :
    t.WellBound := by
  -- what dangles would not be kept, and everything is kept
  have hoffers : ∀ {r}, r ∈ t.references → t.Offers r.binding := by
    intro r hr
    obtain ⟨k, f, hf, hr⟩ := mem_references_iff.mp hr
    exact offers_of_keepBinding (hanchored.keep_binding hf hr)
  have hadmits : ∀ {r}, r ∈ t.references → r.mention.Admits r.binding := by
    intro r hr
    obtain ⟨k, f, hf, hr⟩ := mem_references_iff.mp hr
    exact ht.admits hf hr
  refine { scope_live := fun r hr => ?_, one_target := fun r _ => ?_,
           local_unbound := fun r hr hlocal => ?_, marked_no_node := fun r hr hmarked => ?_,
           target_live := fun r hr id hid => ?_, variable_held := fun r hr owner name hvar => ?_,
           link_live := fun i n j hn hj => ⟨hanchored.target_live hn hj, ?_⟩ }
  -- the scope of a reference is an address that its file came to
  · obtain ⟨k, f, hf, hr⟩ := mem_references_iff.mp hr
    obtain ⟨e, -, -, hisOf⟩ := h.isOf hf
    exact h.laid.isLive_iff.mpr (hisOf.exists_scope_at hr)
  · have hparts := r.binding.one_target
    rwa [r.targets_binding] at hparts
  · rw [Reference.target?, Reference.boundVariable?, (hadmits hr).of_local hlocal]
    exact ⟨rfl, rfl⟩
  · have hnode := (hadmits hr).of_marked hmarked
    rw [Reference.target?]
    split
    · exact absurd ‹_› (hnode _)
    · rfl
  · have hlive := hoffers hr
    rw [Reference.target?] at hid
    split at hid
    · rename_i hbinding
      rw [hbinding] at hlive
      exact Option.some.inj hid ▸ hlive
    · cases hid
  · have hheld := hoffers hr
    rw [Reference.boundVariable?] at hvar
    split at hvar
    · rename_i hbinding
      rw [hbinding] at hheld
      obtain ⟨rfl, rfl⟩ := Prod.mk.inj (Option.some.inj hvar)
      exact hheld
    · cases hvar
  · rintro rfl
    exact ht.target_ne hn hj

/-- After any run targets are live and bindings such as their mentions may have. -/
theorem admissible_run (options : IndexOptions) (ops : List Operation) :
    (run options ops).Anchored ∧ (run options ops).Admissible :=
  run_induction (P := fun t => t.Anchored ∧ t.Admissible) options
    ⟨anchored_empty options, admissible_empty options⟩
    (fun op h ht => ⟨h.anchored_apply ht.1 op, h.admissible_apply ht.1 ht.2 op⟩) ops

/-- After any run references and links are bound to what is there, each to one thing at most; and
neither adding nor removing a file changes the binding of a reference of another file, except that
it is cleared if what it leads to is gone with the old content of the file. -/
theorem bindings_run (options : IndexOptions) (ops : List Operation) :
    (run options ops).WellBound ∧
      (∀ path, (run options ops).OnlyClears ((run options ops).remove path) path) ∧
      ∀ path doc, (run options ops).OnlyClears ((run options ops).add path doc) path := by
  obtain ⟨lay, h, -⟩ := exists_built_run options ops
  obtain ⟨hanchored, hadmissible⟩ := admissible_run options ops
  exact ⟨h.wellBound hanchored hadmissible, h.onlyClears_remove hanchored,
    h.onlyClears_add hanchored⟩

end Index

end SemanticIndex
