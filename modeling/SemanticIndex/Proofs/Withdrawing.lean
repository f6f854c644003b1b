import SemanticIndex.Proofs.Annotating

/-!
# Withdrawing a File

What removing a file does to an index that is built from a ledger. The fragments of the file are
taken away and its nodes are summed up (`Index.emptied`), and when the nodes that nothing keeps have
been pruned, the index is built from the ledger without the file (`Index.Built.exists_withdraw_eq`).
-/

namespace SemanticIndex

/-- The node without the fragments of a file. -/
def Node.withoutFile (path : SourcePath) (n : Node) : Node :=
  { n with fragments := n.fragments.filter fun f => !f.file.same path }

namespace Index

/-! ### Taking the fragments away -/

/-- Dropping the fragments of a file changes the nodes listed. -/
theorem node?_dropFragments (t : Index) (path : SourcePath) (ids : List NodeId) (i : NodeId) :
    (t.dropFragments path ids).node? i =
      if i ∈ ids then (t.node? i).map (Node.withoutFile path) else t.node? i := by
  refine node?_foldl (f := fun t id => t.modifyNode id (Node.withoutFile path))
    (g := fun _ => Node.withoutFile path) (fun _ _ => rfl)
    (fun t id i => node?_modifyNode t id i _) (fun _ n => ?_) ids t i
  simp [Node.withoutFile]

/-- Only nodes change when fragments are taken away. -/
theorem exists_dropFragments_eq (t : Index) (path : SourcePath) (ids : List NodeId) :
    ∃ nodes, t.dropFragments path ids = { t with nodes } := by
  induction ids generalizing t with
  | nil => exact ⟨t.nodes, rfl⟩
  | cons id ids ih => exact ih _

section

variable {t : Index} {lay : Layout} {ds : List Deposit} {path : SourcePath} {ids : List NodeId}

/-- Without the fragments of a file, all on listed nodes, the index holds the other deposits. -/
theorem Holds.dropFragments (h : t.Holds lay ds [])
    (hids : ∀ d ∈ ds, d.2.file.same path = true → ∃ id ∈ ids, lay d.1 = some id) :
    (t.dropFragments path ids).Holds lay (ds.filter fun d => !d.2.file.same path) ids := by
  have hnode := node?_dropFragments t path ids
  -- fragments have no part in where a node stands
  have hshape : ∀ i, ((t.dropFragments path ids).node? i).map Node.shape =
      (t.node? i).map Node.shape := by
    intro i
    rw [hnode]
    split
    · rw [Option.map_map]
      rfl
    · rfl
  obtain ⟨nodes, hnodes⟩ := exists_dropFragments_eq t path ids
  refine { laid := h.laid.congr ?_ hshape, named := h.named.congr ?_ fun i => ?_,
           fragments_eq := ?_, placed := ?_, current := ?_ }
  · rw [hnodes]
  · rw [hnodes]
  · rw [hnode]
    split
    · rw [Option.map_map]
      rfl
    · rfl
  · intro a id m ha hm
    rw [fragmentsAt_filter ds (fun f => !f.file.same path)]
    rw [hnode] at hm
    split at hm
    · obtain ⟨n, hn, rfl⟩ := Option.map_eq_some_iff.mp hm
      rw [← h.fragments_eq ha hn]
      rfl
    · rename_i hid
      rw [h.fragments_eq ha hm, eq_comm, List.filter_eq_self]
      -- the node is not listed, so the file has nothing there
      intro f hf
      rw [Bool.not_eq_true', Bool.eq_false_iff]
      intro hsame
      obtain ⟨i, hi, hai⟩ := hids (a, f) (mem_fragmentsAt_iff.mp hf) hsame
      rw [ha, Option.some.injEq] at hai
      exact hid (hai ▸ hi)
  · intro d hd
    exact h.placed d (List.mem_filter.mp hd).1
  · intro i m hm hi
    rw [hnode, if_neg hi] at hm
    rw [hnodes]
    exact h.current hm List.not_mem_nil

end

/-- The index when the file is forgotten, but for its nodes. -/
def forgotten (t : Index) (f : FileRecord) : Index :=
  { t with
    files := t.files.erase f.path.components
    registrations := t.registrations.filter fun r => !r.1.same f.path }

/-- The index when the fragments of a file are gone and its nodes are summed up. -/
def emptied (t : Index) (f : FileRecord) : Index :=
  f.nodes.foldl refresh ((t.forgotten f).dropFragments f.path f.nodes)

/-- Emptying a file refreshes its nodes without it. -/
theorem node?_emptied (t : Index) (f : FileRecord) (i : NodeId) :
    (t.emptied f).node? i =
      if i ∈ f.nodes then (t.node? i).map fun n => (n.withoutFile f.path).refreshed t.options
      else t.node? i := by
  obtain ⟨nodes, hnodes⟩ := exists_dropFragments_eq (t.forgotten f) f.path f.nodes
  have hoptions : ((t.forgotten f).dropFragments f.path f.nodes).options = t.options := by
    rw [hnodes]
    rfl
  rw [emptied, node?_foldl_refresh, node?_dropFragments, hoptions]
  split
  · rw [Option.map_map]
    rfl
  · rfl

theorem nextId_emptied (t : Index) (f : FileRecord) : (t.emptied f).nextId = t.nextId := by
  obtain ⟨nodes, hnodes⟩ := exists_dropFragments_eq (t.forgotten f) f.path f.nodes
  rw [emptied, nextId_foldl_refresh, hnodes]
  rfl

/-- A file is withdrawn by emptying it, pruning bare nodes, dropping its root and clearing
targets. -/
theorem withdraw_eq (t : Index) (f : FileRecord) :
    t.withdraw f =
      ((((t.emptied f).deepestFirst f.nodes).foldl prune (t.emptied f)).dropRoot f).clearDangling :=
  rfl

/-- Sorting nodes by depth leaves none out. -/
theorem mem_deepestFirst {t : Index} {ids : List NodeId} {id : NodeId} :
    id ∈ t.deepestFirst ids ↔ id ∈ ids := by
  simp [deepestFirst]

/-! ### The root of a file -/

/-- An empty root of its own goes with the file. -/
theorem Holds.dropRoot {t : Index} {lay : Layout} {ds : List Deposit} (h : t.Holds lay ds [])
    {f : FileRecord} {k : List PathComponent} (hisolated : f.isolated = true)
    (htop : lay (.isolated k) = some f.top)
    (hleaf : ∀ x, lay ((Address.isolated k).child x) = none)
    (hfree : ∀ d ∈ ds, d.1 ≠ .isolated k) :
    (t.dropRoot f).Holds (lay.set (.isolated k) none) ds [] ∧
      t.Pruned lay (t.dropRoot f) (lay.set (.isolated k) none) := by
  obtain ⟨n, hn⟩ := h.laid.exists_node htop
  -- a root that is left without children and fragments is dropped
  have hbare := (h.isBare_iff htop hn).mpr ⟨hleaf, hfree⟩
  have hdrop : t.dropRoot f = t.dropNode f.top n := by
    rw [Index.dropRoot, if_pos hisolated, hn]
    simp only [hbare, if_true]
  have hnode := node?_dropNode t f.top n
  rw [hdrop]
  refine h.erase htop hn ?_ hbare ⟨rfl, rfl, rfl, Nat.le_refl _⟩ rfl (h.named.dropNode hn) rfl ?_
    ?_ ?_
  · exact fun heq => nomatch congrArg Address.home heq
  · rw [hnode, if_pos rfl]
  · intro b i m hi hb hm
    refine ⟨m, by rw [hnode, if_neg hi, hm], rfl, fun x => ?_⟩
    rw [if_neg]
    exact fun heq => nomatch congrArg Address.trail heq
  · intro i m hm
    rw [hnode] at hm
    split at hm
    · cases hm
    · exact isLive_of_node? hm

/-- A file without a root of its own leaves no root behind. -/
theorem dropRoot_of_not_isolated (t : Index) {f : FileRecord} (h : f.isolated = false) :
    t.dropRoot f = t := by
  rw [Index.dropRoot, h]
  rfl

/-! ### The whole withdrawal -/

namespace Built

variable {t : Index} {L : Ledger} {lay : Layout} {f : FileRecord} {k : List PathComponent}

/-- All that a file has left lies on the nodes that its record lists. -/
theorem exists_mem_nodes (h : t.Built L lay) (hf : t.files[k]? = some f) {d : Deposit}
    (hd : d ∈ L.deposits) (hsame : d.2.file.same f.path = true) :
    ∃ id ∈ f.nodes, lay d.1 = some id := by
  obtain ⟨e, he, -, hisOf⟩ := h.isOf hf
  obtain ⟨e', he', hd'⟩ := Ledger.mem_deposits_iff.mp hd
  rw [SourcePath.same_iff, Document.file_eq_of_mem_deposits hd', hisOf.path_eq] at hsame
  -- a path is entered once, so the deposit is that of the record's own document
  obtain rfl := h.distinct.eq he' he hsame
  exact hisOf.nodes_at.exists_of_mem (Outline.mem_visited_of_mem_deposits hd')

/-- Without the fragments of a file the index holds what the other files deposit. -/
theorem holds_dropFragments (h : t.Built L lay) (hf : t.files[k]? = some f) :
    ((t.forgotten f).dropFragments f.path f.nodes).Holds lay (L.without f.path).deposits
      f.nodes := by
  have hforgotten : (t.forgotten f).Holds lay L.deposits [] := h.toHolds.congr rfl rfl rfl rfl
  rw [Ledger.deposits_without]
  exact hforgotten.dropFragments fun d hd hsame => h.exists_mem_nodes hf hd hsame

/-- What is left is what the other files have deposited. -/
theorem holds_emptied (h : t.Built L lay) (hf : t.files[k]? = some f) :
    (t.emptied f).Holds lay (L.without f.path).deposits [] :=
  (h.holds_dropFragments hf).foldl_refresh

/-- Emptying a file keeps the other files. -/
theorem sameFiles_emptied (t : Index) (f : FileRecord) :
    (t.forgotten f).SameFiles (t.emptied f) := by
  obtain ⟨nodes, hnodes⟩ := exists_dropFragments_eq (t.forgotten f) f.path f.nodes
  refine SameFiles.trans ?_ (SameFiles.foldl sameFiles_refresh f.nodes _)
  rw [hnodes]
  exact ⟨rfl, rfl, rfl, Nat.le_refl _⟩

/-- Only nodes that the file has come to are loose when its fragments are gone. -/
theorem mem_nodes_of_loose (h : t.Built L lay) (hf : t.files[k]? = some f) {a : Address}
    (hloose : lay.Loose (L.without f.path).deposits a) : ∃ id ∈ f.nodes, lay a = some id := by
  obtain ⟨id, ha⟩ := hloose.taken
  rcases h.covered a id ha with rfl | ⟨d, hd, hle⟩
  · exact absurd rfl hloose.not_root
  · -- nothing stands below, so the deposit that covered the node lay on it
    rcases hle.eq_or_lt with rfl | hlt
    · by_cases hsame : d.2.file.same f.path = true
      · exact h.exists_mem_nodes hf hd hsame
      · refine absurd rfl (hloose.no_deposit d ?_)
        rw [Ledger.deposits_without, List.mem_filter, Bool.not_eq_true', ← Bool.not_eq_true]
        exact ⟨hd, hsame⟩
    · obtain ⟨x, hx⟩ := Address.lt_iff_exists_child_le.mp hlt
      obtain ⟨j, hj⟩ := h.placed d hd
      obtain ⟨i, hi⟩ := h.laid.closed_of_le hj hx
      rw [hloose.no_child] at hi
      cases hi

/-- When the nodes of the file have been pruned, the others are at or above deposits, but for the
roots. -/
theorem exists_pruned (h : t.Built L lay) (hf : t.files[k]? = some f) :
    ∃ lay', (((t.emptied f).deepestFirst f.nodes).foldl prune (t.emptied f)).Holds lay'
        (L.without f.path).deposits [] ∧
      (t.emptied f).Pruned lay (((t.emptied f).deepestFirst f.nodes).foldl prune (t.emptied f))
        lay' ∧
      ∀ a id, lay' a = some id → a.trail ≠ [] → ∃ d ∈ (L.without f.path).deposits, a ≤ d.1 := by
  obtain ⟨lay', hholds, hpruned, hleft⟩ :=
    (h.holds_emptied hf).exists_foldl_prune ((t.emptied f).deepestFirst f.nodes)
  refine ⟨lay', hholds, hpruned, fun a id ha hroot => ?_⟩
  -- a node that is still loose was loose before, so it is listed and has been pruned
  refine hholds.exists_deposit_of_not_loose (fun b hb => ?_) ⟨id, ha⟩ hroot
  obtain ⟨hloose, hids⟩ := hleft b hb
  obtain ⟨j, hj, hbj⟩ := h.mem_nodes_of_loose hf hloose
  exact hids j (mem_deepestFirst.mpr hj) hbj

/-- The file's own root goes at last. -/
theorem exists_dropRoot (h : t.Built L lay) (hf : t.files[k]? = some f) :
    ∃ u lay', u = (((t.emptied f).deepestFirst f.nodes).foldl prune (t.emptied f)).dropRoot f ∧
      u.Holds lay' (L.without f.path).deposits [] ∧ (t.emptied f).Pruned lay u lay' ∧
      (∀ a id, lay' a = some id → a.trail ≠ [] → ∃ d ∈ (L.without f.path).deposits, a ≤ d.1) ∧
      lay' (.isolated k) = none := by
  obtain ⟨lay₁, hholds, hpruned, hcovered⟩ := h.exists_pruned hf
  cases hroot : lay₁ (.isolated k) with
  | none =>
    refine ⟨_, lay₁, rfl, ?_⟩
    suffices hsame : (((t.emptied f).deepestFirst f.nodes).foldl prune (t.emptied f)).dropRoot f =
        ((t.emptied f).deepestFirst f.nodes).foldl prune (t.emptied f) by
      rw [hsame]
      exact ⟨hholds, hpruned, hcovered, hroot⟩
    -- a file in a package has no root of its own; an isolated one has lost it by pruning
    cases hisolated : f.isolated with
    | false => exact dropRoot_of_not_isolated _ hisolated
    | true =>
      have htop := h.isolated_at_iff.mpr ⟨f, hf, hisolated, rfl⟩
      have hgone : (((t.emptied f).deepestFirst f.nodes).foldl prune (t.emptied f)).node? f.top =
          none := by
        rw [Option.eq_none_iff_forall_ne_some]
        intro n hn
        obtain ⟨a, ha⟩ := hholds.laid.exists_address hn
        rw [h.laid.injective (hpruned.only ha) htop, hroot] at ha
        cases ha
      rw [Index.dropRoot, if_pos hisolated, hgone]
  | some id =>
    obtain ⟨f', hf', hisolated, rfl⟩ := h.isolated_at_iff.mp (hpruned.only hroot)
    obtain rfl : f = f' := Option.some.inj (hf.symm.trans hf')
    -- nothing is left in the tree of the file
    have hhome : ∀ d ∈ (L.without f.path).deposits, d.1.home ≠ some k := by
      intro d hd hk
      obtain ⟨e, he, hek, -⟩ := Ledger.components_eq_of_home hd hk
      rw [Ledger.mem_without_iff, h.components_eq hf] at he
      exact he.2 hek
    have hleaf : ∀ x, lay₁ ((Address.isolated k).child x) = none := by
      intro x
      rw [Option.eq_none_iff_forall_ne_some]
      intro j hj
      obtain ⟨d, hd, hle⟩ := hcovered _ j hj (List.cons_ne_nil _ _)
      exact hhome d hd hle.1.symm
    obtain ⟨hholds', hpruned'⟩ := hholds.dropRoot hisolated hroot hleaf fun d hd heq =>
      hhome d hd (congrArg Address.home heq)
    refine ⟨_, _, rfl, hholds', hpruned.trans hpruned', fun a j ha htrail => ?_, Layout.set_self ..⟩
    exact hcovered a j (hpruned'.only ha) htrail

/-- Removing a file builds the index from the ledger without it: the nodes that only the file kept
are pruned from the emptied index, and what then dangles is cleared. -/
theorem exists_withdraw_eq (h : t.Built L lay) (hf : t.files[k]? = some f) :
    ∃ u lay', (t.emptied f).Pruned lay u lay' ∧ u.Built (L.without f.path) lay' ∧
      t.withdraw f = u.clearDangling := by
  obtain ⟨u, lay', hu, hholds, hpruned, hcovered, hroot⟩ := h.exists_dropRoot hf
  have hsame := (sameFiles_emptied t f).trans hpruned.toSameFiles
  have hfiles : ∀ k' : List PathComponent,
      u.files[k']? = if k = k' then none else t.files[k']? := by
    intro k'
    rw [hsame.files_eq, forgotten, Std.ExtTreeMap.getElem?_erase, h.components_eq hf]
    simp only [Std.LawfulEqCmp.compare_eq_iff_eq]
  -- nothing moves where an entered file came to
  have hkeep : ∀ e ∈ L.without f.path, ∀ a ∈ (e.2.outline e.1).visited e.1, ∀ id,
      lay a = some id → lay' a = some id := by
    intro e he a ha id hid
    obtain ⟨d, hd, hle⟩ := exists_deposit he ha
    exact hpruned.keep hholds hid hd hle
  refine ⟨u, lay', hpruned, ?_, hu ▸ withdraw_eq t f⟩
  refine { toHolds := hholds, covered := fun a id ha => ?_, distinct := h.distinct.without f.path,
           exists_file := fun e he => ?_, exists_entry := fun {k' f'} hf' => ?_,
           registrations_eq := ?_ }
  -- nodes below a root have deposits by now; the roots that are left are those of other files
  · by_cases htrail : a.trail = []
    · obtain ⟨home, trail⟩ := a
      obtain rfl : trail = [] := htrail
      cases home with
      | none => exact Or.inl rfl
      | some k' =>
        right
        obtain ⟨f', hf', hisolated, rfl⟩ := h.isolated_at_iff.mp (hpruned.only ha)
        obtain ⟨e, he, rfl, hisOf⟩ := h.isOf hf'
        have hmem : e ∈ L.without f.path := by
          rw [Ledger.mem_without_iff, h.components_eq hf]
          refine ⟨he, fun hk => ?_⟩
          have hnone : lay' (Address.isolated e.1.components) = none := hk ▸ hroot
          rw [Address.isolated, ha] at hnone
          cases hnone
        have htop := h.laid.injective (hpruned.only ha) hisOf.top_at
        rw [htop]
        exact exists_deposit hmem Outline.topAddress_mem_visited
    · exact Or.inr (hcovered a id ha htrail)
  · obtain ⟨he', hne⟩ := Ledger.mem_without_iff.mp he
    rw [h.components_eq hf] at hne
    obtain ⟨f', hf', hisOf⟩ := h.exists_file e he'
    exact ⟨f', by rw [hfiles, if_neg hne.symm, hf'], hisOf.congr (hkeep e he)⟩
  · rw [hfiles] at hf'
    split at hf'
    · cases hf'
    · obtain ⟨e, he, rfl⟩ := h.exists_entry hf'
      refine ⟨e, Ledger.mem_without_iff.mpr ⟨he, ?_⟩, rfl⟩
      rw [h.components_eq hf]
      exact Ne.symm ‹_›
  · rw [hsame.registrations_eq, Ledger.registrations_without, ← h.registrations_eq]
    rfl

/-- Removing a file takes it from the ledger, and moves no node at or below which another file has
left something. -/
theorem exists_remove_keeping (h : t.Built L lay) (path : SourcePath) :
    ∃ lay', (t.remove path).Built (L.without path) lay' ∧
      ∀ {a : Address} {id : NodeId} {d : Deposit}, lay a = some id →
        d ∈ (L.without path).deposits → a ≤ d.1 → lay' a = some id := by
  cases hf : t.file? path with
  | none =>
    have hnew := hasFile_eq_false_iff.mpr hf
    rw [remove_of_not_hasFile hnew, Ledger.without_eq_self (h.components_ne hnew)]
    exact ⟨lay, h, fun ha _ _ => ha⟩
  | some f =>
    obtain ⟨u, lay', hpruned, hbuilt, heq⟩ := h.exists_withdraw_eq hf
    -- the record was found under the path, so its own path is the same
    rw [remove_of_file? hf, heq, ← Ledger.without_congr (h.components_eq hf)]
    exact ⟨lay', hbuilt.clearDangling, hpruned.keep hbuilt.toHolds⟩

/-- Removing a file gives an index that is built of the others. -/
theorem exists_remove (h : t.Built L lay) (path : SourcePath) :
    ∃ lay', (t.remove path).Built (L.without path) lay' := by
  obtain ⟨lay', hremoved, -⟩ := h.exists_remove_keeping path
  exact ⟨lay', hremoved⟩

/-- Removing a file changes no option. -/
theorem options_remove (h : t.Built L lay) (path : SourcePath) :
    (t.remove path).options = t.options := by
  cases hf : t.file? path with
  | none => rw [remove, hf]
  | some f =>
    obtain ⟨u, lay', hpruned, -, heq⟩ := h.exists_withdraw_eq hf
    rw [remove_of_file? hf, heq]
    exact ((sameFiles_emptied t f).trans hpruned.toSameFiles).options_eq

end Built

end Index

end SemanticIndex
