import SemanticIndex.Proofs.Bindings
import SemanticIndex.Proofs.RoundTrip

/-!
# What the Change of One File Leaves Alone

Adding a file, replacing it and removing it change what that file has left and nothing else
(`Index.OnlyChanges`): the nodes that other files keep stay where they are and keep the fragments of
these files, a node that the file has not come to loses no more than a target that is gone, and the
records and templates of the other files stay as they are.

Removal prunes and addition extends; to replace a file is to do one after the other, so the two
effects compose (`Index.OnlyChanges.trans`).
-/

namespace SemanticIndex

/-- The record with nothing bound. -/
def FileRecord.unbound (f : FileRecord) : FileRecord := f.rebound fun _ => .unbound

/-- What was bound before does not matter when nothing is. -/
theorem FileRecord.unbound_rebound (bind : Reference → Binding) (f : FileRecord) :
    (f.rebound bind).unbound = f.unbound :=
  rebound_rebound bind (fun _ _ => rfl) f

namespace Index

/-- The node `i`, or one below it, holds a fragment of a file other than `path`. -/
def KeptByOthers (t : Index) (path : SourcePath) (i : NodeId) : Prop :=
  ∃ j n f, t.node? j = some n ∧ i ∈ t.ancestors j ∧ f ∈ n.fragments ∧ f.file.same path = false

/-- From `t` to `u` only what the file `path` has left has changed. -/
structure OnlyChanges (t u : Index) (path : SourcePath) : Prop where
  /-- What other files keep stays where it stands, with their fragments. -/
  kept : ∀ i n, t.node? i = some n → t.KeptByOthers path i →
    ∃ m, u.node? i = some m ∧ m.name = n.name ∧ m.above = n.above ∧
      (m.withoutFile path).fragments = (n.withoutFile path).fragments
  /-- A node that the file comes to neither before nor after keeps all that it holds. -/
  unlisted : ∀ i n m, t.node? i = some n → u.node? i = some m → i ∉ t.nodesOf path →
    i ∉ u.nodesOf path →
    m = { n with children := m.children, target := n.target.filter u.isLive }
  /-- Only a new child is gained and only one that is gone is lost. -/
  child_iff : ∀ i n m (x : String) c, t.node? i = some n → u.node? i = some m →
    t.isLive c = true → u.isLive c = true →
    (m.children[x]? = some c ↔ n.children[x]? = some c)
  /-- A new node has a new number. -/
  fresh : ∀ i, u.isLive i = true → t.isLive i = true ∨ t.nextId ≤ i
  next_le : t.nextId ≤ u.nextId
  files_eq : ∀ k : List PathComponent, k ≠ path.components →
    (u.files[k]?).map FileRecord.unbound = (t.files[k]?).map FileRecord.unbound
  registrations_eq : (u.registrations.filter fun r => !r.1.same path) =
    t.registrations.filter fun r => !r.1.same path

variable {t u w : Index} {L L' : Ledger} {lay lay' : Layout} {path : SourcePath} {i c : NodeId}
  {n m : Node}

/-! ### Two indexes with the same other files -/

/-- A file that is not indexed has come to no node. -/
theorem not_mem_nodesOf (h : t.hasFile path = false) (i : NodeId) : i ∉ t.nodesOf path := by
  rw [nodesOf, hasFile_eq_false_iff.mp h]
  exact List.not_mem_nil

namespace Built

/-- The fragments of the other files are those that the ledger without the file says. -/
theorem fragments_withoutFile (h : t.Built L lay) {a : Address} (ha : lay a = some i)
    (hn : t.node? i = some n) :
    (n.withoutFile path).fragments = fragmentsAt (L.without path).deposits a := by
  rw [Ledger.deposits_without, fragmentsAt_filter _ fun f => !f.file.same path, Node.withoutFile,
    h.fragments_eq ha hn]

/-- On a node that the file has not come to there is nothing of the file. -/
theorem withoutFile_eq_self (h : t.Built L lay) (hn : t.node? i = some n)
    (hi : i ∉ t.nodesOf path) : n.withoutFile path = n := by
  have hall : n.fragments.filter (fun f => !f.file.same path) = n.fragments := by
    refine List.filter_eq_self.mpr fun f hf => ?_
    rw [Bool.not_eq_true', Bool.eq_false_iff, ne_eq, SourcePath.same_iff]
    intro hpath
    obtain ⟨r, hr, hir⟩ := h.fragment_listed hn hf
    rw [file?, hpath, ← file?] at hr
    refine hi ?_
    rw [nodesOf, hr]
    exact hir
  rw [Node.withoutFile, hall]

/-- What keeps a node is deposited at or below its address. -/
theorem exists_deposit_of_keptByOthers (h : t.Built L lay) {a : Address} (ha : lay a = some i)
    (hkept : t.KeptByOthers path i) : ∃ d ∈ (L.without path).deposits, a ≤ d.1 := by
  obtain ⟨j, n, f, hn, hij, hf, hother⟩ := hkept
  obtain ⟨b, hb, hle⟩ := h.laid.le_of_mem_ancestors ha hij
  rw [h.fragments_eq hb hn, mem_fragmentsAt_iff] at hf
  refine ⟨(b, f), ?_, hle⟩
  rw [Ledger.deposits_without, List.mem_filter]
  exact ⟨hf, by simp [hother]⟩

/-- If no node moves at or below which other files have left something, such a node is what it was
but for what the file has left there. -/
theorem exists_kept (h : t.Built L lay) (hu : u.Built L' lay')
    (hsame : L'.without path = L.without path)
    (hkeep : ∀ {a : Address} {id : NodeId} {d : Deposit}, lay a = some id →
      d ∈ (L.without path).deposits → a ≤ d.1 → lay' a = some id)
    (hn : t.node? i = some n) (hkept : t.KeptByOthers path i) :
    ∃ m, u.node? i = some m ∧ m.name = n.name ∧ m.above = n.above ∧
      (m.withoutFile path).fragments = (n.withoutFile path).fragments := by
  obtain ⟨a, ha⟩ := h.laid.exists_address hn
  obtain ⟨d, hd, hle⟩ := h.exists_deposit_of_keptByOthers ha hkept
  have ha' := hkeep ha hd hle
  obtain ⟨m, hm⟩ := hu.laid.exists_node ha'
  -- the nodes above are kept by the same deposit
  have habove : lay'.above a = lay.above a := by
    refine Layout.above_congr fun b hlt => ?_
    obtain ⟨p, hp⟩ := h.laid.closed_of_le ha hlt.le
    rw [hp, hkeep hp hd (hlt.le.trans hle)]
  refine ⟨m, hm, ?_, ?_, ?_⟩
  · rw [hu.laid.name_eq ha' hm, h.laid.name_eq ha hn]
  · rw [hu.laid.above_eq ha' hm, h.laid.above_eq ha hn, habove]
  · rw [hu.fragments_withoutFile ha' hm, h.fragments_withoutFile ha hn, hsame]

/-- If no node moves, a node that stays is a child of the same node. -/
theorem child_iff (h : t.Built L lay) (hu : u.Built L' lay')
    (hmoves : ∀ {a b : Address} {id : NodeId}, lay a = some id → lay' b = some id → a = b)
    (hn : t.node? i = some n) (hm : u.node? i = some m) (hc : t.isLive c = true)
    (hc' : u.isLive c = true) (x : String) :
    m.children[x]? = some c ↔ n.children[x]? = some c := by
  obtain ⟨a, ha⟩ := h.laid.exists_address hn
  obtain ⟨b, hb⟩ := hu.laid.exists_address hm
  obtain rfl := hmoves ha hb
  obtain ⟨d, hd⟩ := h.laid.isLive_iff.mp hc
  obtain ⟨d', hd'⟩ := hu.laid.isLive_iff.mp hc'
  obtain rfl := hmoves hd hd'
  rw [hu.laid.child_eq hb hm, h.laid.child_eq ha hn]
  constructor
  · intro hx
    rwa [hu.laid.injective hx hd']
  · intro hx
    rwa [h.laid.injective hx hd]

/-- Indexes built of the same other files have the same templates of other files. -/
theorem registrations_filter_eq (h : t.Built L lay) (hu : u.Built L' lay')
    (hsame : L'.without path = L.without path) :
    (u.registrations.filter fun r => !r.1.same path) =
      t.registrations.filter fun r => !r.1.same path := by
  rw [hu.registrations_eq, h.registrations_eq, ← Ledger.registrations_without,
    ← Ledger.registrations_without, hsame]

/-! ### Removing -/

/-- Where nothing dangles nothing is changed by doing nothing. -/
theorem onlyChanges_self (h : t.Built L lay) (ht : t.Anchored) (path : SourcePath) :
    t.OnlyChanges t path where
  kept i n hn _ := ⟨n, hn, rfl, rfl, rfl⟩
  unlisted i n m hn hm _ _ := by
    obtain rfl := Option.some.inj (hn.symm.trans hm)
    rw [ht.filter_target (h.includes h) hn]
  child_iff i n m x c hn hm _ _ := by rw [Option.some.inj (hn.symm.trans hm)]
  fresh _ := Or.inl
  next_le := Nat.le_refl _
  files_eq _ _ := rfl
  registrations_eq := rfl

/-- Removing a file changes only what it has left. -/
theorem onlyChanges_remove (h : t.Built L lay) (ht : t.Anchored) (path : SourcePath) :
    t.OnlyChanges (t.remove path) path := by
  cases hfile : t.file? path with
  | none =>
    rw [remove_of_not_hasFile (hasFile_eq_false_iff.mpr hfile)]
    exact h.onlyChanges_self ht path
  | some f =>
    -- what is left when the file is withdrawn, before targets are cleared
    obtain ⟨v, lay', hpruned, hv, heq⟩ := h.exists_withdraw_eq hfile
    have hremove : t.remove path = v.clearDangling := (remove_of_file? hfile).trans heq
    rw [Ledger.without_congr (h.components_eq hfile)] at hv
    have hu : (t.remove path).Built (L.without path) lay' := hremove ▸ hv.clearDangling
    have hsame : (L.without path).without path = L.without path :=
      Ledger.without_eq_self fun e he => (Ledger.mem_without_iff.mp he).2
    have hlive : ∀ i, (t.remove path).isLive i = v.isLive i := hu.laid.isLive_congr hv.laid
    refine {
      kept := fun i n hn => h.exists_kept hu hsame (hpruned.keep hv.toHolds) hn
      unlisted := fun i n m hn hm hi _ => ?_
      child_iff := fun i n m x c hn hm hc hc' =>
        h.child_iff hu (fun ha hb => h.laid.injective ha (hpruned.only hb)) hn hm hc hc' x
      fresh := fun i hi => ?_
      next_le := ?_
      files_eq := fun k hk => ?_
      registrations_eq := h.registrations_filter_eq hu hsame }
    · -- pruning leaves a node its data, and summing up has passed this one by
      rw [hremove, node?_clearDangling] at hm
      obtain ⟨k, hk, rfl⟩ := Option.map_eq_some_iff.mp hm
      obtain ⟨e, he, hkeq⟩ := hpruned.node hk
      have hi : i ∉ f.nodes := by rwa [nodesOf, hfile] at hi
      rw [node?_emptied, if_neg hi, hn, Option.some.injEq] at he
      subst he
      rw [hkeq, funext hlive]
    · obtain ⟨a, ha⟩ := hu.laid.isLive_iff.mp hi
      exact Or.inl (h.laid.isLive_iff.mpr ⟨a, hpruned.only ha⟩)
    · rw [hremove]
      show t.nextId ≤ v.nextId
      exact Nat.le_of_eq ((nextId_emptied t f).symm.trans hpruned.nextId_eq.symm)
    · rw [h.files_remove ht, if_neg hk.symm, Option.map_map]
      exact congrArg (Option.map · _) (funext fun f => f.unbound_rebound _)

end Built

/-! ### Adding -/

namespace Added

variable {doc : Document} {ids : List NodeId}

/-- No node goes when a file is added. -/
theorem includes (h : t.Added L lay path doc u lay' ids) : u.Includes t := by
  obtain ⟨w, top, hlaying, htop, rfl⟩ := h.exists_laying
  exact hlaying.includes h.built h.new htop

/-- A node that is there after a file is added is an old one or has a new number. -/
theorem fresh (h : t.Added L lay path doc u lay' ids) (hi : u.isLive i = true) :
    t.isLive i = true ∨ t.nextId ≤ i := by
  obtain ⟨w, top, hlaying, -, rfl⟩ := h.exists_laying
  obtain ⟨m, hm⟩ := Option.isSome_iff_exists.mp hi
  have hsummed := node?_foldl_refresh ids w i
  rw [show (ids.foldl refresh w).node? i = some m from hm] at hsummed
  -- summing up makes no nodes
  split at hsummed
  · obtain ⟨k, hk, -⟩ := Option.map_eq_some_iff.mp hsummed.symm
    exact hlaying.extended.fresh hk
  · exact hlaying.extended.fresh hsummed.symm

/-- Numbers are not given again. -/
theorem next_le (h : t.Added L lay path doc u lay' ids) : t.nextId ≤ u.nextId := by
  obtain ⟨w, top, hlaying, -, rfl⟩ := h.exists_laying
  exact (hlaying.extended.toSameFiles.trans (SameFiles.foldl sameFiles_refresh ids w)).next_le

/-- The nodes of the file are those on which it has been recorded. -/
theorem nodesOf_eq (h : t.Added L lay path doc u lay' ids) : u.nodesOf path = ids := by
  obtain ⟨f, hf, -, hids, -⟩ := h.exists_file
  rw [nodesOf, hf]
  exact hids

/-- Without the file the two ledgers are the same. -/
theorem without_eq_without (h : t.Added L lay path doc u lay' ids) :
    Ledger.without (L ++ [(path, doc)]) path = L.without path :=
  h.without_eq.trans (Ledger.without_eq_self (h.built.components_ne h.new)).symm

/-- A node that the new file has not come to only gets new children. -/
theorem eq_of_not_mem (h : t.Added L lay path doc u lay' ids) (hn : t.node? i = some n)
    (hm : u.node? i = some m) (hi : i ∉ ids) : m = { n with children := m.children } := by
  obtain ⟨k, hkeq, -, hk⟩ := h.exists_node hn
  rw [if_neg hi, hm, Option.some.injEq] at hk
  subst hk
  -- the file is nowhere on the node, before and after, and the other files have the same there
  obtain ⟨a, ha⟩ := h.built.laid.exists_address hn
  have hbefore := h.built.withoutFile_eq_self hn (not_mem_nodesOf h.new i)
  have hafter := h.built_add.withoutFile_eq_self hm (h.nodesOf_eq ▸ hi)
  have hfragments : m.fragments = n.fragments := by
    rw [← hafter, ← hbefore, h.built_add.fragments_withoutFile (h.keep ha) hm,
      h.built.fragments_withoutFile ha hn, h.without_eq_without]
  rw [hkeq, hfragments]

/-- The records of the other files stay as they are. -/
theorem getElem?_files (h : t.Added L lay path doc u lay' ids) {k : List PathComponent}
    (hk : k ≠ path.components) : u.files[k]? = t.files[k]? := by
  obtain ⟨r, -, hpath, -, hfiles⟩ := h.exists_file
  rw [← hfiles, forgotten, Std.ExtTreeMap.getElem?_erase, hpath, if_neg]
  rw [Std.LawfulEqCmp.compare_eq_iff_eq]
  exact hk.symm

/-- Adding a file that is not indexed changes only what it leaves. -/
theorem onlyChanges (h : t.Added L lay path doc u lay' ids) (ht : t.Anchored) :
    t.OnlyChanges u path where
  kept i n hn := h.built.exists_kept h.built_add h.without_eq_without (fun ha _ _ => h.keep ha) hn
  unlisted i n m hn hm _ hi := by
    rw [ht.filter_target h.includes hn]
    exact h.eq_of_not_mem hn hm (h.nodesOf_eq ▸ hi)
  child_iff i n m x c hn hm hc hc' :=
    h.built.child_iff h.built_add (fun ha hb => h.built_add.laid.injective (h.keep ha) hb) hn hm
      hc hc' x
  fresh _ := h.fresh
  next_le := h.next_le
  files_eq k hk := by rw [h.getElem?_files hk]
  registrations_eq := h.built.registrations_filter_eq h.built_add h.without_eq_without

end Added

/-! ### One change after the other -/

namespace OnlyChanges

/-- What other files keep they still keep. -/
theorem keptByOthers (h : t.OnlyChanges u path) (hkept : t.KeptByOthers path i) :
    u.KeptByOthers path i := by
  obtain ⟨j, n, f, hn, hij, hf, hother⟩ := hkept
  -- the node that holds the fragment is kept by it as well
  have hself : t.KeptByOthers path j :=
    ⟨j, n, f, hn, by rw [ancestors, hn]; exact List.mem_cons_self, hf, hother⟩
  obtain ⟨m, hm, -, habove, hfragments⟩ := h.kept j n hn hself
  have hancestors : u.ancestors j = t.ancestors j := by simp only [ancestors, hm, hn, habove]
  have hmem : f ∈ (n.withoutFile path).fragments := List.mem_filter.mpr ⟨hf, by simp [hother]⟩
  rw [← hfragments] at hmem
  exact ⟨j, m, f, hm, hancestors ▸ hij, (List.mem_filter.mp hmem).1, hother⟩

/-- A node that is there before and after two changes is there in between. -/
theorem isLive_between (h : t.OnlyChanges u path) (h' : u.OnlyChanges w path) (ht : t.Laid lay)
    (hi : t.isLive i = true) (hi' : w.isLive i = true) : u.isLive i = true := by
  refine (h'.fresh i hi').resolve_right fun hnew => ?_
  obtain ⟨a, ha⟩ := ht.isLive_iff.mp hi
  exact absurd (ht.lt_next ha) (Nat.not_lt_of_le (Nat.le_trans h.next_le hnew))

/-- Taking the file out and entering it again changes only what the file leaves. -/
theorem trans (h : t.OnlyChanges u path) (h' : u.OnlyChanges w path) (ht : t.Laid lay)
    (hanchored : t.Anchored) (hgone : u.hasFile path = false) : t.OnlyChanges w path where
  kept i n hn hkept := by
    obtain ⟨m, hm, hname, habove, hfragments⟩ := h.kept i n hn hkept
    obtain ⟨k, hk, hname', habove', hfragments'⟩ := h'.kept i m hm (h.keptByOthers hkept)
    exact ⟨k, hk, hname'.trans hname, habove'.trans habove, hfragments'.trans hfragments⟩
  unlisted i n k hn hk hi hi' := by
    obtain ⟨m, hm⟩ := Option.isSome_iff_exists.mp
      (h.isLive_between h' ht (isLive_of_node? hn) (isLive_of_node? hk))
    have hnone := not_mem_nodesOf hgone i
    have hnm := h.unlisted i n m hn hm hi hnone
    have hmk := h'.unlisted i m k hm hk hnone hi'
    -- a target that is there at the end was there in between
    have htarget : (n.target.filter u.isLive).filter w.isLive = n.target.filter w.isLive := by
      cases hj : n.target with
      | none => rfl
      | some j =>
        have hlive := h.isLive_between h' ht (hanchored.target_live hn hj)
        by_cases hw : w.isLive j = true
        · simp [Option.filter, hw, hlive hw]
        · by_cases hu : u.isLive j = true <;> simp [Option.filter, hw, hu]
    rw [hmk, hnm, htarget]
  child_iff i n k x c hn hk hc hc' := by
    obtain ⟨m, hm⟩ := Option.isSome_iff_exists.mp
      (h.isLive_between h' ht (isLive_of_node? hn) (isLive_of_node? hk))
    have hbetween := h.isLive_between h' ht hc hc'
    rw [h'.child_iff i m k x c hm hk hbetween hc', h.child_iff i n m x c hn hm hc hbetween]
  fresh i hi := by
    rcases h'.fresh i hi with hi | hi
    · exact h.fresh i hi
    · exact Or.inr (Nat.le_trans h.next_le hi)
  next_le := Nat.le_trans h.next_le h'.next_le
  files_eq k hk := (h'.files_eq k hk).trans (h.files_eq k hk)
  registrations_eq := h'.registrations_eq.trans h.registrations_eq

end OnlyChanges

/-- To add a file is to add it anew after it has been taken out. -/
theorem Built.exists_added_remove (h : t.Built L lay) (path : SourcePath) (doc : Document)
    (hremoved : (t.remove path).Built L' lay') :
    ∃ lay'' ids, (t.remove path).Added L' lay' path doc (t.add path doc) lay'' ids := by
  have hgone := h.hasFile_remove path
  obtain ⟨lay'', ids, hadded⟩ := hremoved.exists_added hgone doc
  have hadd : (t.remove path).add path doc = t.add path doc := by
    rw [add, remove_of_not_hasFile hgone, add]
  exact ⟨lay'', ids, hadd ▸ hadded⟩

/-- Adding a file, also one that is indexed, changes only what it has left and leaves. -/
theorem Built.onlyChanges_add (h : t.Built L lay) (ht : t.Anchored) (path : SourcePath)
    (doc : Document) : t.OnlyChanges (t.add path doc) path := by
  obtain ⟨lay₁, hremoved⟩ := h.exists_remove path
  obtain ⟨lay', ids, hadded⟩ := h.exists_added_remove path doc hremoved
  exact (h.onlyChanges_remove ht path).trans (hadded.onlyChanges (ht.remove path)) h.laid ht
    (h.hasFile_remove path)

/-- After any run, removing a file and adding one, whether it is indexed or not, change only what
the file has left. -/
theorem onlyChanges_run (options : IndexOptions) (ops : List Operation) :
    (∀ path, (run options ops).OnlyChanges ((run options ops).remove path) path) ∧
    ∀ path doc, (run options ops).OnlyChanges ((run options ops).add path doc) path := by
  obtain ⟨lay, h, -⟩ := exists_built_run options ops
  have hanchored := anchored_run options ops
  exact ⟨h.onlyChanges_remove hanchored, h.onlyChanges_add hanchored⟩

end Index

end SemanticIndex
