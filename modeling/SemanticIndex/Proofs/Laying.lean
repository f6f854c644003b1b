import SemanticIndex.Proofs.Ledger

/-!
# Laying an Outline over the Forest

What adding a file does to an index that does not hold the file. `Index.Laying` puts together what
is known while the blocks of an outline are being placed; `Index.Holds.exists_contribute` says that
when they all are, the nodes that the file has come to are summed up and the file is recorded. So
an index that is built from a ledger is then built from the ledger with the file
(`Index.Laying.built`).
-/

namespace SemanticIndex

namespace Index

/-- The index `u`, laid out as `lay'`, while an outline is being laid over `t`: the file has come to
the addresses `as`, where `ids` stand, and the deposits are now `ds`. -/
structure Laying (t : Index) (lay : Layout) (as : List Address) (ds : List Deposit) (u : Index)
    (lay' : Layout) (ids : List NodeId) : Prop where
  holds : u.Holds lay' ds ids
  layout : lay.Extends lay' as
  extended : t.Extended u
  listed : lay'.Lists as ids

/-- Another fragment on a node that will be summed up. -/
theorem Holds.deposit {t : Index} {lay : Layout} {ds : List Deposit} {stale : List NodeId}
    (h : t.Holds lay ds stale) {a : Address} {id : NodeId} (ha : lay a = some id)
    (hid : id ∈ stale) (f : Fragment) :
    (t.modifyNode id fun n => { n with fragments := n.fragments ++ [f] }).Holds lay
      (ds ++ [(a, f)]) stale := by
  have hnode := node?_modifyNode t id (f := fun n => { n with fragments := n.fragments ++ [f] })
  refine { laid := h.laid.congr rfl fun i => ?_, named := ?_, fragments_eq := ?_, placed := ?_,
           current := ?_ }
  · rw [hnode]
    split
    · rw [Option.map_map]
      rfl
    · rfl
  · exact h.named.modifyNode id fun _ => ⟨rfl, rfl⟩
  · intro b i m hb hm
    rw [fragmentsAt_append, fragmentsAt_singleton]
    rw [hnode] at hm
    split at hm
    · obtain ⟨n, hn, rfl⟩ := Option.map_eq_some_iff.mp hm
      rename_i hi
      rw [if_pos (h.laid.injective ha (hi ▸ hb)), ← h.fragments_eq hb hn]
    -- a node at another address gets nothing
    · rename_i hi
      rw [if_neg, List.append_nil, h.fragments_eq hb hm]
      rintro rfl
      rw [ha, Option.some.injEq] at hb
      exact hi hb.symm
  · intro d hd
    rcases List.mem_append.mp hd with hd | hd
    · exact h.placed d hd
    · rw [List.mem_singleton] at hd
      exact ⟨id, hd ▸ ha⟩
  · intro i m hm hi
    rw [hnode, if_neg fun (heq : i = id) => hi (heq ▸ hid)] at hm
    exact h.current hm hi

namespace Laying

variable {t u : Index} {lay lay' : Layout} {as : List Address} {ds : List Deposit}
  {ids : List NodeId} {top : Address} {p : NodeId}

/-- One more block. The file has come to its top before, so a fragment there finds it stale. -/
theorem exists_place (h : t.Laying lay as ds u lay' ids) (htop : lay' top = some p)
    (hmem : top ∈ as) (b : Block) :
    ∃ lay'', t.Laying lay (Address.touch as (top.steps (b.path.map nodeName)))
        (ds ++ [(b.address top, b.fragment)]) (place p (u, ids) b).1 lay'' (place p (u, ids) b).2 ∧
      lay'' top = some p := by
  obtain ⟨lay₁, hholds, hlay, hlists, hextended⟩ := h.holds.exists_ensurePath htop b.path
  -- the index with the way to the block, and the nodes on it
  obtain ⟨w, below, hpath⟩ : ∃ w below, u.ensurePath p b.path = (w, below) := ⟨_, _, rfl⟩
  rw [hpath] at hholds hlists hextended
  have hplace : place p (u, ids) b =
      (w.modifyNode (below.getLast?.getD p) fun n =>
        { n with fragments := n.fragments ++ [b.fragment] }, touch ids below) := by
    rw [place, hpath]
  have hkeep := h.listed.keep hlay.keep
  have hids := hkeep.touch hlists hholds.laid.injective
  have hat := hlists.getLast?_steps (hlay.keep htop)
  rw [hplace]
  refine ⟨lay₁, ⟨?_, ?_, h.extended.trans (hextended.trans (extended_modifyNode _ _ fun _ => rfl)),
    hids⟩, hlay.keep htop⟩
  · -- the nodes that may be stale are those that the file has come to
    have hsub : below ++ ids ⊆ touch ids below := by
      intro i hi
      rcases List.mem_append.mp hi with hi | hi
      · obtain ⟨a, ha, hai⟩ := hlists.exists_of_mem_ids hi
        exact (hids.mem_iff hholds.laid.injective hai).mpr (Address.mem_touch_iff.mpr (.inr ha))
      · obtain ⟨a, ha, hai⟩ := hkeep.exists_of_mem_ids hi
        exact (hids.mem_iff hholds.laid.injective hai).mpr (Address.mem_touch_iff.mpr (.inl ha))
    refine (hholds.mono hsub).deposit hat ((hids.mem_iff hholds.laid.injective hat).mpr ?_) _
    rw [Address.mem_touch_iff, Address.mem_steps_iff]
    rcases (Address.le_down top (b.path.map nodeName)).eq_or_lt with heq | hlt
    · exact .inl (heq ▸ hmem)
    · exact .inr ⟨hlt, le_rfl⟩
  · exact h.layout.trans hlay (fun _ ha => Address.mem_touch_iff.mpr (.inl ha))
      fun _ ha => Address.mem_touch_iff.mpr (.inr ha)

/-- All blocks, one after the other. -/
theorem exists_foldl_place (h : t.Laying lay as ds u lay' ids) (htop : lay' top = some p)
    (hmem : top ∈ as) (bs : List Block) :
    ∃ lay'', t.Laying lay
        (bs.foldl (fun as b => Address.touch as (top.steps (b.path.map nodeName))) as)
        (ds ++ bs.map fun b => (b.address top, b.fragment)) (bs.foldl (place p) (u, ids)).1 lay''
        (bs.foldl (place p) (u, ids)).2 ∧
      lay'' top = some p := by
  induction bs generalizing u lay' as ds ids with
  | nil =>
    rw [List.map_nil, List.append_nil]
    exact ⟨lay', h, htop⟩
  | cons b bs ih =>
    obtain ⟨lay₁, h₁, htop₁⟩ := h.exists_place htop hmem b
    obtain ⟨lay₂, h₂, htop₂⟩ := ih h₁ htop₁ (Address.mem_touch_iff.mpr (.inl hmem))
    rw [List.append_assoc, List.singleton_append] at h₂
    exact ⟨lay₂, h₂, htop₂⟩

end Laying

section

variable {t : Index} {lay : Layout} {ds : List Deposit} {o : Outline} {path : SourcePath}

/-- The node to which a file belongs is there, and the nodes that lead to it. -/
theorem Holds.exists_openTop (h : t.Holds lay ds [])
    (hfree : o.packagePath = [] → lay (.isolated path.components) = none) :
    ∃ lay', t.Laying lay (o.opening path) ds (t.openTop o.packagePath).1 lay'
        (t.openTop o.packagePath).2.2 ∧
      lay' (o.topAddress path) = some (t.openTop o.packagePath).2.1 := by
  unfold Outline.opening Outline.topAddress openTop
  cases hp : o.packagePath with
  | nil =>
    have hnone := hfree hp
    exact ⟨_, ⟨h.addRoot rfl hnone, .set hnone t.nextId, extended_addNode h.laid rfl,
      .cons (Layout.set_self ..) .nil⟩, Layout.set_self ..⟩
  | cons x names =>
    obtain ⟨lay', hholds, hlay, hlists, hextended⟩ :=
      h.exists_ensurePath h.laid.root_at (x :: names)
    rw [List.append_nil] at hholds
    exact ⟨lay', ⟨hholds, hlay, hextended, hlists⟩,
      hlists.getLast?_steps (hlay.keep h.laid.root_at)⟩

end

/-- The record of a file with the outline `o`. -/
def newRecord (t : Index) (path : SourcePath) (o : Outline) (top : NodeId) (ids : List NodeId) :
    FileRecord where
  path
  top
  isolated := o.packagePath.isEmpty
  nodes := ids
  references := o.mentions.map (t.referenceOf path top)
  pragmas := o.pragmas

/-- The index with the record and the templates of a file. -/
def recorded (t : Index) (path : SourcePath) (o : Outline) (top : NodeId) (ids : List NodeId) :
    Index :=
  { t with
    files := t.files.insert path.components (t.newRecord path o top ids)
    registrations := t.registrations ++ o.templates.map (path, ·) }

section

variable {t : Index} {lay : Layout} {path : SourcePath}

/-- Adding a file lays its outline over the forest, sums up the nodes that the file has come to,
and records the file. -/
theorem Holds.exists_contribute {ds : List Deposit} {o : Outline} (h : t.Holds lay ds [])
    (hfree : o.packagePath = [] → lay (.isolated path.components) = none) :
    ∃ u lay' ids top, t.Laying lay (o.visited path) (ds ++ o.deposits path) u lay' ids ∧
      lay' (o.topAddress path) = some top ∧
      t.contribute path o = (ids.foldl Index.refresh u).recorded path o top ids := by
  obtain ⟨lay₁, hopen, htop⟩ := h.exists_openTop hfree
  obtain ⟨lay₂, hblocks, htop'⟩ := hopen.exists_foldl_place htop Outline.topAddress_mem_opening
    o.blocks
  exact ⟨_, lay₂, _, _, hblocks, htop', rfl⟩

/-- A file that is not entered has no root of its own yet. -/
theorem Built.isolated_eq_none {L : Ledger} (h : t.Built L lay) (hnew : t.hasFile path = false) :
    lay (.isolated path.components) = none := by
  rw [Option.eq_none_iff_forall_ne_some]
  intro id ha
  obtain ⟨f, hf, -⟩ := h.isolated_at_iff.mp ha
  rw [hasFile, file?, hf] at hnew
  cases hnew

/-- The scope of every mention is there when the record of a file is made. -/
theorem isOf_newRecord (h : t.Laid lay) {doc : Document} {top : NodeId} {ids : List NodeId}
    (htop : lay ((doc.outline path).topAddress path) = some top)
    (hlists : lay.Lists ((doc.outline path).visited path) ids) :
    (t.newRecord path (doc.outline path) top ids).IsOf lay path (doc.outline path) := by
  refine ⟨rfl, htop, rfl, hlists, ?_, rfl⟩
  rw [newRecord, List.forall₂_map_right_iff, List.forall₂_same]
  intro m hm
  refine ⟨rfl, rfl, ?_⟩
  obtain ⟨id, -, hid⟩ := hlists.exists_of_mem (FileRecord.IsOf.scope_mem_visited hm)
  rw [referenceOf, h.follow?_eq htop, hid]
  rfl

/-- The index with a new file is built from the ledger with the file. -/
theorem Laying.built {L : Ledger} {doc : Document} {u : Index} {lay' : Layout} {top : NodeId}
    {ids : List NodeId} (h : t.Built L lay) (hnew : t.hasFile path = false)
    (hlaying : t.Laying lay ((doc.outline path).visited path)
      (L.deposits ++ (doc.outline path).deposits path) u lay' ids)
    (htop : lay' ((doc.outline path).topAddress path) = some top) :
    ((ids.foldl Index.refresh u).recorded path (doc.outline path) top ids).Built
      (L ++ [(path, doc)]) lay' := by
  have hholds := hlaying.holds.foldl_refresh
  have hsame := hlaying.extended.toSameFiles.trans (SameFiles.foldl sameFiles_refresh ids u)
  have hdistinct := h.components_ne hnew
  have hfiles : ∀ k : List PathComponent,
      ((ids.foldl Index.refresh u).recorded path (doc.outline path) top ids).files[k]? =
        if path.components = k then
          some ((ids.foldl Index.refresh u).newRecord path (doc.outline path) top ids)
        else t.files[k]? := by
    intro k
    rw [recorded, Std.ExtTreeMap.getElem?_insert, hsame.files_eq]
    simp only [Std.LawfulEqCmp.compare_eq_iff_eq]
  have hconcat := Ledger.deposits_concat L path doc
  refine { toHolds := hconcat ▸ hholds.congr rfl rfl rfl rfl, covered := ?_,
           distinct := h.distinct.concat hdistinct, exists_file := ?_, exists_entry := ?_,
           registrations_eq := ?_ }
  -- a node was there before, or the file has come to its address and left something
  · intro a id ha
    rw [hconcat]
    rcases hlaying.layout.only ha with ha | ha
    · refine (h.covered a id ha).imp_right ?_
      rintro ⟨d, hd, hle⟩
      exact ⟨d, List.mem_append_left _ hd, hle⟩
    · obtain ⟨d, hd, hle⟩ := Document.exists_deposit_of_mem_visited ha
      exact Or.inr ⟨d, List.mem_append_right _ hd, hle⟩
  -- the other files keep their records, and no node of theirs moves
  · intro e he
    rcases List.mem_append.mp he with he | he
    · obtain ⟨f, hf, hisOf⟩ := h.exists_file e he
      refine ⟨f, ?_, hisOf.congr fun a _ id ha => hlaying.layout.keep ha⟩
      rw [hfiles, if_neg (hdistinct e he).symm, hf]
    · rw [List.mem_singleton] at he
      subst he
      exact ⟨_, by rw [hfiles, if_pos rfl], isOf_newRecord hholds.laid htop hlaying.listed⟩
  · intro k f hf
    rw [hfiles] at hf
    split at hf
    · exact ⟨(path, doc), List.mem_append_right _ (List.mem_singleton_self _), ‹_›⟩
    · obtain ⟨e, he, hk⟩ := h.exists_entry hf
      exact ⟨e, List.mem_append_left _ he, hk⟩
  · rw [Ledger.registrations_concat, ← h.registrations_eq, ← hsame.registrations_eq]
    rfl

/-- A file that is not entered can be laid over the forest. -/
theorem Built.exists_contribute_eq {L : Ledger} (h : t.Built L lay)
    (hnew : t.hasFile path = false) (doc : Document) :
    ∃ u lay' ids top, t.Laying lay ((doc.outline path).visited path)
        (L.deposits ++ (doc.outline path).deposits path) u lay' ids ∧
      lay' ((doc.outline path).topAddress path) = some top ∧
      t.contribute path (doc.outline path) =
        (ids.foldl Index.refresh u).recorded path (doc.outline path) top ids :=
  h.toHolds.exists_contribute fun _ => h.isolated_eq_none hnew

/-- Adding a file that is not indexed enters it. -/
theorem Built.exists_contribute {L : Ledger} (h : t.Built L lay) (hnew : t.hasFile path = false)
    (doc : Document) :
    ∃ lay', (t.contribute path (doc.outline path)).Built (L ++ [(path, doc)]) lay' := by
  obtain ⟨u, lay', ids, top, hlaying, htop, heq⟩ := h.exists_contribute_eq hnew doc
  exact ⟨lay', heq ▸ hlaying.built h hnew htop⟩

/-- Contributing a file changes no option. -/
theorem Built.options_contribute {L : Ledger} (h : t.Built L lay)
    (hnew : t.hasFile path = false) (doc : Document) :
    (t.contribute path (doc.outline path)).options = t.options := by
  obtain ⟨u, lay', ids, top, hlaying, -, heq⟩ := h.exists_contribute_eq hnew doc
  rw [heq, ← hlaying.extended.options_eq]
  exact (SameFiles.foldl sameFiles_refresh ids u).options_eq

end

end Index

end SemanticIndex
