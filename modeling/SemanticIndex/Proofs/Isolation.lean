import SemanticIndex.Proofs.Regions
import SemanticIndex.Proofs.Reindexing

/-!
# Isolated Files Are Invisible

A file without a package has a tree of its own. What lies outside this tree is a region, and an
index without the file agrees on it with the index with the file, down to the order in which names
are listed (`Index.Built.agreesOn_remove`). So nothing outside the tree is bound, linked or
evaluated otherwise when such a file comes or goes (`Index.isolated_invisible_run`).

A link that has lost its link name keeps a target from before. This target too lies in the tree of
the link or in the common one, since it was looked for there (`Index.exists_near_run`).
-/

namespace SemanticIndex

namespace NameTable

variable {names : NameTable} {s name old new : String} {id : NodeId} {p : NodeId → Bool}

/-- A node that does not count is added without effect. -/
theorem filter_get_add (hid : p id = false) :
    ((names.add name id).get s).filter p = (names.get s).filter p := by
  rw [get_add]
  split
  · rename_i hs
    simp [hs.1, hid]
  · rfl

/-- A node that does not count is removed without effect. -/
theorem filter_get_remove (hid : p id = false) :
    ((names.remove name id).get s).filter p = (names.get s).filter p := by
  rw [get_remove]
  split
  · rename_i hs
    subst hs
    rw [List.filter_filter]
    refine List.filter_congr fun j _ => ?_
    by_cases hj : j = id
    · simp [hj, hid]
    · simp [hj]
  · rfl

/-- Renaming a node moves no other node in a list. -/
theorem filter_get_rename (hid : p id = false) :
    ((names.rename id name old new).get s).filter p = (names.get s).filter p := by
  unfold rename
  split
  · rfl
  · rw [filter_get_add hid]
    split
    · rfl
    · exact filter_get_remove hid

end NameTable

/-- The scope of a reference stands in the tree in which the file is laid. -/
theorem FileRecord.IsOf.exists_scope_at_home {f : FileRecord} {lay : Layout} {path : SourcePath}
    {o : Outline} (h : f.IsOf lay path o) {r : Reference} (hr : r ∈ f.references) :
    ∃ a, lay a = some r.scope ∧ a.home = o.home path := by
  have hscopes : List.Forall₂
      (fun r (_ : ScopedMention) => (∃ a, lay a = some r.scope ∧ a.home = o.home path) ∧ True)
      f.references o.mentions :=
    (h.references_at.imp fun _ _ hm =>
      ⟨⟨_, hm.2.2, by rw [Address.down_eq, ← Outline.home_topAddress]⟩, trivial⟩).flip
  exact ((List.forall₂_and_left _ _).mp hscopes).1 r hr

theorem FileRecord.rebound_congr {f : FileRecord} {bind bind' : Reference → Binding}
    (h : ∀ r ∈ f.references, bind r = bind' r) : f.rebound bind = f.rebound bind' := by
  rw [rebound, rebound, List.map_congr_left fun r hr => by rw [h r hr]]

namespace Index

/-- In `t` and `u` the same nodes are outside a set of nodes, and what is said there or in a file
other than `path` is bound, linked and evaluated alike. -/
structure AlikeOutside (inside : NodeId → Prop) (path : SourcePath) (t u : Index) : Prop where
  isLive_eq : ∀ i, ¬ inside i → u.isLive i = t.isLive i
  referencesIn_eq : ∀ other : SourcePath, other.components ≠ path.components →
    u.referencesIn other = t.referencesIn other
  linkTarget?_eq : ∀ i, ¬ inside i → u.linkTarget? i = t.linkTarget? i
  evaluateAt_eq : ∀ o i v, ¬ inside i → u.evaluateAt o i v = t.evaluateAt o i v

/-- The node stands in the tree of an isolated file. -/
def InTreeOf (t : Index) (path : SourcePath) (i : NodeId) : Prop :=
  ∃ r, t.file? path = some r ∧ r.isolated = true ∧ r.top ∈ t.ancestors i

/-- Whether a node stands outside the tree below `top`. -/
def isOutside (t : Index) (top i : NodeId) : Bool := !(t.ancestors i).contains top

variable {t u : Index} {L L' : Ledger} {lay lay' : Layout} {path : SourcePath} {r : FileRecord}
  {i j top : NodeId} {k : List PathComponent} {a : Address} {p : NodeId → Bool}

/-- A node is outside exactly if the top is none of its ancestors. -/
theorem isOutside_iff : t.isOutside top i = true ↔ top ∉ t.ancestors i := by
  rw [isOutside, Bool.not_eq_true', ← Bool.not_eq_true, List.contains_iff_mem]

/-- Refreshing nodes that do not count changes none of the names that do. -/
theorem filter_get_foldl_refresh {ids : List NodeId} (hids : ∀ id ∈ ids, p id = false)
    (s : String) :
    ((ids.foldl refresh t).names.get s).filter p = (t.names.get s).filter p := by
  induction ids generalizing t with
  | nil => rfl
  | cons id ids ih =>
    obtain ⟨hid, hids⟩ := List.forall_mem_cons.mp hids
    rw [List.foldl_cons, ih hids]
    unfold refresh
    split
    · rfl
    · exact NameTable.filter_get_rename hid

namespace Laid

/-- Nodes that are told apart by their homes, those in the common tree among them, make up a
region. -/
theorem isRegion_of_home (h : t.Laid lay) {P : Option (List PathComponent) → Prop} (hnone : P none)
    (hp : ∀ {a : Address} {i : NodeId}, lay a = some i → (p i = true ↔ P a.home)) :
    t.IsRegion p where
  root_mem := (hp h.root_at).mpr hnone
  closed {i j} hj := by
    obtain ⟨n, hn⟩ := Option.isSome_iff_exists.mp (h.isLive_of_mem_ancestors hj)
    obtain ⟨b, hb⟩ := h.exists_address hn
    obtain ⟨a, ha, hle⟩ := h.le_of_mem_ancestors hb hj
    rw [Bool.eq_iff_iff, hp ha, hp hb, hle.1]

/-- The nodes outside the tree of an isolated file are those with another home. -/
theorem isOutside_iff_home_ne (h : t.Laid lay) (htop : lay (.isolated k) = some top)
    (ha : lay a = some i) : t.isOutside top i = true ↔ a.home ≠ some k := by
  rw [isOutside_iff, h.mem_ancestors_iff ha, not_iff_not]
  constructor
  · rintro ⟨b, hle, hb⟩
    rw [← hle.1, ← h.injective htop hb]
    rfl
  · intro hhome
    exact ⟨.isolated k, ⟨hhome.symm, List.nil_suffix⟩, htop⟩

/-- What is outside of an isolated tree is a region. -/
theorem isRegion_isOutside (h : t.Laid lay) (htop : lay (.isolated k) = some top) :
    t.IsRegion (t.isOutside top) :=
  h.isRegion_of_home (P := fun home => home ≠ some k) (Option.some_ne_none k).symm
    (h.isOutside_iff_home_ne htop)

end Laid

/-! ### Where targets lie -/

/-- The target of a link lies in the tree of the link or in the common one. -/
def Near (t : Index) (lay : Layout) : Prop :=
  ∀ {a b : Address} {i j : NodeId} {n : Node}, t.node? i = some n → n.target = some j →
    lay a = some i → lay b = some j → b.home = none ∨ b.home = a.home

namespace Built

/-- Resolution looks for a target around the link and at the common root. -/
theorem near_resolve (h : t.Built L lay) (ht : t.Near lay) : t.resolve.Near lay := by
  intro a b i j m hm hj ha hb
  rw [node?_resolve] at hm
  obtain ⟨n, hn, rfl⟩ := Option.map_eq_some_iff.mp hm
  change t.targetOf i n = some j at hj
  rw [targetOf] at hj
  split at hj
  · exact ht hn hj ha hb
  · classical
    -- the common tree and that of the address are a region, and names lead to nodes of it
    let p : NodeId → Bool := fun x =>
      decide (∃ c, lay c = some x ∧ (c.home = none ∨ c.home = a.home))
    have hp : ∀ {c x}, lay c = some x → (p x = true ↔ (c.home = none ∨ c.home = a.home)) := by
      intro c x hc
      rw [decide_eq_true_iff]
      constructor
      · rintro ⟨c', hc', hhome⟩
        rwa [h.laid.injective hc hc']
      · exact fun hhome => ⟨c, hc, hhome⟩
    have hregion : t.IsRegion p :=
      h.laid.isRegion_of_home (P := fun home => home = none ∨ home = a.home) (Or.inl rfl) hp
    have hparent := hregion.mem_of_parent ((hp ha).mpr (Or.inr rfl)) hn
    exact (hp hb).mp (hregion.mem_of_resolveName? h hparent hj)

/-- After a file is removed, every target is still near. -/
theorem exists_near_remove (h : t.Built L lay) (ht : t.Near lay) (path : SourcePath) :
    ∃ lay', (t.remove path).Built (L.without path) lay' ∧ (t.remove path).Near lay' := by
  cases hfile : t.file? path with
  | none =>
    have hnew := hasFile_eq_false_iff.mpr hfile
    rw [remove_of_not_hasFile hnew, Ledger.without_eq_self (h.components_ne hnew)]
    exact ⟨lay, h, ht⟩
  | some f =>
    obtain ⟨v, lay', hpruned, hv, heq⟩ := h.exists_withdraw_eq hfile
    have hremove : t.remove path = v.clearDangling := (remove_of_file? hfile).trans heq
    rw [Ledger.without_congr (h.components_eq hfile)] at hv
    refine ⟨lay', hremove ▸ hv.clearDangling, fun {a b i j m} hm hj ha hb => ?_⟩
    -- removal sets no target and moves no node
    obtain ⟨n, hn, hback⟩ := h.exists_node_of_remove hm
    exact ht hn (hback j hj) (hpruned.only ha) (hpruned.only hb)

/-- After a file is contributed, every target is still near. -/
theorem exists_near_contribute (h : t.Built L lay) (hanchored : t.Anchored) (ht : t.Near lay)
    (hnew : t.hasFile path = false) (doc : Document) :
    ∃ lay', (t.contribute path (doc.outline path)).Built (L ++ [(path, doc)]) lay' ∧
      (t.contribute path (doc.outline path)).Near lay' := by
  obtain ⟨v, lay', ids, top, hlaying, htop, heq⟩ := h.exists_contribute_eq hnew doc
  have hbuilt := hlaying.built h hnew htop
  refine ⟨lay', heq ▸ hbuilt, fun {a b i j m} hm hj ha hb => ?_⟩
  rw [heq] at hm
  obtain ⟨n, hn, htarget⟩ := hlaying.exists_target hm (by simp [hj])
  rw [hj] at htarget
  -- the link and its target stand where they stood
  obtain ⟨a', ha'⟩ := h.laid.exists_address hn
  obtain ⟨b', hb'⟩ := h.laid.isLive_iff.mp (hanchored.target_live hn htarget)
  obtain rfl := hbuilt.laid.injective ha (hlaying.layout.keep ha')
  obtain rfl := hbuilt.laid.injective hb (hlaying.layout.keep hb')
  exact ht hn htarget ha' hb'

/-- An operation leaves every target in the tree of its link or in the common one. -/
theorem exists_near_apply (h : t.Built L lay) (hanchored : t.Anchored) (ht : t.Near lay)
    (op : Operation) : ∃ lay', (t.apply op).Built (L.apply op) lay' ∧ (t.apply op).Near lay' := by
  cases op with
  | add path doc =>
    obtain ⟨lay₁, hremoved, hnear⟩ := h.exists_near_remove ht path
    exact hremoved.exists_near_contribute (hanchored.remove path) hnear (h.hasFile_remove path) doc
  | remove path => exact h.exists_near_remove ht path
  | resolve => exact ⟨lay, h.resolve, h.near_resolve ht⟩
  | reevaluate o =>
    refine ⟨lay, h.reevaluate o, fun {a b i j m} hm hj ha hb => ?_⟩
    change (t.reevaluate o).node? i = some m at hm
    rw [node?_reevaluate] at hm
    obtain ⟨n, hn, rfl⟩ := Option.map_eq_some_iff.mp hm
    exact ht hn hj ha hb
  | copy =>
    refine ⟨_, h.copy, ?_⟩
    show t.copy.Near _
    rw [copy_eq]
    refine h.bareCopy.near_resolve fun {a b i j m} hm hj _ _ => ?_
    -- nodes have no targets before the links of the copy are resolved
    obtain ⟨id, n, -, -, rfl⟩ := exists_of_node?_bareCopy h.laid h.rooted hm
    cases hj

end Built

/-- After any run every target lies in the tree of its link or in the common one. -/
theorem exists_near_run (options : IndexOptions) (ops : List Operation) :
    ∃ L lay, (run options ops).Built L lay ∧ (run options ops).Anchored ∧
      (run options ops).Near lay := by
  refine run_induction (P := fun t => ∃ L lay, t.Built L lay ∧ t.Anchored ∧ t.Near lay) options
    ⟨[], emptyLayout, built_empty options, anchored_empty options, ?_⟩ ?_ ops
  · intro a b i j n hn hj _ _
    rw [node?_empty] at hn
    split at hn
    · obtain rfl := Option.some.inj hn
      cases hj
    · cases hn
  · rintro t - - op - ⟨L, lay, h, hanchored, hnear⟩
    obtain ⟨lay', h', hnear'⟩ := h.exists_near_apply hanchored hnear op
    exact ⟨_, lay', h', h.anchored_apply hanchored op, hnear'⟩

/-! ### Removing an isolated file -/

namespace Built

section

variable (h : t.Built L lay) (hr : t.file? path = some r) (hisolated : r.isolated = true)
include h hr hisolated

theorem isRegion_isOutside : t.IsRegion (t.isOutside r.top) :=
  h.laid.isRegion_isOutside (h.isolated_at_iff.mpr ⟨r, hr, hisolated, rfl⟩)

/-- A node is outside exactly if it stands in another tree. -/
theorem isOutside_iff_home_ne {a : Address} (ha : lay a = some i) :
    t.isOutside r.top i = true ↔ a.home ≠ some path.components :=
  h.laid.isOutside_iff_home_ne (h.isolated_at_iff.mpr ⟨r, hr, hisolated, rfl⟩) ha

/-- What an isolated file deposits lies in its own tree. -/
theorem home_of_same {d : Deposit} (hd : d ∈ L.deposits) (hsame : d.2.file.same r.path = true) :
    d.1.home = some path.components := by
  obtain ⟨e, he, hpath, hisOf⟩ := h.isOf hr
  obtain ⟨e', he', hd'⟩ := Ledger.mem_deposits_iff.mp hd
  rw [SourcePath.same_iff, Document.file_eq_of_mem_deposits hd', hisOf.path_eq] at hsame
  obtain rfl := h.distinct.eq he' he hsame
  rw [Outline.home_of_mem_deposits hd', Outline.home, if_pos (hisOf.isolated_eq ▸ hisolated), hpath]

/-- And so do the nodes that it comes to. -/
theorem isOutside_of_mem_nodes (hi : i ∈ r.nodes) : t.isOutside r.top i = false := by
  obtain ⟨e, he, hpath, hisOf⟩ := h.isOf hr
  obtain ⟨a, ha, hlay⟩ := hisOf.nodes_at.exists_of_mem_ids hi
  obtain ⟨d, hd, hle⟩ := Document.exists_deposit_of_mem_visited ha
  have hhome : a.home = some path.components := by
    rw [hle.1, Outline.home_of_mem_deposits hd, Outline.home,
      if_pos (hisOf.isolated_eq ▸ hisolated), hpath]
  rw [← Bool.not_eq_true, h.isOutside_iff_home_ne hr hisolated hlay]
  exact fun hne => hne hhome

/-- The file has no part in a node outside. -/
theorem not_mem_nodesOf_of_isOutside (hi : t.isOutside r.top i = true) : i ∉ t.nodesOf path := by
  rw [nodesOf, hr]
  intro hmem
  rw [h.isOutside_of_mem_nodes hr hisolated hmem] at hi
  cases hi

/-- The mentions of the other files stand outside. -/
theorem isOutside_of_mem_references {c : List PathComponent} {f : FileRecord}
    (hc : c ≠ path.components) (hf : t.files[c]? = some f) {m : Reference}
    (hm : m ∈ f.references) : t.isOutside r.top m.scope = true := by
  obtain ⟨e, -, rfl, hisOf⟩ := h.isOf hf
  obtain ⟨a, ha, hhome⟩ := hisOf.exists_scope_at_home hm
  rw [h.isOutside_iff_home_ne hr hisolated ha, hhome, Outline.home]
  split
  · exact fun heq => hc (Option.some.inj heq)
  · exact (Option.some_ne_none _).symm

section

variable {v : Index} (hpruned : (t.emptied r).Pruned lay v lay')
  (hv : v.Built (L.without r.path) lay')
include hpruned hv

/-- When the file is withdrawn, its tree goes and all else stays where it is. -/
theorem layout_eq_of_pruned (b : Address) :
    lay' b = if b.home = some path.components then none else lay b := by
  split
  · rename_i hhome
    -- a node left in the tree of the file would have a record of the file left as well
    rw [Option.eq_none_iff_forall_ne_some]
    intro id hid
    have htop : (Address.isolated path.components) ≤ b := ⟨hhome.symm, List.nil_suffix⟩
    obtain ⟨top, htop⟩ := hv.laid.closed_of_le hid htop
    obtain ⟨f, hf, -⟩ := hv.isolated_at_iff.mp htop
    obtain ⟨e, he, hpath⟩ := hv.exists_entry hf
    rw [Ledger.mem_without_iff, h.components_eq hr] at he
    exact he.2 hpath
  · rename_i hhome
    cases hb : lay b with
    | none =>
      rw [Option.eq_none_iff_forall_ne_some]
      intro id hid
      rw [hpruned.only hid] at hb
      cases hb
    | some id =>
      rcases h.covered b id hb with rfl | ⟨d, hd, hle⟩
      · rw [hv.laid.root_at, ← h.laid.root_at, hb]
      -- what keeps the node was not left by the file
      · refine hpruned.keep hv.toHolds hb (d := d) ?_ hle
        rw [Ledger.deposits_without, List.mem_filter, Bool.not_eq_true', ← Bool.not_eq_true]
        refine ⟨hd, fun hsame => hhome ?_⟩
        rw [hle.1, h.home_of_same hr hisolated hd hsame]

/-- Under each name the nodes outside the tree are left, in the order in which they were listed. -/
theorem get_names_of_pruned (s : String) :
    v.names.get s = (t.names.get s).filter (t.isOutside r.top) := by
  have hholds := h.holds_emptied hr
  obtain ⟨nodes, hnodes⟩ := exists_dropFragments_eq (t.forgotten r) r.path r.nodes
  have hemptied : ((t.emptied r).names.get s).filter (t.isOutside r.top) =
      (t.names.get s).filter (t.isOutside r.top) := by
    rw [emptied, filter_get_foldl_refresh fun _ => h.isOutside_of_mem_nodes hr hisolated, hnodes]
    rfl
  rw [← hemptied]
  -- pruning keeps the names of live nodes, and these are the ones outside
  refine (hpruned.names s).trans (List.filter_congr fun j hj => ?_)
  obtain ⟨a, ha⟩ := hholds.laid.isLive_iff.mp (hholds.named.isLive_of_mem hj)
  rw [Bool.eq_iff_iff, hv.laid.isLive_iff, h.isOutside_iff_home_ne hr hisolated ha]
  have hlay := h.layout_eq_of_pruned hr hisolated hpruned hv
  constructor
  · rintro ⟨b, hb⟩
    obtain rfl := h.laid.injective ha (hpruned.only hb)
    rw [hlay] at hb
    split at hb
    · cases hb
    · assumption
  · intro hhome
    exact ⟨a, by rw [hlay, if_neg hhome, ha]⟩

end

/-- The index without the file is laid out as before, but for the tree of the file, and lists the
nodes outside the tree in the same order under every name, and no others. -/
theorem exists_remove_isolated :
    ∃ lay', (t.remove path).Built (L.without path) lay' ∧
      (∀ b : Address, lay' b = if b.home = some path.components then none else lay b) ∧
      ∀ s, (t.remove path).names.get s = (t.names.get s).filter (t.isOutside r.top) := by
  obtain ⟨v, lay', hpruned, hv, heq⟩ := h.exists_withdraw_eq hr
  have hremove : t.remove path = v.clearDangling := (remove_of_file? hr).trans heq
  rw [hremove]
  refine ⟨lay', ?_, h.layout_eq_of_pruned hr hisolated hpruned hv, fun s => ?_⟩
  · rw [← Ledger.without_congr (h.components_eq hr)]
    exact hv.clearDangling
  · exact h.get_names_of_pruned hr hisolated hpruned hv s

variable (ht : t.Anchored)
include ht

/-- A node outside the tree of the file only loses a target that is gone. -/
theorem exists_node_remove_isolated {n : Node} (hi : t.isOutside r.top i = true)
    (hn : t.node? i = some n) :
    (t.remove path).node? i = some { n with target := n.target.filter (t.remove path).isLive } := by
  obtain ⟨lay', hu, hlay, -⟩ := h.exists_remove_isolated hr hisolated
  obtain ⟨a, ha⟩ := h.laid.exists_address hn
  have hhome := (h.isOutside_iff_home_ne hr hisolated ha).mp hi
  have ha' : lay' a = some i := by rw [hlay, if_neg hhome, ha]
  obtain ⟨m, hm⟩ := hu.laid.exists_node ha'
  have hchildren : m.children = n.children := by
    refine Std.ExtTreeMap.ext_getElem? fun x => ?_
    rw [hu.laid.child_eq ha' hm, h.laid.child_eq ha hn, hlay, Address.home_child, if_neg hhome]
  have hkept := (h.onlyChanges_remove ht path).unlisted i n m hn hm
    (h.not_mem_nodesOf_of_isOutside hr hisolated hi) (not_mem_nodesOf (h.hasFile_remove path) i)
  rw [hchildren] at hkept
  rw [hm, hkept]

/-- Outside the tree of an isolated file the index without the file agrees with the index. -/
theorem agreesOn_remove : (t.remove path).AgreesOn t (t.isOutside r.top) where
  options_eq := h.options_remove path
  node_eq i hi := by
    cases hn : t.node? i with
    | none =>
      have hgone : (t.remove path).node? i = none := by
        rw [Option.eq_none_iff_forall_ne_some]
        intro m hm
        obtain ⟨n, hn', -⟩ := h.exists_node_of_remove hm
        rw [hn] at hn'
        cases hn'
      rw [hgone]
    | some n =>
      rw [h.exists_node_remove_isolated hr hisolated ht hi hn]
      rfl
  names_eq := by
    obtain ⟨-, -, -, hnames⟩ := h.exists_remove_isolated hr hisolated
    exact hnames

/-- The targets of nodes outside the tree lie outside it, so none of them is lost. -/
theorem linkTarget?_remove (hnear : t.Near lay) (hi : t.isOutside r.top i = true) :
    (t.remove path).linkTarget? i = t.linkTarget? i := by
  have hagrees := h.agreesOn_remove hr hisolated ht
  cases hn : t.node? i with
  | none =>
    have hgone := hagrees.node_eq i hi
    rw [hn, Option.map_none, Option.map_eq_none_iff] at hgone
    rw [linkTarget?, linkTarget?, hgone, hn]
  | some n =>
    rw [linkTarget?, linkTarget?, h.exists_node_remove_isolated hr hisolated ht hi hn, hn]
    show n.target.filter _ = n.target
    cases hj : n.target with
    | none => rfl
    | some j =>
      obtain ⟨m, hm⟩ := Option.isSome_iff_exists.mp (ht.target_live hn hj)
      obtain ⟨a, ha⟩ := h.laid.exists_address hn
      obtain ⟨b, hb⟩ := h.laid.exists_address hm
      have hhome := (h.isOutside_iff_home_ne hr hisolated ha).mp hi
      have hj' : t.isOutside r.top j = true := by
        rw [h.isOutside_iff_home_ne hr hisolated hb]
        rcases hnear hn hj ha hb with hnone | hsame
        · rw [hnone]
          exact (Option.some_ne_none _).symm
        · rwa [hsame]
      rw [Option.filter_some, if_pos]
      exact isLive_of_node? (h.exists_node_remove_isolated hr hisolated ht hj' hm)

end

end Built

/-! ### What is alike after resolution -/

theorem AlikeOutside.symm {inside : NodeId → Prop} (h : AlikeOutside inside path t u) :
    AlikeOutside inside path u t where
  isLive_eq i hi := (h.isLive_eq i hi).symm
  referencesIn_eq other hother := (h.referencesIn_eq other hother).symm
  linkTarget?_eq i hi := (h.linkTarget?_eq i hi).symm
  evaluateAt_eq o i v hi := (h.evaluateAt_eq o i v hi).symm

/-- Resolution does not look at what was bound before. -/
theorem files_resolve_unbound (t : Index) (c : List PathComponent) :
    t.resolve.files[c]? = ((t.files[c]?).map FileRecord.unbound).map
      (FileRecord.rebound fun r => t.bindingOf r.scope r.mention) := by
  rw [files_resolve, Option.map_map]
  refine congrArg (Option.map · _) (funext fun f => ?_)
  exact (FileRecord.rebound_rebound _ (fun _ _ => rfl) f).symm

/-- Two indexes that agree on a region, on the targets in it and on the other files, which lie in
it, are resolved alike there. -/
theorem AgreesOn.alikeOutside_resolve (h : u.AgreesOn t p) (hp : t.IsRegion p)
    (ht : t.Built L lay) (hu : u.Built L' lay')
    (hlinks : ∀ i, p i = true → u.linkTarget? i = t.linkTarget? i)
    (hfiles : ∀ c : List PathComponent, c ≠ path.components →
      (u.files[c]?).map FileRecord.unbound = (t.files[c]?).map FileRecord.unbound)
    (hscopes : ∀ (c : List PathComponent) f, c ≠ path.components → t.files[c]? = some f →
      ∀ m ∈ f.references, p m.scope = true) :
    AlikeOutside (fun i => p i = false) path t.resolve u.resolve where
  isLive_eq i hi := by
    have hnode := congrArg Option.isSome (h.node_eq i (Bool.not_eq_false _ ▸ hi))
    simpa only [isLive, node?_resolve, Option.isSome_map] using hnode
  referencesIn_eq other hother := by
    have hrecord : u.resolve.files[other.components]? = t.resolve.files[other.components]? := by
      rw [files_resolve_unbound u, hfiles _ hother, files_resolve_unbound t]
      cases hf : t.files[other.components]? with
      | none => simp only [Option.map_none]
      | some f =>
        refine congrArg some (FileRecord.rebound_congr fun r hr => ?_)
        obtain ⟨m, hm, rfl⟩ := List.mem_map.mp hr
        exact h.bindingOf_eq hp ht hu (hscopes _ f hother hf m hm) m.mention
    rw [referencesIn, referencesIn, file?, file?, hrecord]
  linkTarget?_eq i hi := by
    have hi : p i = true := Bool.not_eq_false _ ▸ hi
    exact h.linkTarget?_resolve_eq hp ht hu hi fun _ => hlinks i hi
  evaluateAt_eq o i v hi := by
    have hi : p i = true := Bool.not_eq_false _ ▸ hi
    -- resolution changes no value on either side
    rw [u.agreesOn_resolve.evaluateAt_eq u.isRegion_all o rfl, h.evaluateAt_eq hp o hi,
      t.agreesOn_resolve.evaluateAt_eq t.isRegion_all o rfl]

/-- The nodes in the tree of a file are those that are not outside. -/
theorem inTreeOf_eq (hr : t.file? path = some r) (hisolated : r.isolated = true) :
    t.InTreeOf path = fun i => t.isOutside r.top i = false := by
  funext i
  rw [← Bool.not_eq_true, isOutside_iff, not_not, InTreeOf, hr, eq_iff_iff]
  constructor
  · rintro ⟨r', hr', -, hmem⟩
    rwa [Option.some.inj hr']
  · exact fun hmem => ⟨r, rfl, hisolated, hmem⟩

/-- Without an isolated file an index is resolved as it is with the file, but for the tree of the
file. -/
theorem Built.alikeOutside_remove (h : t.Built L lay) (ht : t.Anchored) (hnear : t.Near lay)
    (hr : t.file? path = some r) (hisolated : r.isolated = true) :
    AlikeOutside (t.InTreeOf path) path t.resolve (t.remove path).resolve := by
  obtain ⟨lay', hu, -⟩ := h.exists_remove_isolated hr hisolated
  rw [inTreeOf_eq hr hisolated]
  exact (h.agreesOn_remove hr hisolated ht).alikeOutside_resolve
    (h.isRegion_isOutside hr hisolated) h hu
    (fun _ => h.linkTarget?_remove hr hisolated ht hnear) (h.onlyChanges_remove ht path).files_eq
    fun _ _ hc hf _ => h.isOutside_of_mem_references hr hisolated hc hf

/-- When a new file is removed again, the nodes to which it has not come are as they were. -/
theorem Built.node?_remove_add (h : t.Built L lay) (ht : t.Anchored) (hnew : t.hasFile path = false)
    (doc : Document) (hi : i ∉ (t.add path doc).nodesOf path) :
    ((t.add path doc).remove path).node? i = t.node? i := by
  have hforget : (t.forgetValues ((t.add path doc).nodesOf path)).node? i =
      (t.node? i).map fun n =>
        if i ∈ (t.add path doc).nodesOf path then n.withoutValues else n :=
    Std.ExtTreeMap.getElem?_map
  rw [h.remove_add ht hnew doc]
  refine hforget.trans ?_
  simp only [if_neg hi, Option.map_id']

/-- So it is when the file is added: to remove it again gives the index back, and on the nodes that
the file has not come to the values as well. -/
theorem Built.alikeOutside_add (h : t.Built L lay) (ht : t.Anchored) (hnear : t.Near lay)
    (hnew : t.hasFile path = false) {doc : Document} (hdoc : doc.packagePath = []) :
    AlikeOutside ((t.add path doc).InTreeOf path) path t.resolve (t.add path doc).resolve := by
  obtain ⟨lay', hb, hnear'⟩ := h.exists_near_contribute ht hnear hnew doc
  have hanchored := h.anchored_contribute ht hnew doc
  -- to remove the file again leads back, so adding is removing seen from the other side
  have hback := h.remove_add ht hnew doc
  have hkept : ∀ {i}, i ∉ (t.add path doc).nodesOf path →
      ((t.add path doc).remove path).node? i = t.node? i := h.node?_remove_add ht hnew doc
  have hadd : t.contribute path (doc.outline path) = t.add path doc := by
    rw [add, remove_of_not_hasFile hnew]
  rw [hadd] at hb hnear' hanchored
  generalize t.add path doc = b at hb hnear' hanchored hback hkept
  obtain ⟨f, hf, hisOf⟩ := hb.exists_file (path, doc)
    (List.mem_append_right _ (List.mem_singleton_self _))
  have hisolated : f.isolated = true := by
    rw [hisOf.isolated_eq]
    exact List.isEmpty_iff.mpr hdoc
  have hremoved := hb.agreesOn_remove hf hisolated hanchored
  have hnode : ∀ i, b.isOutside f.top i = true → (b.remove path).node? i = t.node? i :=
    fun i hi => hkept (hb.not_mem_nodesOf_of_isOutside hf hisolated hi)
  -- outside of the tree nothing has been touched
  have hagrees : t.AgreesOn b (b.isOutside f.top) := by
    refine ⟨?_, fun i hi => ?_, fun s => ?_⟩
    · rw [← hremoved.options_eq, hback]
      rfl
    · rw [← hnode i hi]
      exact hremoved.node_eq i hi
    · rw [← hremoved.names_eq, hback]
      rfl
  rw [inTreeOf_eq hf hisolated]
  refine (hagrees.alikeOutside_resolve (hb.isRegion_isOutside hf hisolated) hb h (fun i hi => ?_)
    (fun c hc => ?_) fun _ _ hc hg _ => hb.isOutside_of_mem_references hf hisolated hc hg).symm
  · rw [← hb.linkTarget?_remove hf hisolated hanchored hnear' hi, linkTarget?, linkTarget?,
      hnode i hi]
  · rw [← (hb.onlyChanges_remove hanchored path).files_eq c hc, hback]
    rfl

/-- After any run, right after resolution: when a file without a package is added that is not
indexed, or one that is indexed without a package is removed, and all is resolved again, then the
references of every other file are bound as before, and outside the tree of the file every node
has the target and every value evaluates to the result from before. -/
theorem isolated_invisible_run (options : IndexOptions) (ops : List Operation)
    (path : SourcePath) :
    let t := (run options ops).resolve
    (∀ doc, doc.packagePath = [] → t.hasFile path = false →
      AlikeOutside ((t.add path doc).InTreeOf path) path t (t.add path doc).resolve) ∧
    ∀ r, t.file? path = some r → r.isolated = true →
      AlikeOutside (t.InTreeOf path) path t (t.remove path).resolve := by
  intro t
  obtain ⟨L, lay, h, hanchored, hnear⟩ := exists_near_run options ops
  have ht : t.resolve = t := h.resolve_resolve
  have hanchored' := h.anchored_resolve hanchored.target_live
  have hnear' : t.Near lay := h.near_resolve hnear
  refine ⟨fun doc hdoc hnew => ?_, fun r hr hisolated => ?_⟩
  · have halike := h.resolve.alikeOutside_add hanchored' hnear' hnew hdoc
    rwa [show (run options ops).resolve.resolve = t from ht] at halike
  · have halike := h.resolve.alikeOutside_remove hanchored' hnear' hr hisolated
    rwa [show (run options ops).resolve.resolve = t from ht] at halike

/-- A file without a package that declares the objects of `aliasDocument` as its own. -/
def ownDocument : Document := { aliasDocument (.reference "db" .start) with package := none }

/-- The two files have the same names for their objects and links. -/
theorem isolated_invisible_run_of_same_names :
    let path := SourcePath.ofText "b.pcl"
    let packaged := Operation.add (.ofText "a.pcl") (aliasDocument (.reference "db" .start))
    let t := (run {} [packaged]).resolve
    let b := (run {} [packaged, .add path ownDocument]).resolve
    (ownDocument.packagePath = [] ∧ t.hasFile path = false ∧
      AlikeOutside ((t.add path ownDocument).InTreeOf path) path t
        (t.add path ownDocument).resolve) ∧
    ∃ r, b.file? path = some r ∧ r.isolated = true ∧
      AlikeOutside (b.InTreeOf path) path b (b.remove path).resolve := by
  intro path packaged t b
  have hnew : t.hasFile path = false := by decide
  have hfile : (b.file? path).any FileRecord.isolated = true := by decide
  obtain ⟨r, hr, hisolated⟩ := (Option.any_eq_true _ _).mp hfile
  obtain ⟨hadd, -⟩ := isolated_invisible_run {} [packaged] path
  obtain ⟨-, hremove⟩ := isolated_invisible_run {} [packaged, .add path ownDocument] path
  exact ⟨⟨rfl, hnew, hadd ownDocument rfl hnew⟩, r, hr, hisolated, hremove r hr hisolated⟩

end Index

end SemanticIndex
