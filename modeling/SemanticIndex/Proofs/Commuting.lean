import SemanticIndex.Proofs.Fidelity
import SemanticIndex.Proofs.Regions
import SemanticIndex.Proofs.Reindexing

/-!
# Independent Files Commute

Two files that come to no common node with fragments, and have no template name in common, may be
added in either order (`Index.add_add_comm_run`). The nodes that they make have other numbers and
stand in other places in the lists of the name table, and that is all: with the numbers changed the
one index is the other (`Index.IsRenaming`), so the listings are the same, and after resolution
references lead to the same places.

Both indexes are built from the same entries. Where they differ in the order of the last two, this
order is seen neither on a node, as no node has fragments of both files, nor among the templates of
a name.
-/

namespace SemanticIndex

/-- The node with other numbers. -/
def Node.rename (ρ : NodeId → NodeId) (n : Node) : Node :=
  { n.relabel ρ with target := n.target.map ρ }

/-- The record with other numbers. -/
def FileRecord.rename (ρ : NodeId → NodeId) (f : FileRecord) : FileRecord :=
  { f with
    top := ρ f.top
    nodes := f.nodes.map ρ
    references := f.references.map fun r =>
      { r with
        scope := ρ r.scope
        binding := r.binding.relabel ρ } }

/-- Where nothing is bound there are no bindings to be renamed. -/
theorem FileRecord.relabel_eq_rename {r : FileRecord}
    (h : ∀ x ∈ r.references, x.binding = .unbound) (ρ : NodeId → NodeId) :
    r.relabel ρ = r.rename ρ := by
  have hreferences : (r.references.map fun x =>
        { x with
          scope := ρ x.scope
          binding := .unbound }) =
      r.references.map fun x =>
        { x with
          scope := ρ x.scope
          binding := x.binding.relabel ρ } :=
    List.map_congr_left fun x hx => by rw [h x hx, Binding.relabel]
  rw [relabel, rename, hreferences]

/-- A node that holds a fragment of a file has one. -/
theorem Node.hasFragmentFrom_of_mem {n : Node} {x : Fragment} (hx : x ∈ n.fragments) :
    n.hasFragmentFrom x.file = true :=
  List.any_eq_true.mpr ⟨x, hx, SourcePath.same_refl x.file⟩

namespace Index

/-- Up to the numbers that `ρ` gives to the nodes of `t`, the order of the nodes of one name and the
order of templates of different names, `t` and `u` are the same. -/
structure IsRenaming (ρ : NodeId → NodeId) (t u : Index) : Prop where
  injective : ∀ i j, t.isLive i → t.isLive j → ρ i = ρ j → i = j
  surjective : ∀ j, u.isLive j → ∃ i, t.isLive i ∧ ρ i = j
  options_eq : u.options = t.options
  node_eq : ∀ i n, t.node? i = some n → u.node? (ρ i) = some (n.rename ρ)
  names_perm : ∀ s : String,
    Option.Rel (fun ids ids' => ids'.Perm (ids.map ρ)) t.names.lists[s]? u.names.lists[s]?
  files_eq : ∀ k : List PathComponent, u.files[k]? = (t.files[k]?).map (FileRecord.rename ρ)
  templates_eq : ∀ name, (u.registrations.filter fun r => r.2.name == name) =
    t.registrations.filter fun r => r.2.name == name

/-- No node holds fragments of both files, and no template name is registered by both. -/
structure KeepsApart (t : Index) (f g : SourcePath) : Prop where
  nodes : ∀ n ∈ t.nodes.values, n.hasFragmentFrom f = true → n.hasFragmentFrom g = false
  templates : ∀ r ∈ t.registrations, ∀ r' ∈ t.registrations, r.1.same f = true →
    r'.1.same g = true → r.2.name ≠ r'.2.name

variable {t u w : Index} {L L' : Ledger} {lay lay' lay'' : Layout} {path f g : SourcePath}
  {doc c d : Document} {ids ids' : List NodeId} {i : NodeId} {n m : Node} {a : Address}
  {ρ : NodeId → NodeId}

/-! ### The order of entries -/

/-- The entries may stand in another order, if this order is not seen on any node. -/
theorem Built.reorder (h : t.Built L lay) (hperm : L'.Perm L)
    (hsame : ∀ a, fragmentsAt L'.deposits a = fragmentsAt L.deposits a) :
    { t with registrations := L'.registrations }.Built L' lay := by
  have hdeposits : ∀ {d : Deposit}, d ∈ L'.deposits ↔ d ∈ L.deposits := fun {d} =>
    (hperm.flatMap_right fun e => (e.2.outline e.1).deposits e.1).mem_iff
  exact {
    h.toHolds.congr (u := { t with registrations := L'.registrations }) rfl rfl rfl rfl with
    fragments_eq := fun {a id n} ha hn => (h.fragments_eq ha hn).trans (hsame a).symm
    placed := fun d hd => h.placed d (hdeposits.mp hd)
    covered := fun a id ha => (h.covered a id ha).imp_right fun ⟨d, hd, hle⟩ =>
      ⟨d, hdeposits.mpr hd, hle⟩
    distinct := (hperm.map _).nodup_iff.mpr h.distinct
    exists_file := fun e he => h.exists_file e (hperm.mem_iff.mp he)
    exists_entry := fun {k f} hf => by
      obtain ⟨e, he, hk⟩ := h.exists_entry hf
      exact ⟨e, hperm.mem_iff.mpr he, hk⟩
    registrations_eq := rfl }

/-- At no address both of the last files have left something. -/
theorem Built.fragmentsAt_eq_nil_or (h : w.Built (L ++ [(f, c)] ++ [(g, d)]) lay)
    (hapart : w.KeepsApart f g) (a : Address) :
    fragmentsAt ((c.outline f).deposits f) a = [] ∨
      fragmentsAt ((d.outline g).deposits g) a = [] := by
  by_contra hboth
  obtain ⟨hc, hd⟩ := not_or.mp hboth
  obtain ⟨x, hx⟩ := List.exists_mem_of_ne_nil _ hc
  obtain ⟨y, hy⟩ := List.exists_mem_of_ne_nil _ hd
  have hxd := mem_fragmentsAt_iff.mp hx
  have hyd := mem_fragmentsAt_iff.mp hy
  have hdeposits : Ledger.deposits (L ++ [(f, c)] ++ [(g, d)]) =
      L.deposits ++ (c.outline f).deposits f ++ (d.outline g).deposits g := by
    rw [Ledger.deposits_concat, Ledger.deposits_concat]
  -- the node at the address would hold both
  obtain ⟨i, hi⟩ := h.placed (a, x) (hdeposits ▸
    List.mem_append_left _ (List.mem_append_right _ hxd))
  obtain ⟨n, hn⟩ := h.laid.exists_node hi
  have hfragments : n.fragments = fragmentsAt L.deposits a ++
      fragmentsAt ((c.outline f).deposits f) a ++ fragmentsAt ((d.outline g).deposits g) a := by
    rw [h.fragments_eq hi hn, hdeposits, fragmentsAt_append, fragmentsAt_append]
  have hf : n.hasFragmentFrom f = true := by
    rw [← Document.file_eq_of_mem_deposits hxd]
    refine Node.hasFragmentFrom_of_mem (hfragments ▸ ?_)
    exact List.mem_append_left _ (List.mem_append_right _ hx)
  have hg : n.hasFragmentFrom g = true := by
    rw [← Document.file_eq_of_mem_deposits hyd]
    refine Node.hasFragmentFrom_of_mem (hfragments ▸ ?_)
    exact List.mem_append_right _ hy
  have hnot := hapart.nodes n (mem_values_iff.mpr ⟨i, hn⟩) hf
  rw [hg] at hnot
  cases hnot

/-- Nor have both registered a template of one name. -/
theorem Built.templates_eq_nil_or (h : w.Built (L ++ [(f, c)] ++ [(g, d)]) lay)
    (hapart : w.KeepsApart f g) (name : String) :
    ((c.outline f).templates.map (f, ·)).filter (fun r => r.2.name == name) = [] ∨
      ((d.outline g).templates.map (g, ·)).filter (fun r => r.2.name == name) = [] := by
  by_contra hboth
  obtain ⟨hc, hd⟩ := not_or.mp hboth
  obtain ⟨x, hx⟩ := List.exists_mem_of_ne_nil _ hc
  obtain ⟨y, hy⟩ := List.exists_mem_of_ne_nil _ hd
  obtain ⟨hx, hxname⟩ := List.mem_filter.mp hx
  obtain ⟨hy, hyname⟩ := List.mem_filter.mp hy
  have hregistrations : w.registrations = L.registrations ++
      (c.outline f).templates.map (f, ·) ++ (d.outline g).templates.map (g, ·) := by
    rw [h.registrations_eq, Ledger.registrations_concat, Ledger.registrations_concat]
  have hsame : x.2.name = y.2.name := (beq_iff_eq.mp hxname).trans (beq_iff_eq.mp hyname).symm
  refine hapart.templates x (hregistrations ▸ ?_) y (hregistrations ▸ ?_) ?_ ?_ hsame
  · exact List.mem_append_left _ (List.mem_append_right _ hx)
  · exact List.mem_append_right _ hy
  · obtain ⟨_, -, rfl⟩ := List.mem_map.mp hx
    exact SourcePath.same_refl _
  · obtain ⟨_, -, rfl⟩ := List.mem_map.mp hy
    exact SourcePath.same_refl _

/-- The last two entries of the one index may stand in the order of the other. -/
theorem Built.swap (h : w.Built (L ++ [(f, c)] ++ [(g, d)]) lay) (hapart : w.KeepsApart f g)
    (h' : u.Built (L ++ [(g, d)] ++ [(f, c)]) lay') :
    { u with registrations := Ledger.registrations (L ++ [(f, c)] ++ [(g, d)]) }.Built
      (L ++ [(f, c)] ++ [(g, d)]) lay' := by
  refine h'.reorder ?_ fun a => ?_
  · rw [List.append_assoc, List.append_assoc]
    exact List.Perm.append_left _ (List.Perm.swap _ _ _)
  · simp only [Ledger.deposits_concat, fragmentsAt_append]
    rcases h.fragmentsAt_eq_nil_or hapart a with hnil | hnil <;> simp [hnil]

/-- Registrations have no part in resolution. -/
theorem Built.resolve_registrations (h : t.Built L lay)
    {registrations : List (SourcePath × Template)}
    (h' : { t with registrations }.Built L' lay') :
    { t with registrations }.resolve = { t.resolve with registrations } :=
  have hagrees : { t with registrations }.AgreesOn t fun _ => true :=
    ⟨rfl, fun _ _ => rfl, fun _ => (List.filter_eq_self.mpr fun _ _ => rfl).symm⟩
  hagrees.resolve_eq h h' (fun _ _ => rfl) fun _ => rfl

/-- Nor have they in what bindings lead to. -/
theorem BindingsAgree.of_registrations {registrations : List (SourcePath × Template)}
    {b b' : Binding} (h : BindingsAgree ρ t { u with registrations } b b') :
    BindingsAgree ρ t u b b' := by
  cases h with
  | unbound => exact .unbound
  | node place_eq => exact .node place_eq
  | var => exact .var

/-- Templates have no part in what stands above a node. -/
theorem chainDown_registrations (t : Index) (registrations : List (SourcePath × Template))
    (bound : Nat) (i : NodeId) (depth : Nat) :
    chainDown { t with registrations } bound i depth = t.chainDown bound i depth := by
  induction bound generalizing i depth with
  | zero => rfl
  | succ bound ih =>
    rw [chainDown, chainDown, show node? { t with registrations } i = t.node? i from rfl]
    simp only [ih]

/-- Lines show of the registrations only the templates of each name. -/
theorem lines_registrations {registrations : List (SourcePath × Template)}
    (h : templatesByName { t with registrations } = t.templatesByName) :
    lines { t with registrations } = t.lines := by
  have hpreorder : preorder { t with registrations } = t.preorder :=
    List.flatMap_congr fun r _ => t.chainDown_registrations registrations t.nextId r 0
  rw [lines, lines, hpreorder, h]
  rfl

/-! ### What a new file does to nodes and records -/

namespace Added

/-- A node is among those that the file has come to if its address is. -/
theorem mem_ids_iff (h : t.Added L lay path doc u lay' ids) (ha : lay' a = some i) :
    i ∈ ids ↔ a ∈ (doc.outline path).visited path := by
  obtain ⟨w, top, hlaying, -, -⟩ := h.exists_laying
  exact hlaying.listed.mem_iff hlaying.holds.laid.injective ha

/-- A node where the file has not come to was there before. -/
theorem at_of_not_mem (h : t.Added L lay path doc u lay' ids) (ha : lay' a = some i)
    (hvisited : a ∉ (doc.outline path).visited path) : lay a = some i := by
  obtain ⟨w, top, hlaying, -, -⟩ := h.exists_laying
  exact (hlaying.layout.only ha).resolve_right hvisited

/-- A node that the file has come to has a fresh summary. -/
theorem summary_eq_of_mem (h : t.Added L lay path doc u lay' ids) (hm : u.node? i = some m)
    (hi : i ∈ ids) : m.summary = .ofFragments t.options m.fragments := by
  obtain ⟨w, top, hlaying, -, rfl⟩ := h.exists_laying
  have hnode := node?_foldl_refresh ids w i
  rw [show (ids.foldl refresh w).node? i = some m from hm, if_pos hi] at hnode
  obtain ⟨k, -, rfl⟩ := Option.map_eq_some_iff.mp hnode.symm
  rw [← hlaying.extended.options_eq]
  rfl

/-- No target is set or cleared. -/
theorem linkTarget?_eq (h : t.Added L lay path doc u lay' ids) (i : NodeId) :
    u.linkTarget? i = t.linkTarget? i := by
  cases hn : t.node? i with
  | some n =>
    obtain ⟨k, hkeq, hbegins, hk⟩ := h.exists_node hn
    have htarget : k.target = n.target := by rw [hkeq]
    rw [linkTarget?, linkTarget?, hn, hk, Option.bind_some, Option.bind_some, ← htarget]
    split
    -- a node with a target is a link, and is one with more fragments
    · show (if k.isLink t.options then k.target else none) = k.target
      cases hj : k.target with
      | none => exact ite_self _
      | some j =>
        have hsome : n.target ≠ none := by
          rw [← htarget, hj]
          exact Option.some_ne_none j
        have hlink := (h.built.current hn List.not_mem_nil).isLink_of_target hsome
        exact if_pos (Node.isLink_of_isPrefix hlink hbegins)
    · rfl
  | none =>
    rw [linkTarget?, linkTarget?, hn, Option.bind_none, Option.eq_none_iff_forall_ne_some]
    intro j hj
    obtain ⟨m, hm, htarget⟩ := Option.bind_eq_some_iff.mp hj
    obtain ⟨w, top, hlaying, -, rfl⟩ := h.exists_laying
    obtain ⟨n, hn', -⟩ := hlaying.exists_target hm (by simp [htarget])
    rw [hn] at hn'
    cases hn'

/-- The references of the file are not bound yet. -/
theorem exists_unbound (h : t.Added L lay path doc u lay' ids) :
    ∃ r, u.file? path = some r ∧ ∀ x ∈ r.references, x.binding = .unbound := by
  obtain ⟨w, top, hlaying, -, rfl⟩ := h.exists_laying
  refine ⟨_, Std.ExtTreeMap.getElem?_insert_self, fun x hx => ?_⟩
  obtain ⟨m, -, rfl⟩ := List.mem_map.mp hx
  rfl

/-- After two new files a node has a fresh summary if one of them has come to it, and else the one
that it had before. -/
theorem summary_eq_or (h : t.Added L lay f c u lay' ids)
    (h' : u.Added (L ++ [(f, c)]) lay' g d w lay'' ids') (hm : w.node? i = some m)
    (ha : lay'' a = some i) :
    (a ∈ (c.outline f).visited f ∨ a ∈ (d.outline g).visited g) ∧
        m.summary = .ofFragments t.options m.fragments ∨
      ¬ (a ∈ (c.outline f).visited f ∨ a ∈ (d.outline g).visited g) ∧
        ∃ n, t.node? i = some n ∧ m.summary = n.summary := by
  by_cases hd : a ∈ (d.outline g).visited g
  · refine Or.inl ⟨Or.inr hd, ?_⟩
    rw [h'.summary_eq_of_mem hm ((h'.mem_ids_iff ha).mpr hd), h.options_eq]
  · -- the second file has not come to the node, so it is as the first one has left it
    have ha' := h'.at_of_not_mem ha hd
    obtain ⟨k, hk⟩ := h'.built.laid.exists_node ha'
    have hmk := h'.eq_of_not_mem hk hm fun hi => hd ((h'.mem_ids_iff ha).mp hi)
    have hsummary : m.summary = k.summary := by rw [hmk]
    have hfragments : m.fragments = k.fragments := by rw [hmk]
    rw [hsummary, hfragments]
    by_cases hc : a ∈ (c.outline f).visited f
    · exact Or.inl ⟨Or.inl hc, h.summary_eq_of_mem hk ((h.mem_ids_iff ha').mpr hc)⟩
    · have ha'' := h.at_of_not_mem ha' hc
      obtain ⟨n, hn⟩ := h.built.laid.exists_node ha''
      have hkn := h.eq_of_not_mem hn hk fun hi => hc ((h.mem_ids_iff ha').mp hi)
      exact Or.inr ⟨not_or.mpr ⟨hc, hd⟩, n, hn, by rw [hkn]⟩

/-- The references of two new files are not bound yet. -/
theorem unbound_of_or (h : t.Added L lay f c u lay' ids)
    (h' : u.Added (L ++ [(f, c)]) lay' g d w lay'' ids') {k : List PathComponent}
    (hk : k = f.components ∨ k = g.components) {r : FileRecord} (hr : w.files[k]? = some r) :
    ∀ x ∈ r.references, x.binding = .unbound := by
  by_cases hkg : k = g.components
  · obtain ⟨r', hr', hunbound⟩ := h'.exists_unbound
    rw [file?, ← hkg, hr] at hr'
    exact Option.some.inj hr' ▸ hunbound
  · obtain ⟨r', hr', hunbound⟩ := h.exists_unbound
    rw [h'.getElem?_files hkg, hk.resolve_right hkg] at hr
    rw [file?, hr] at hr'
    exact Option.some.inj hr' ▸ hunbound

/-- The records of all files but the two stay as they are. -/
theorem getElem?_files_of_and (h : t.Added L lay f c u lay' ids)
    (h' : u.Added (L ++ [(f, c)]) lay' g d w lay'' ids') {k : List PathComponent}
    (hk : ¬ (k = f.components ∨ k = g.components)) : w.files[k]? = t.files[k]? := by
  rw [h'.getElem?_files (not_or.mp hk).2, h.getElem?_files (not_or.mp hk).1]

end Added

/-! ### Two orders -/

/-- `w` is `t` with two new files, and `w'` is `t` with the same files added in the other order; the
node that is `i` in `w` is `ρ i` in `w'`. -/
structure AddedBothWays (t : Index) (L : Ledger) (lay : Layout) (f : SourcePath) (c : Document)
    (g : SourcePath) (d : Document) (w w' : Index) (lay' : Layout) (ρ : NodeId → NodeId) :
    Prop where
  one_way : ∃ u lay₁ ids ids', t.Added L lay f c u lay₁ ids ∧
    u.Added (L ++ [(f, c)]) lay₁ g d w lay' ids'
  other_way : ∃ u lay₁ ids ids', t.Added L lay g d u lay₁ ids ∧
    u.Added (L ++ [(g, d)]) lay₁ f c w' (lay'.relabel ρ) ids'

namespace AddedBothWays

variable {w' : Index}

section

variable (h : t.AddedBothWays L lay f c g d w w' lay' ρ)

include h

/-- The index is built to begin with. -/
theorem built_before : t.Built L lay := by
  obtain ⟨u, lay₁, ids, ids', h₁, -⟩ := h.one_way
  exact h₁.built

/-- With `f` added first it is built of both. -/
theorem built : w.Built (L ++ [(f, c)] ++ [(g, d)]) lay' := by
  obtain ⟨u, lay₁, ids, ids', h₁, h₂⟩ := h.one_way
  exact h₂.built_add

/-- With `g` added first it is built of both, the nodes renamed. -/
theorem built' : w'.Built (L ++ [(g, d)] ++ [(f, c)]) (lay'.relabel ρ) := by
  obtain ⟨u, lay₁, ids, ids', h₁, h₂⟩ := h.other_way
  exact h₂.built_add

/-- Both ways the options are the same. -/
theorem options_eq : w'.options = w.options := by
  obtain ⟨u, lay₁, ids, ids', h₁, h₂⟩ := h.one_way
  obtain ⟨u', lay₁', ids₁, ids₁', h₁', h₂'⟩ := h.other_way
  rw [h₂'.options_eq, h₁'.options_eq, h₂.options_eq, h₁.options_eq]

/-- The nodes from before stay where they are. -/
theorem keep (ha : lay a = some i) : lay' a = some i := by
  obtain ⟨u, lay₁, ids, ids', h₁, h₂⟩ := h.one_way
  exact h₂.keep (h₁.keep ha)

/-- They keep their numbers. -/
theorem eq_self (hi : t.isLive i = true) : ρ i = i := by
  obtain ⟨u, lay₁, ids, ids', h₁, h₂⟩ := h.other_way
  obtain ⟨a, ha⟩ := h.built_before.laid.isLive_iff.mp hi
  have hkept := h₂.keep (h₁.keep ha)
  rw [Layout.relabel_eq_some (h.keep ha)] at hkept
  exact Option.some.inj hkept

/-- And no other node gets such a number. -/
theorem isLive_iff (hi : w.isLive i = true) : t.isLive (ρ i) = true ↔ t.isLive i = true := by
  refine ⟨fun hlive => ?_, fun hlive => (h.eq_self hlive).symm ▸ hlive⟩
  obtain ⟨b, hb⟩ := h.built.laid.isLive_iff.mp hi
  obtain ⟨a, ha⟩ := h.built_before.laid.isLive_iff.mp hlive
  -- the node with the number from before stands where it stood, so it is `i`
  have ha' := Layout.relabel_eq_some (ρ := ρ) (h.keep ha)
  rw [h.eq_self hlive] at ha'
  obtain rfl := h.built'.laid.injective ha' (Layout.relabel_eq_some hb)
  exact h.built_before.laid.isLive_iff.mpr
    ⟨a, ha.trans ((h.keep ha).symm.trans hb)⟩

/-- With `f` added first no link leads elsewhere than before. -/
theorem linkTarget?_eq (i : NodeId) : w.linkTarget? i = t.linkTarget? i := by
  obtain ⟨u, lay₁, ids, ids', h₁, h₂⟩ := h.one_way
  rw [h₂.linkTarget?_eq, h₁.linkTarget?_eq]

/-- With `g` added first no link leads elsewhere than before. -/
theorem linkTarget?_eq' (i : NodeId) : w'.linkTarget? i = t.linkTarget? i := by
  obtain ⟨u, lay₁, ids, ids', h₁, h₂⟩ := h.other_way
  rw [h₂.linkTarget?_eq, h₁.linkTarget?_eq]

/-- Among the templates of one name the order of the files is not seen. -/
theorem templates_eq (hapart : w.KeepsApart f g) (name : String) :
    (w'.registrations.filter fun r => r.2.name == name) =
      w.registrations.filter fun r => r.2.name == name := by
  rw [h.built'.registrations_eq, h.built.registrations_eq]
  simp only [Ledger.registrations_concat, List.filter_append]
  rcases h.built.templates_eq_nil_or hapart name with hnil | hnil <;> simp [hnil]

/-- What the nodes from before had as targets are nodes from before. -/
theorem map_linkTarget? (hanchored : t.Anchored) (hi : w.isLive i = true) :
    t.linkTarget? (ρ i) = (t.linkTarget? i).map ρ := by
  by_cases hlive : t.isLive i = true
  · rw [h.eq_self hlive]
    refine (Option.map_congr fun j hj => ?_).trans Option.map_id' |>.symm
    obtain ⟨n, hn, htarget⟩ := Option.bind_eq_some_iff.mp hj
    exact h.eq_self (hanchored.target_live hn htarget)
  · have hnone : ∀ {j}, ¬ t.isLive j = true → t.linkTarget? j = none := fun hj => by
      rw [linkTarget?, Option.not_isSome_iff_eq_none.mp hj, Option.bind_none]
    rw [hnone hlive, hnone fun hρ => hlive ((h.isLive_iff hi).mp hρ), Option.map_none]

/-- A node is the renamed one, with its values and its target. -/
theorem node_eq (hapart : w.KeepsApart f g) (hanchored : t.Anchored) (hn : w.node? i = some n) :
    w'.node? (ρ i) = some (n.rename ρ) := by
  obtain ⟨a, ha⟩ := h.built.laid.exists_address hn
  have ha' := Layout.relabel_eq_some (ρ := ρ) ha
  obtain ⟨m, hm⟩ := h.built'.laid.exists_node ha'
  have hnode := h.built.node_eq (h.built.swap hapart h.built') h.options_eq hn
  change (w'.node? (ρ i)).map _ = _ at hnode
  rw [hm, Option.map_some, Option.some.injEq, Node.withoutValues, Node.withoutValues, Node.relabel,
    Node.mk.injEq] at hnode
  obtain ⟨hname, hreal, habove, hchildren, hfragments, -, -⟩ := hnode
  have hsummary : m.summary = n.summary := by
    obtain ⟨u, lay₁, ids, ids', h₁, h₂⟩ := h.one_way
    obtain ⟨u', lay₁', ids₁, ids₁', h₁', h₂'⟩ := h.other_way
    -- a node is summed up anew by both ways or by neither
    rcases h₁.summary_eq_or h₂ hn ha with ⟨hnew, hs⟩ | ⟨hold, n₀, hn₀, hs⟩ <;>
      rcases h₁'.summary_eq_or h₂' hm ha' with ⟨hnew', hs'⟩ | ⟨hold', m₀, hm₀, hs'⟩
    · rw [hs, hs', hfragments]
    · exact absurd hnew.symm hold'
    · exact absurd hnew'.symm hold
    · rw [h.eq_self (isLive_of_node? hn₀), hn₀, Option.some.injEq] at hm₀
      rw [hs, hs', hm₀]
  have htarget : m.target = n.target.map ρ := by
    have hbefore := h.map_linkTarget? hanchored (isLive_of_node? hn)
    rwa [← h.linkTarget?_eq', ← h.linkTarget?_eq, linkTarget?, linkTarget?, hn, hm,
      Option.bind_some, Option.bind_some] at hbefore
  rw [hm, Option.some.injEq]
  cases m
  rw [Node.rename, Node.relabel, Node.mk.injEq]
  exact ⟨hname, hreal, habove, hchildren, hfragments, hsummary, htarget⟩

/-- A binding that leads somewhere leads to a node from before. -/
theorem relabel_eq_self {b : Binding} (hb : t.Offers b) : b.relabel ρ = b := by
  cases b with
  | unbound => rfl
  | node i => rw [Binding.relabel, h.eq_self hb]
  | var owner name =>
    obtain ⟨n, -, hn, -⟩ := hb
    rw [Binding.relabel, h.eq_self (isLive_of_node? hn)]

/-- The record of a file from before is the renamed one. -/
theorem rename_eq_self (hanchored : t.Anchored) {k : List PathComponent} {r : FileRecord}
    (hr : t.files[k]? = some r) : r.rename ρ = r := by
  obtain ⟨e, -, -, hisOf⟩ := h.built_before.isOf hr
  have htop : ρ r.top = r.top :=
    h.eq_self (h.built_before.laid.isLive_iff.mpr ⟨_, hisOf.top_at⟩)
  have hnodes : r.nodes.map ρ = r.nodes :=
    (List.map_congr_left fun i hi => h.eq_self (h.built_before.listed_live hr hi)).trans
      (List.map_id _)
  have hreferences : (r.references.map fun x =>
      { x with
        scope := ρ x.scope
        binding := x.binding.relabel ρ }) = r.references := by
    refine (List.map_congr_left fun x hx => ?_).trans (List.map_id _)
    rw [h.eq_self (h.built_before.laid.isLive_iff.mpr (hisOf.exists_scope_at hx)),
      h.relabel_eq_self (offers_of_keepBinding (hanchored.keep_binding hr hx))]
    rfl
  rw [FileRecord.rename, htop, hnodes, hreferences]

/-- Both ways the files have the same records, the nodes renamed. -/
theorem files_eq (hapart : w.KeepsApart f g) (hanchored : t.Anchored) (k : List PathComponent) :
    w'.files[k]? = (w.files[k]?).map (FileRecord.rename ρ) := by
  obtain ⟨u, lay₁, ids, ids', h₁, h₂⟩ := h.one_way
  obtain ⟨u', lay₁', ids₁, ids₁', h₁', h₂'⟩ := h.other_way
  by_cases hk : k = f.components ∨ k = g.components
  -- the references of the new files are not bound yet
  · have hfiles := h.built.files_eq (h.built.swap hapart h.built') k
    change (w'.files[k]?).map _ = _ at hfiles
    have hrename : (w.files[k]?).map (FileRecord.relabel ρ) =
        (w.files[k]?).map (FileRecord.rename ρ) :=
      Option.map_congr fun r hr => FileRecord.relabel_eq_rename (h₁.unbound_of_or h₂ hk hr) ρ
    rw [← hrename, ← hfiles]
    exact (Option.map_congr fun r hr => FileRecord.rebound_eq_self fun x hx =>
      (h₁'.unbound_of_or h₂' hk.symm hr x hx).symm).trans Option.map_id' |>.symm
  -- the records of the other files are those from before
  · rw [h₁'.getElem?_files_of_and h₂' fun hk' => hk hk'.symm, h₁.getElem?_files_of_and h₂ hk]
    exact ((Option.map_congr fun r hr => h.rename_eq_self hanchored hr).trans Option.map_id').symm

/-- Both ways the index is the same, the nodes renamed. -/
theorem isRenaming (hapart : w.KeepsApart f g) (hanchored : t.Anchored) : IsRenaming ρ w w' :=
  have halike := h.built.alike (h.built.swap hapart h.built') h.options_eq
  { injective := halike.injective
    surjective := halike.surjective
    options_eq := h.options_eq
    node_eq := fun _ _ => h.node_eq hapart hanchored
    names_perm := halike.names_perm
    files_eq := h.files_eq hapart hanchored
    templates_eq := h.templates_eq hapart }

/-- Both ways the listing is the same. -/
theorem listing_eq (hapart : w.KeepsApart f g) : w'.listing = w.listing := by
  have hswapped := h.built.swap hapart h.built'
  rw [← h.built.registrations_eq] at hswapped
  have htemplates :
      templatesByName { w' with registrations := w.registrations } = w'.templatesByName := by
    refine gather_congr fun name => ?_
    rw [List.filter_map, List.filter_map]
    exact congrArg _ (h.templates_eq hapart name).symm
  rw [listing, listing, ← lines_registrations htemplates, h.built.lines_eq hswapped h.options_eq]

/-- After resolution references lead to the same places. -/
theorem referencesAgree (hapart : w.KeepsApart f g) :
    ReferencesAgree ρ w.resolve w'.resolve := by
  have hswapped := h.built.swap hapart h.built'
  have hagree := h.built.resolve.referencesAgree hswapped.resolve
    (fun r hr => h.built.mentionMeans_resolve hr) fun r hr => hswapped.mentionMeans_resolve hr
  rw [h.built'.resolve_registrations hswapped] at hagree
  refine fun path => (hagree path).imp fun r r' hr => ?_
  exact ⟨hr.1, hr.2.1, hr.2.2.1, hr.2.2.2.of_registrations⟩

end

end AddedBothWays

/-- Two files that are not there yet can be added both ways. -/
theorem Built.exists_addedBothWays (h : t.Built L lay) (hf : t.hasFile f = false)
    (hg : t.hasFile g = false) (hne : f.components ≠ g.components) (c d : Document)
    (hapart : ((t.add f c).add g d).KeepsApart f g) :
    ∃ lay' ρ, t.AddedBothWays L lay f c g d ((t.add f c).add g d) ((t.add g d).add f c) lay' ρ := by
  have hfresh : ∀ {u : Index} {lay' : Layout} {ids : List NodeId} {f g : SourcePath}
      {c : Document}, t.Added L lay f c u lay' ids → g.components ≠ f.components →
        t.hasFile g = false → u.hasFile g = false := fun h hne hg => by
    rw [hasFile, file?, h.getElem?_files hne]
    exact hg
  obtain ⟨lay₁, ids, h₁⟩ := h.exists_added hf c
  obtain ⟨lay', ids', h₂⟩ := h₁.built_add.exists_added (hfresh h₁ hne.symm hg) d
  obtain ⟨lay₁', ids₁, h₁'⟩ := h.exists_added hg d
  obtain ⟨lay'', ids₁', h₂'⟩ := h₁'.built_add.exists_added (hfresh h₁' hne hf) c
  obtain ⟨ρ, rfl⟩ := h₂.built_add.exists_relabel
    (h₂.built_add.swap hapart h₂'.built_add)
  exact ⟨lay', ρ, ⟨_, lay₁, ids, ids', h₁, h₂⟩, ⟨_, lay₁', ids₁, ids₁', h₁', h₂'⟩⟩

/-- After any run two new files may be added in either order, if after both there is no node with
fragments of both and no template name that both register: the listing is the same, the indexes are
the same up to the numbers of the nodes, and after resolution the references of every file lead to
the same places. -/
theorem add_add_comm_run (options : IndexOptions) (ops : List Operation) (f g : SourcePath)
    (c d : Document) (hf : (run options ops).hasFile f = false)
    (hg : (run options ops).hasFile g = false) (hne : f.components ≠ g.components)
    (hapart : (((run options ops).add f c).add g d).KeepsApart f g) :
    (((run options ops).add g d).add f c).listing =
        (((run options ops).add f c).add g d).listing ∧
      ∃ ρ, IsRenaming ρ (((run options ops).add f c).add g d)
          (((run options ops).add g d).add f c) ∧
        ReferencesAgree ρ (((run options ops).add f c).add g d).resolve
          (((run options ops).add g d).add f c).resolve := by
  obtain ⟨lay, h, -⟩ := exists_built_run options ops
  obtain ⟨lay', ρ, hboth⟩ := h.exists_addedBothWays hf hg hne c d hapart
  exact ⟨hboth.listing_eq hapart, ρ, hboth.isRenaming hapart (anchored_run options ops),
    hboth.referencesAgree hapart⟩

/-- A file of a package that registers a template and declares the object `server`, with a field
that names the object. -/
def serverDocument (package template : String) : Document where
  package := some ⟨package, .start⟩
  definitions := [.template template [] [] {},
    .object (.reference "server" .start) [.field ⟨"peer", .reference "server" .start, .start⟩] {}]
  comments := []
  pragmas := []

/-- The two files share the prefix `app` of their packages with a file that is there before, and the
first also the node `app.web`; both declare an object `server`. -/
theorem add_add_comm_run_of_neighbours :
    let ops := [.add (.ofText "base.pcl") appDocument, .resolve, .reevaluate {}]
    let f := SourcePath.ofText "a.pcl"
    let g := SourcePath.ofText "b.pcl"
    let c := serverDocument "app.web" "pool"
    let d := serverDocument "app.db" "replica"
    (run {} ops).hasFile f = false ∧ (run {} ops).hasFile g = false ∧
      f.components ≠ g.components ∧ (((run {} ops).add f c).add g d).KeepsApart f g ∧
      (((run {} ops).add g d).add f c).listing = (((run {} ops).add f c).add g d).listing ∧
      ∃ ρ, IsRenaming ρ (((run {} ops).add f c).add g d) (((run {} ops).add g d).add f c) ∧
        ReferencesAgree ρ (((run {} ops).add f c).add g d).resolve
          (((run {} ops).add g d).add f c).resolve := by
  intro ops f g c d
  have hf : (run {} ops).hasFile f = false := by decide
  have hg : (run {} ops).hasFile g = false := by decide
  have hne : f.components ≠ g.components := by decide
  have hapart : (((run {} ops).add f c).add g d).KeepsApart f g :=
    ⟨by decide +kernel, by decide +kernel⟩
  exact ⟨hf, hg, hne, hapart, add_add_comm_run {} ops f g c d hf hg hne hapart⟩

end Index

end SemanticIndex
