import SemanticIndex.Proofs.Contents

/-!
# Pruning

A node that is no root is loose when there is no deposit at its address and no node right below it.
Pruning takes loose nodes away and nothing else (`Index.Pruned`). Going up from a node it leaves no
looser node than there was, and the node itself is not loose any more; so once all nodes that can be
loose have been pruned, in whatever order, none is (`Index.Holds.exists_foldl_prune`), and then
every node lies at or above a deposit (`Index.Holds.exists_deposit_of_not_loose`).
-/

namespace SemanticIndex

/-- Nothing keeps the node at `a`, and it is no root. -/
structure Layout.Loose (lay : Layout) (ds : List Deposit) (a : Address) : Prop where
  taken : ∃ id, lay a = some id
  not_root : a.trail ≠ []
  no_child : ∀ x, lay (a.child x) = none
  no_deposit : ∀ d ∈ ds, d.1 ≠ a

/-- What can be loose once a node at `a` has been taken away was loose before or is right above. -/
theorem Layout.Loose.of_set {lay : Layout} {ds : List Deposit} {a b : Address}
    (h : (lay.set a none).Loose ds b) :
    b ≠ a ∧ (lay.Loose ds b ∨ ∃ x, a = b.child x) := by
  obtain ⟨id, hid⟩ := h.taken
  obtain ⟨hba, hid⟩ := Layout.ne_and_eq_of_set_none hid
  refine ⟨hba, ?_⟩
  -- taking the node away can only loosen its parent
  by_cases hchild : ∃ x, a = b.child x
  · exact Or.inr hchild
  · left
    refine ⟨⟨id, hid⟩, h.not_root, fun x => ?_, h.no_deposit⟩
    have hx := h.no_child x
    rwa [Layout.set_of_ne fun heq => hchild ⟨x, heq.symm⟩] at hx

/-- Every node but the common root lies at or above a deposit. -/
def Layout.Covered (lay : Layout) (ds : List Deposit) : Prop :=
  ∀ a id, lay a = some id → a = .origin ∨ ∃ d ∈ ds, a ≤ d.1

namespace Index

/-- `u`, laid out as `lay'`, is `t` without some of its nodes. -/
structure Pruned (t : Index) (lay : Layout) (u : Index) (lay' : Layout) : Prop
    extends SameFiles t u where
  nextId_eq : u.nextId = t.nextId
  only : ∀ {a : Address} {id : NodeId}, lay' a = some id → lay a = some id
  node : ∀ {id : NodeId} {m : Node}, u.node? id = some m →
    ∃ n, t.node? id = some n ∧ m = { n with children := m.children }
  names : ∀ s, u.names.get s = (t.names.get s).filter u.isLive

section

variable {t u w : Index} {lay lay' lay'' : Layout} {ds : List Deposit}

/-- A named index lists only nodes that it has. -/
theorem Named.isLive_of_mem (h : t.Named) {s : String} {j : NodeId} (hj : j ∈ t.names.get s) :
    t.isLive j = true := by
  obtain ⟨n, hn, -⟩ := (h.mem_iff s j).mp hj
  exact isLive_of_node? hn

/-- Only live nodes are listed under names. -/
theorem Named.filter_isLive (h : t.Named) (s : String) :
    (t.names.get s).filter t.isLive = t.names.get s :=
  List.filter_eq_self.mpr fun _ hj => h.isLive_of_mem hj

/-- Pruning nothing changes nothing. -/
theorem Holds.pruned_self (h : t.Holds lay ds []) : t.Pruned lay t lay :=
  { SameFiles.rfl with
    nextId_eq := rfl
    only := id
    node := fun hm => ⟨_, hm, rfl⟩
    names := fun s => (h.named.filter_isLive s).symm }

theorem Pruned.trans (h : t.Pruned lay u lay') (h' : u.Pruned lay' w lay'') :
    t.Pruned lay w lay'' := by
  refine { h.toSameFiles.trans h'.toSameFiles with
           nextId_eq := h'.nextId_eq.trans h.nextId_eq, only := fun ha => h.only (h'.only ha),
           node := fun hk => ?_, names := fun s => ?_ }
  · obtain ⟨m, hm, hkeq⟩ := h'.node hk
    obtain ⟨n, hn, hmeq⟩ := h.node hm
    rw [hmeq] at hkeq
    exact ⟨n, hn, hkeq⟩
  · have hlive : ∀ j, w.isLive j = true → u.isLive j = true := by
      intro j hj
      obtain ⟨k, hk⟩ := Option.isSome_iff_exists.mp hj
      obtain ⟨m, hm, -⟩ := h'.node hk
      exact isLive_of_node? hm
    rw [h'.names, h.names, List.filter_filter]
    refine List.filter_congr fun j _ => ?_
    rw [Bool.eq_iff_iff, Bool.and_eq_true]
    exact ⟨fun hj => hj.1, fun hj => ⟨hj, hlive j hj⟩⟩

/-- What lies at or above a deposit stays where it stands. -/
theorem Pruned.keep {stale : List NodeId} (h : t.Pruned lay u lay') (hu : u.Holds lay' ds stale)
    {a : Address} {id : NodeId} {d : Deposit} (ha : lay a = some id) (hd : d ∈ ds)
    (hle : a ≤ d.1) : lay' a = some id := by
  obtain ⟨j, hj⟩ := hu.placed d hd
  obtain ⟨i, hi⟩ := hu.laid.closed_of_le hj hle
  rw [hi, ← h.only hi, ha]

/-- Taking a node from the name table takes it from every list. -/
theorem Named.get_removeNode (h : t.Named) {id : NodeId} {n : Node} (hn : t.node? id = some n)
    (s : String) : (t.names.removeNode id n).get s = (t.names.get s).filter (· != id) := by
  -- under other names the node is not listed
  have hnot : n.name ≠ s → n.realName ≠ s → (t.names.get s).filter (· != id) = t.names.get s := by
    intro hname hreal
    refine List.filter_eq_self.mpr fun j hj => ?_
    rw [bne_iff_ne]
    rintro rfl
    obtain ⟨m, hm, hs⟩ := (h.mem_iff s j).mp hj
    rw [hn, Option.some.injEq] at hm
    subst hm
    exact hs.elim hname hreal
  rw [NameTable.removeNode, NameTable.get_remove, NameTable.get_remove, NameTable.get_remove]
  by_cases hreal : s = n.realName
  · subst hreal
    rw [if_pos rfl]
    split
    · rename_i hname
      rw [hname, List.filter_filter]
      simp
    · rfl
  · rw [if_neg hreal]
    split
    · rename_i hname
      rw [hname]
    · rename_i hname
      exact (hnot (Ne.symm hname) (Ne.symm hreal)).symm

section

variable {a : Address} {id : NodeId} {n : Node}

/-- A node is bare exactly if it has no child and no fragment. -/
theorem Holds.isBare_iff {stale : List NodeId} (h : t.Holds lay ds stale) (ha : lay a = some id)
    (hn : t.node? id = some n) :
    n.isBare = true ↔ (∀ x, lay (a.child x) = none) ∧ ∀ d ∈ ds, d.1 ≠ a := by
  have hchildren : n.children.isEmpty = true ↔ ∀ x, lay (a.child x) = none := by
    simp only [← h.laid.child_eq ha hn]
    rw [Std.ExtTreeMap.isEmpty_iff]
    constructor
    · intro hempty x
      rw [hempty, Std.ExtTreeMap.getElem?_empty]
    · intro hnone
      refine Std.ExtTreeMap.ext_getElem? fun x => ?_
      rw [hnone, Std.ExtTreeMap.getElem?_empty]
  rw [Node.isBare, Bool.and_eq_true, hchildren, List.isEmpty_iff, h.fragments_eq_nil_iff ha hn,
    and_comm]

/-- A node that nothing keeps is taken away. -/
theorem Holds.erase (h : t.Holds lay ds []) (ha : lay a = some id) (hn : t.node? id = some n)
    (hroot : a ≠ .origin) (hbare : n.isBare) (hsame : t.SameFiles u) (hnext : u.nextId = t.nextId)
    (hnamed : u.Named) (hnames : u.names = t.names.removeNode id n) (hgone : u.node? id = none)
    (hold : ∀ b i m, i ≠ id → lay b = some i → t.node? i = some m → ∃ m', u.node? i = some m' ∧
      m' = { m with children := m'.children } ∧
      ∀ x : String, m'.children[x]? = if b.child x = a then none else m.children[x]?)
    (honly : ∀ i m, u.node? i = some m → t.isLive i) :
    u.Holds (lay.set a none) ds [] ∧ t.Pruned lay u (lay.set a none) := by
  obtain ⟨hleaf, hfree⟩ := (h.isBare_iff ha hn).mp hbare
  -- a node that is left is what it was but for its children
  have hleft : ∀ {i m'}, u.node? i = some m' →
      i ≠ id ∧ ∃ m, t.node? i = some m ∧ m' = { m with children := m'.children } := by
    intro i m' hm'
    have hne : i ≠ id := by
      rintro rfl
      rw [hgone] at hm'
      cases hm'
    obtain ⟨b, hb⟩ := h.laid.isLive_iff.mp (honly i m' hm')
    obtain ⟨m, hm⟩ := h.laid.exists_node hb
    obtain ⟨k, hk, hkeq, -⟩ := hold b i m hne hb hm
    rw [hk, Option.some.injEq] at hm'
    exact ⟨hne, m, hm, hm' ▸ hkeq⟩
  have hother : ∀ {b i}, lay.set a none b = some i → lay b = some i :=
    fun hb => (Layout.ne_and_eq_of_set_none hb).2
  refine ⟨{ laid := ?_, named := hnamed, fragments_eq := ?_, placed := ?_, current := ?_ },
    { hsame with nextId_eq := hnext, only := hother, node := fun hm => (hleft hm).2, names := ?_ }⟩
  -- the shape is that of a layout with one address cleared
  · refine h.laid.erase ha hroot hleaf hnext hgone ?_ honly
    intro b i m hne hb hm
    obtain ⟨m', hm', hmeq, hchildren⟩ := hold b i m hne hb hm
    exact ⟨m', hm', by rw [hmeq], by rw [hmeq], hchildren⟩
  · intro b i m' hb hm'
    obtain ⟨-, m, hm, hmeq⟩ := hleft hm'
    rw [hmeq]
    show m.fragments = _
    exact h.fragments_eq (hother hb) hm
  · intro d hd
    obtain ⟨i, hi⟩ := h.placed d hd
    exact ⟨i, by rw [Layout.set_of_ne (hfree d hd), hi]⟩
  · intro i m' hm' _
    obtain ⟨-, m, hm, hmeq⟩ := hleft hm'
    rw [hsame.options_eq, hmeq]
    exact (h.current hm List.not_mem_nil).congr rfl rfl rfl rfl fun ht => ht
  -- all listed nodes but the one that went are still there
  · intro s
    rw [hnames, h.named.get_removeNode hn]
    refine List.filter_congr fun j hj => ?_
    rw [Bool.eq_iff_iff, bne_iff_ne, isLive, Option.isSome_iff_exists]
    constructor
    · intro hne
      obtain ⟨m, hm, -⟩ := (h.named.mem_iff s j).mp hj
      obtain ⟨b, hb⟩ := h.laid.exists_address hm
      obtain ⟨m', hm', -⟩ := hold b j m hne hb hm
      exact ⟨m', hm'⟩
    · rintro ⟨m', hm'⟩
      exact (hleft hm').1

/-- A loose node is taken away. -/
theorem Holds.dropIfBare_of_loose (h : t.Holds lay ds []) (ha : lay a = some id)
    (hloose : lay.Loose ds a) :
    (t.dropIfBare id).Holds (lay.set a none) ds [] ∧
      t.Pruned lay (t.dropIfBare id) (lay.set a none) := by
  obtain ⟨n, hn⟩ := h.laid.exists_node ha
  -- a loose node is no root, so it has a parent
  obtain ⟨b, hab⟩ := a.eq_root_or_child.resolve_left hloose.not_root
  rw [← h.laid.name_eq ha hn] at hab
  obtain ⟨p, hp⟩ := h.laid.closed (hab ▸ ha)
  have hparent : n.parent = some p := (h.laid.parent_child (hab ▸ ha) hn).trans hp
  have hbare := (h.isBare_iff ha hn).mpr ⟨hloose.no_child, hloose.no_deposit⟩
  have hdrop : t.dropIfBare id = (t.dropNode id n).modifyNode p fun q =>
      { q with children := q.children.erase n.name } := by
    rw [dropIfBare, hn]
    simp only [hparent, hbare, if_true]
  -- the node is gone, and its parent has one child less
  have hnode : ∀ i, (t.dropIfBare id).node? i = if i = id then none else
      (t.node? i).map fun m =>
        if i = p then { m with children := m.children.erase n.name } else m := by
    intro i
    rw [hdrop, node?_modifyNode, node?_dropNode]
    by_cases hi : i = id
    · rw [if_pos hi, if_pos hi, Option.map_none, ite_self]
    · rw [if_neg hi, if_neg hi]
      by_cases hip : i = p <;> simp [hip]
  refine h.erase ha hn ?_ hbare ?_ ?_ ?_ ?_ ?_ ?_ ?_
  · rintro rfl
    exact hloose.not_root rfl
  · rw [hdrop]
    exact ⟨rfl, rfl, rfl, Nat.le_refl _⟩
  · rw [hdrop]
    rfl
  · rw [hdrop]
    exact (h.named.dropNode hn).modifyNode p fun _ => ⟨rfl, rfl⟩
  · rw [hdrop]
    rfl
  · rw [hnode, if_pos rfl]
  · intro c i m hi hc hm
    refine ⟨_, by rw [hnode, if_neg hi, hm, Option.map_some], ?_, fun x => ?_⟩
    · split <;> rfl
    · by_cases hip : i = p
      · -- the parent loses the child
        subst hip
        obtain rfl := h.laid.injective hc hp
        rw [if_pos rfl, Std.ExtTreeMap.getElem?_erase, hab]
        simp [eq_comm (a := x)]
      · rw [if_neg hip, if_neg]
        rintro hcx
        obtain ⟨rfl, -⟩ := Address.child_inj.mp (hcx.trans hab)
        rw [hc, Option.some.injEq] at hp
        exact hip hp
  · intro i m hm
    rw [hnode] at hm
    split at hm
    · cases hm
    · obtain ⟨m', hm', -⟩ := Option.map_eq_some_iff.mp hm
      exact isLive_of_node? hm'

/-- A node that is not loose stays. -/
theorem Holds.dropIfBare_of_not_loose (h : t.Holds lay ds []) (ha : lay a = some id)
    (hloose : ¬ lay.Loose ds a) : t.dropIfBare id = t := by
  obtain ⟨n, hn⟩ := h.laid.exists_node ha
  rw [dropIfBare, hn]
  cases hp : n.parent with
  | none => simp only [hp]
  | some p =>
    have hbare : n.isBare = false := by
      rw [Bool.eq_false_iff]
      intro hbare
      obtain ⟨hleaf, hfree⟩ := (h.isBare_iff ha hn).mp hbare
      refine hloose ⟨⟨id, ha⟩, fun hroot => ?_, hleaf, hfree⟩
      rw [h.laid.parent_root ha hroot hn] at hp
      cases hp
    simp only [hp, hbare]
    rfl

end

/-- Going up from a node leaves no looser node than there was, and the node is not loose. -/
theorem Holds.exists_foldl_dropIfBare (h : t.Holds lay ds []) {a : Address} {id : NodeId}
    (ha : lay a = some id) :
    ∃ lay', ((id :: lay.above a).foldl dropIfBare t).Holds lay' ds [] ∧
      t.Pruned lay ((id :: lay.above a).foldl dropIfBare t) lay' ∧
      ∀ b, lay'.Loose ds b → b ≠ a ∧ lay.Loose ds b := by
  -- the induction goes up: what is above the node is pruned after it, in the index without it
  induction a generalizing t lay id with
  | root home =>
    have hroot : ¬ lay.Loose ds ⟨home, []⟩ := fun hloose => hloose.not_root rfl
    rw [Layout.above_of_root rfl, List.foldl_cons, List.foldl_nil,
      h.dropIfBare_of_not_loose ha hroot]
    refine ⟨lay, h, h.pruned_self, fun b hb => ⟨?_, hb⟩⟩
    rintro rfl
    exact hroot hb
  | child a x ih =>
    obtain ⟨p, hp⟩ := h.laid.closed ha
    rw [Layout.above_child, hp, List.foldl_cons]
    by_cases hloose : lay.Loose ds (a.child x)
    · obtain ⟨hholds, hpruned⟩ := h.dropIfBare_of_loose ha hloose
      have hp' : lay.set (a.child x) none a = some p := by
        rw [Layout.set_of_ne (Address.ne_child_self a x), hp]
      -- the nodes above stand where they stood
      have habove : (lay.set (a.child x) none).above a = lay.above a := by
        refine Layout.above_congr fun b hlt => Layout.set_of_ne ?_ none
        rintro rfl
        exact absurd hlt (Address.lt_child a x).asymm
      obtain ⟨lay', hholds', hpruned', hleft⟩ := ih hholds hp'
      rw [habove] at hholds' hpruned'
      refine ⟨lay', hholds', hpruned.trans hpruned', fun b hb => ?_⟩
      obtain ⟨hbp, hb⟩ := hleft b hb
      obtain ⟨hba, hb | ⟨y, hy⟩⟩ := hb.of_set
      · exact ⟨hba, hb⟩
      · exact absurd (Address.child_inj.mp hy).1.symm hbp
    · rw [h.dropIfBare_of_not_loose ha hloose]
      obtain ⟨lay', hholds', hpruned', hleft⟩ := ih h hp
      refine ⟨lay', hholds', hpruned', fun b hb => ⟨?_, (hleft b hb).2⟩⟩
      rintro rfl
      exact hloose (hleft _ hb).2

/-- Pruning a node that is gone changes nothing; pruning one that is there makes it firm. -/
theorem Holds.exists_prune (h : t.Holds lay ds []) (id : NodeId) :
    ∃ lay', (t.prune id).Holds lay' ds [] ∧ t.Pruned lay (t.prune id) lay' ∧
      ∀ b, lay'.Loose ds b → lay b ≠ some id ∧ lay.Loose ds b := by
  cases hn : t.node? id with
  | none =>
    rw [prune, ancestors, hn]
    refine ⟨lay, h, h.pruned_self, fun b hb => ⟨fun hat => ?_, hb⟩⟩
    obtain ⟨n, hn'⟩ := h.laid.exists_node hat
    rw [hn] at hn'
    cases hn'
  | some n =>
    obtain ⟨a, ha⟩ := h.laid.exists_address hn
    rw [prune, h.laid.ancestors_eq ha]
    obtain ⟨lay', hholds, hpruned, hleft⟩ := h.exists_foldl_dropIfBare ha
    refine ⟨lay', hholds, hpruned, fun b hb => ⟨fun hat => ?_, (hleft b hb).2⟩⟩
    exact (hleft b hb).1 (h.laid.injective hat ha)

/-- Pruning a list of nodes makes all of them firm, in whatever order it goes through them. -/
theorem Holds.exists_foldl_prune (h : t.Holds lay ds []) (ids : List NodeId) :
    ∃ lay', (ids.foldl Index.prune t).Holds lay' ds [] ∧
      t.Pruned lay (ids.foldl Index.prune t) lay' ∧
      ∀ b, lay'.Loose ds b → lay.Loose ds b ∧ ∀ id ∈ ids, lay b ≠ some id := by
  induction ids generalizing t lay with
  | nil => exact ⟨lay, h, h.pruned_self, fun b hb => ⟨hb, fun _ hid => nomatch hid⟩⟩
  | cons id ids ih =>
    obtain ⟨lay₁, hholds₁, hpruned₁, hleft₁⟩ := h.exists_prune id
    obtain ⟨lay₂, hholds₂, hpruned₂, hleft₂⟩ := ih hholds₁
    refine ⟨lay₂, hholds₂, hpruned₁.trans hpruned₂, fun b hb => ?_⟩
    obtain ⟨hloose, hids⟩ := hleft₂ b hb
    obtain ⟨hid, hloose'⟩ := hleft₁ b hloose
    refine ⟨hloose', fun j hj => ?_⟩
    rcases List.mem_cons.mp hj with rfl | hj
    · exact hid
    · -- a loose node still stands where it stood
      obtain ⟨i, hi⟩ := hloose.taken
      rw [hpruned₁.only hi, ← hi]
      exact hids j hj

/-- Where no node is loose, there is a deposit at or below every node that is no root. -/
theorem Holds.exists_deposit_of_not_loose {stale : List NodeId} (h : t.Holds lay ds stale)
    (hfirm : ∀ a, ¬ lay.Loose ds a) {a : Address} (htaken : ∃ id, lay a = some id)
    (hroot : a.trail ≠ []) : ∃ d ∈ ds, a ≤ d.1 := by
  -- by induction on how much further down there can be nodes
  obtain ⟨k, hk⟩ : ∃ k, t.nextId ≤ a.trail.length + k := ⟨t.nextId, Nat.le_add_left _ _⟩
  induction k generalizing a with
  | zero =>
    obtain ⟨id, ha⟩ := htaken
    exact absurd (h.laid.length_trail_lt ha) (Nat.not_lt_of_le hk)
  | succ k ih =>
    obtain ⟨id, ha⟩ := htaken
    by_cases hchild : ∃ x j, lay (a.child x) = some j
    · obtain ⟨x, hx⟩ := hchild
      obtain ⟨d, hd, hle⟩ := ih hx (by simp)
        (by rwa [Address.trail_child, List.length_cons, Nat.succ_add_eq_add_succ])
      exact ⟨d, hd, (Address.le_child a x).trans hle⟩
    -- without a child and without a deposit the node would be loose
    · by_contra hnone
      refine hfirm a ⟨⟨id, ha⟩, hroot, fun x => ?_, fun d hd hda => hnone ⟨d, hd, hda.ge⟩⟩
      rw [Option.eq_none_iff_forall_ne_some]
      exact fun j hj => hchild ⟨x, j, hj⟩

end

end Index

end SemanticIndex
