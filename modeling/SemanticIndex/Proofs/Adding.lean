import Mathlib.Data.List.Forall2
import SemanticIndex.Proofs.Outlines

/-!
# New Nodes and New Fragments

What adding a file does to the nodes. Creating missing nodes and putting fragments on nodes only
extend the index: every node stays where it stands and keeps its fragments in front of new ones
(`Index.Extended`), and the layout grows by the addresses that the file comes to
(`Layout.Extends`).
-/

namespace SemanticIndex

/-- `lay'` has all nodes of `lay` where they are, and new ones only at the addresses `as`. -/
structure Layout.Extends (lay lay' : Layout) (as : List Address) : Prop where
  keep : ∀ {a : Address} {id : NodeId}, lay a = some id → lay' a = some id
  only : ∀ {a : Address} {id : NodeId}, lay' a = some id → lay a = some id ∨ a ∈ as

namespace Layout.Extends

variable {lay lay' lay'' : Layout} {as as' : List Address}

theorem refl (lay : Layout) (as : List Address) : lay.Extends lay as := ⟨id, Or.inl⟩

theorem trans (h : lay.Extends lay' as) (h' : lay'.Extends lay'' as') {bs : List Address}
    (has : as ⊆ bs) (has' : as' ⊆ bs) : lay.Extends lay'' bs where
  keep ha := h'.keep (h.keep ha)
  only ha := by
    rcases h'.only ha with ha | ha
    · exact (h.only ha).imp_right fun hmem => has hmem
    · exact Or.inr (has' ha)

/-- A new node at a free address. -/
theorem set {c : Address} (hfree : lay c = none) (id : NodeId) :
    lay.Extends (lay.set c (some id)) [c] where
  keep ha := set_some_of_free hfree ha
  only {a i} ha := by
    by_cases hac : a = c
    · exact Or.inr (List.mem_singleton.mpr hac)
    · rw [set_of_ne hac] at ha
      exact Or.inl ha

end Layout.Extends

/-- The node `ids[i]` stands at the address `as[i]`. -/
abbrev Layout.Lists (lay : Layout) (as : List Address) (ids : List NodeId) : Prop :=
  List.Forall₂ (fun a id => lay a = some id) as ids

namespace Layout.Lists

variable {lay lay' : Layout} {as as' : List Address} {ids ids' : List NodeId} {a : Address}
  {id : NodeId}

theorem keep (h : lay.Lists as ids)
    (hkeep : ∀ {a : Address} {id : NodeId}, lay a = some id → lay' a = some id) :
    lay'.Lists as ids :=
  h.imp fun _ _ ha => hkeep ha

/-- Each address listed has one of the nodes. -/
theorem exists_of_mem (h : lay.Lists as ids) (ha : a ∈ as) : ∃ id ∈ ids, lay a = some id := by
  induction h with
  | nil => cases ha
  | cons hfirst _ ih =>
    rcases List.mem_cons.mp ha with rfl | ha
    · exact ⟨_, List.mem_cons_self, hfirst⟩
    · obtain ⟨id, hid, hat⟩ := ih ha
      exact ⟨id, List.mem_cons_of_mem _ hid, hat⟩

/-- Each node listed stands at one of the addresses. -/
theorem exists_of_mem_ids (h : lay.Lists as ids) (hid : id ∈ ids) : ∃ a ∈ as, lay a = some id := by
  induction h with
  | nil => cases hid
  | cons hfirst _ ih =>
    rcases List.mem_cons.mp hid with rfl | hid
    · exact ⟨_, List.mem_cons_self, hfirst⟩
    · obtain ⟨a, ha, hat⟩ := ih hid
      exact ⟨a, List.mem_cons_of_mem _ ha, hat⟩

/-- Where each node stands at one address, a node is listed if its address is. -/
theorem mem_iff (h : lay.Lists as ids)
    (hinj : ∀ {a b : Address} {id : NodeId}, lay a = some id → lay b = some id → a = b)
    (ha : lay a = some id) : id ∈ ids ↔ a ∈ as := by
  constructor
  · intro hid
    obtain ⟨b, hb, hat⟩ := h.exists_of_mem_ids hid
    rwa [hinj ha hat]
  · intro hmem
    obtain ⟨j, hj, hat⟩ := h.exists_of_mem hmem
    rw [ha, Option.some.injEq] at hat
    rwa [hat]

/-- Noting further nodes and noting their addresses go hand in hand. -/
theorem touch (h : lay.Lists as ids) (h' : lay.Lists as' ids')
    (hinj : ∀ {a b : Address} {id : NodeId}, lay a = some id → lay b = some id → a = b) :
    lay.Lists (Address.touch as as') (Index.touch ids ids') := by
  induction h' generalizing as ids with
  | nil => exact h
  | @cons b j bs js hfirst _ ih =>
    have hcons : Address.touch as (b :: bs) =
        Address.touch (if b ∈ as then as else as ++ [b]) bs := rfl
    have hcons' : Index.touch ids (j :: js) =
        Index.touch (if j ∈ ids then ids else ids ++ [j]) js := rfl
    rw [hcons, hcons']
    apply ih
    -- the node is noted already exactly if its address is
    by_cases hb : b ∈ as
    · rwa [if_pos hb, if_pos ((h.mem_iff hinj hfirst).mpr hb)]
    · rw [if_neg hb, if_neg fun hj => hb ((h.mem_iff hinj hfirst).mp hj)]
      exact List.rel_append h (.cons hfirst .nil)

/-- Where nodes are listed by their addresses, the addresses say which they are. -/
theorem unique (h : lay.Lists as ids) (h' : lay.Lists as ids') : ids = ids' :=
  List.right_unique_forall₂' (fun _ _ _ ha ha' => Option.some.inj (ha.symm.trans ha')) h h'

/-- The last node on a way down stands at its end. -/
theorem getLast?_steps {top : NodeId} {names : List String} (hlists : lay.Lists (a.steps names) ids)
    (ha : lay a = some top) : lay (a.down names) = some (ids.getLast?.getD top) := by
  induction names generalizing a top ids with
  | nil =>
    cases hlists
    exact ha
  | cons x names ih =>
    obtain _ | ⟨hfirst, hrest⟩ := hlists
    rename_i j js
    rw [Address.down_cons, ih hrest hfirst, List.getLast?_cons]
    rfl

end Layout.Lists

namespace Index

/-- Every node of `t` is still there in `u`, with no less under it and on it, new nodes have new
numbers and no target, and every name lists the nodes that it listed first. -/
structure Extended (t u : Index) : Prop extends SameFiles t u where
  node : ∀ {id : NodeId} {n : Node}, t.node? id = some n → ∃ m, u.node? id = some m ∧
    m = { n with children := m.children, fragments := m.fragments }
  target : ∀ {id : NodeId} {m : Node}, u.node? id = some m → m.target ≠ none →
    ∃ n, t.node? id = some n ∧ n.target = m.target
  fresh : ∀ {id : NodeId} {m : Node}, u.node? id = some m → t.isLive id = true ∨ t.nextId ≤ id
  names : ∀ s, t.names.get s <+: u.names.get s

namespace Extended

variable {t u w : Index}

protected theorem rfl : t.Extended t :=
  ⟨.rfl, fun hn => ⟨_, hn, rfl⟩, fun hm _ => ⟨_, hm, rfl⟩, fun hm => .inl (isLive_of_node? hm),
    fun _ => List.prefix_rfl⟩

theorem trans (h : t.Extended u) (h' : u.Extended w) : t.Extended w := by
  refine ⟨h.toSameFiles.trans h'.toSameFiles, fun hn => ?_, fun hk htarget => ?_, fun hk => ?_,
    fun s => (h.names s).trans (h'.names s)⟩
  · obtain ⟨m, hm, hmeq⟩ := h.node hn
    obtain ⟨k, hk, hkeq⟩ := h'.node hm
    rw [hmeq] at hkeq
    exact ⟨k, hk, hkeq⟩
  · obtain ⟨m, hm, hmk⟩ := h'.target hk htarget
    obtain ⟨n, hn, hnm⟩ := h.target hm (hmk ▸ htarget)
    exact ⟨n, hn, hnm.trans hmk⟩
  · rcases h'.fresh hk with hlive | hnew
    · obtain ⟨m, hm⟩ := Option.isSome_iff_exists.mp hlive
      exact h.fresh hm
    · exact .inr (Nat.le_trans h.next_le hnew)

end Extended

/-- Names gain nodes at the end. -/
theorem prefix_get_addNode (names : NameTable) (id : NodeId) (n : Node) (s : String) :
    names.get s <+: (names.addNode id n).get s := by
  -- a node is listed under a name by putting it last
  have hadd : ∀ (names : NameTable) (name : String), names.get s <+: (names.add name id).get s := by
    intro names name
    rw [NameTable.get_add]
    split
    · rename_i h
      rw [h.1]
      exact List.prefix_append _ _
    · exact List.prefix_rfl
  exact (hadd names n.name).trans (hadd _ n.realName)

/-- A node without a target under the next number extends the index. -/
theorem extended_addNode {t : Index} {lay : Layout} (h : t.Laid lay) {n : Node}
    (htarget : n.target = none) : t.Extended (t.addNode n) := by
  refine ⟨⟨rfl, rfl, rfl, Nat.le_succ _⟩, fun {id m} hm => ⟨m, ?_, rfl⟩, fun {id m} hm hne => ?_,
    fun {id m} hm => ?_, prefix_get_addNode _ _ _⟩
  · rw [node?_addNode, if_neg, hm]
    rintro rfl
    rw [h.node?_next] at hm
    cases hm
  · rw [node?_addNode] at hm
    split at hm
    · rw [← Option.some.inj hm] at hne
      exact absurd htarget hne
    · exact ⟨m, hm, rfl⟩
  · rw [node?_addNode] at hm
    split at hm
    · rename_i hid
      exact .inr (Nat.le_of_eq hid.symm)
    · exact .inl (isLive_of_node? hm)

/-- Changing the children and the fragments of a node extends the index. -/
theorem extended_modifyNode (t : Index) (id : NodeId) {f : Node → Node}
    (hf : ∀ n, f n = { n with children := (f n).children, fragments := (f n).fragments }) :
    t.Extended (t.modifyNode id f) := by
  have hold : ∀ {i m}, (t.modifyNode id f).node? i = some m →
      ∃ n, t.node? i = some n ∧ n.target = m.target := by
    intro i m hm
    rw [node?_modifyNode] at hm
    split at hm
    · obtain ⟨n, hn, rfl⟩ := Option.map_eq_some_iff.mp hm
      exact ⟨n, hn, by rw [hf n]⟩
    · exact ⟨m, hm, rfl⟩
  refine ⟨⟨rfl, rfl, rfl, Nat.le_refl _⟩, fun {i n} hn => ?_, fun {i m} hm _ => hold hm,
    fun {i m} hm => ?_, fun _ => List.prefix_rfl⟩
  · rw [node?_modifyNode, hn]
    split
    · exact ⟨f n, rfl, hf n⟩
    · exact ⟨n, rfl, rfl⟩
  · obtain ⟨n, hn, -⟩ := hold hm
    exact .inl (isLive_of_node? hn)

/-! ### Missing nodes -/

end Index

/-- The node with one more child. -/
def Node.withChild (n : Node) (name : String) (id : NodeId) : Node :=
  { n with children := n.children.insert name id }

namespace Index

/-- The index with a new child of `p` declared as `declared`. -/
def plant (t : Index) (p : NodeId) (declared : String) : Index :=
  (t.addNode (.new (nodeName declared) declared (t.ancestors p))).modifyNode p fun n =>
    n.withChild (nodeName declared) t.nextId

/-- A child that is there is found. -/
theorem ensureChild_of_some {t : Index} {p c : NodeId} {declared : String}
    (hc : t.child? p declared = some c) : t.ensureChild p declared = (t, c) := by
  rw [ensureChild, hc]

/-- A child that is not there is planted. -/
theorem ensureChild_of_none {t : Index} {p : NodeId} {declared : String}
    (hc : t.child? p declared = none) :
    t.ensureChild p declared = (t.plant p declared, t.nextId) := by
  rw [ensureChild, hc]
  rfl

section

variable {t : Index} {p id : NodeId}

/-- The new node has the declared name and stands below its parent. -/
theorem node?_plant_next (hp : p ≠ t.nextId) (declared : String) :
    (t.plant p declared).node? t.nextId =
      some (.new (nodeName declared) declared (t.ancestors p)) := by
  rw [plant, node?_modifyNode, if_neg hp.symm, node?_addNode, if_pos rfl]

/-- Of the other nodes the parent alone changes: it has one more child. -/
theorem node?_plant_of_ne (declared : String) (hid : id ≠ t.nextId) :
    (t.plant p declared).node? id =
      if id = p then (t.node? id).map fun n => n.withChild (nodeName declared) t.nextId
      else t.node? id := by
  rw [plant, node?_modifyNode, node?_addNode, if_neg hid]

/-- Every other node was there before, but for its children the same. -/
theorem exists_node?_of_plant {declared : String} {m : Node} (hid : id ≠ t.nextId)
    (hm : (t.plant p declared).node? id = some m) :
    ∃ n, t.node? id = some n ∧ m = { n with children := m.children } := by
  rw [node?_plant_of_ne declared hid] at hm
  split at hm
  · obtain ⟨n, hn, rfl⟩ := Option.map_eq_some_iff.mp hm
    exact ⟨n, hn, rfl⟩
  · exact ⟨m, hm, rfl⟩

end

namespace Holds

variable {t u : Index} {lay : Layout} {ds : List Deposit} {stale : List NodeId}

/-- A node that comes to stand at a free address has still to be summed up. -/
theorem insert (h : t.Holds lay ds stale) {c : Address} (hfree : lay c = none)
    (hlaid : u.Laid (lay.set c (some t.nextId))) (hnamed : u.Named)
    (hoptions : u.options = t.options)
    (hnew : ∀ m, u.node? t.nextId = some m → m.fragments = [])
    (hold : ∀ id m, id ≠ t.nextId → u.node? id = some m →
      ∃ n, t.node? id = some n ∧ m = { n with children := m.children }) :
    u.Holds (lay.set c (some t.nextId)) ds (t.nextId :: stale) := by
  refine { laid := hlaid, named := hnamed, fragments_eq := ?_, placed := ?_, current := ?_ }
  · intro a id m ha hm
    -- nothing is deposited where no node stood; elsewhere nothing is different
    by_cases hac : a = c
    · rw [hac, Layout.set_self, Option.some.injEq] at ha
      subst ha
      rw [hnew m hm, hac, eq_comm, fragmentsAt_eq_nil_iff]
      rintro d hd rfl
      obtain ⟨j, hj⟩ := h.placed d hd
      rw [hfree] at hj
      cases hj
    · rw [Layout.set_of_ne hac] at ha
      obtain ⟨n, hn, hmeq⟩ := hold id m (h.laid.ne_next ha) hm
      rw [hmeq]
      show n.fragments = _
      exact h.fragments_eq ha hn
  · intro d hd
    by_cases hdc : d.1 = c
    · exact ⟨t.nextId, by rw [hdc, Layout.set_self]⟩
    · rw [Layout.set_of_ne hdc]
      exact h.placed d hd
  · intro id m hm hid
    rw [List.mem_cons, not_or] at hid
    obtain ⟨n, hn, hmeq⟩ := hold id m hid.1 hm
    rw [hoptions, hmeq]
    exact (h.current hn hid.2).congr rfl rfl rfl rfl fun ht => ht

/-- A root of its own for a file. -/
theorem addRoot (h : t.Holds lay ds stale) {c : Address} (hroot : c.trail = [])
    (hfree : lay c = none) :
    (t.addNode (.new "" "" [])).Holds (lay.set c (some t.nextId)) ds (t.nextId :: stale) := by
  have hnode := node?_addNode t (.new "" "" [])
  -- a root is no child, so nothing changes at the addresses of other nodes
  have hnotchild : ∀ p x, c ≠ Address.child p x := by
    rintro p x rfl
    cases hroot
  refine h.insert hfree ?_ (h.named.addNode h.laid.node?_next _) rfl ?_ ?_
  · refine h.laid.insert hfree (fun p x hc => absurd hc (hnotchild p x))
      (fun p x hc => absurd hc (hnotchild p x)) rfl ?_ ?_ ?_
    · refine ⟨.new "" "" [], by rw [hnode, if_pos rfl], ?_, ?_, rfl⟩
      · rw [Address.label, hroot]
        rfl
      · rw [Layout.above_of_root hroot]
        rfl
    · intro a id n ha hn
      refine ⟨n, by rw [hnode, if_neg (h.laid.ne_next ha), hn], rfl, rfl, fun x => ?_⟩
      rw [if_neg (hnotchild a x).symm]
    · intro id m hm
      rw [hnode] at hm
      split at hm
      · exact Or.inl ‹_›
      · exact Or.inr (isLive_of_node? hm)
  · intro m hm
    rw [hnode, if_pos rfl, Option.some.injEq] at hm
    rw [← hm]
    rfl
  · intro id m hid hm
    rw [hnode, if_neg hid] at hm
    exact ⟨m, hm, rfl⟩

/-- A child for a node that has none of that name. -/
theorem plant (h : t.Holds lay ds stale) {a : Address} {p : NodeId} (ha : lay a = some p)
    {declared : String} (hfree : lay (a.child (nodeName declared)) = none) :
    (t.plant p declared).Holds (lay.set (a.child (nodeName declared)) (some t.nextId)) ds
      (t.nextId :: stale) := by
  have hp : p ≠ t.nextId := h.laid.ne_next ha
  have hnew := node?_plant_next hp declared
  refine h.insert hfree ?_ ?_ rfl ?_ ?_
  · refine h.laid.insert hfree ?_ ?_ rfl ⟨_, hnew, rfl, ?_, rfl⟩ ?_ ?_
    · intro q x hc
      rw [Address.child_inj] at hc
      exact ⟨p, hc.1 ▸ ha⟩
    · intro q x hc
      rw [Address.child_inj] at hc
      rw [← hc.2, nodeName_nodeName]
    · rw [Layout.above_child, ha]
      exact h.laid.ancestors_eq ha
    · intro b id n hb hn
      by_cases hid : id = p
      · -- the parent, which gets the child
        subst hid
        obtain rfl := h.laid.injective hb ha
        refine ⟨n.withChild (nodeName declared) t.nextId, ?_, rfl, rfl, fun x => ?_⟩
        · rw [node?_plant_of_ne declared (h.laid.ne_next hb), if_pos rfl, hn]
          rfl
        · rw [Node.withChild, Std.ExtTreeMap.getElem?_insert]
          simp [eq_comm (a := x)]
      · refine ⟨n, ?_, rfl, rfl, fun x => ?_⟩
        · rw [node?_plant_of_ne declared (h.laid.ne_next hb), if_neg hid, hn]
        · rw [if_neg]
          intro hc
          obtain ⟨rfl, -⟩ := Address.child_inj.mp hc
          rw [ha, Option.some.injEq] at hb
          exact hid hb.symm
    -- besides the new node there are only the nodes from before
    · intro id m hm
      by_cases hid : id = t.nextId
      · exact Or.inl hid
      · right
        obtain ⟨n, hn, -⟩ := exists_node?_of_plant hid hm
        exact isLive_of_node? hn
  · exact (h.named.addNode h.laid.node?_next _).modifyNode p fun _ => ⟨rfl, rfl⟩
  · intro m hm
    rw [hnew, Option.some.injEq] at hm
    rw [← hm]
    rfl
  · intro id m hid hm
    exact exists_node?_of_plant hid hm

end Holds

/-- Planting a child takes nothing away. -/
theorem extended_plant {t : Index} {lay : Layout} (h : t.Laid lay) (p : NodeId)
    (declared : String) : t.Extended (t.plant p declared) :=
  (extended_addNode h rfl).trans (extended_modifyNode _ p fun _ => rfl)

section

variable {t : Index} {lay : Layout} {ds : List Deposit} {stale : List NodeId} {a : Address}
  {p : NodeId}

/-- After asking for a child there is one, stale if it is new. -/
theorem Holds.exists_ensureChild (h : t.Holds lay ds stale) (ha : lay a = some p)
    (declared : String) :
    ∃ lay', (t.ensureChild p declared).1.Holds lay' ds ((t.ensureChild p declared).2 :: stale) ∧
      lay.Extends lay' [a.child (nodeName declared)] ∧
      lay' (a.child (nodeName declared)) = some (t.ensureChild p declared).2 ∧
      t.Extended (t.ensureChild p declared).1 := by
  cases hc : lay (a.child (nodeName declared)) with
  | some c =>
    rw [ensureChild_of_some ((h.laid.child?_eq ha declared).trans hc)]
    exact ⟨lay, h.mono (List.subset_cons_self c stale), .refl _ _, hc, .rfl⟩
  | none =>
    rw [ensureChild_of_none ((h.laid.child?_eq ha declared).trans hc)]
    exact ⟨_, h.plant ha hc, .set hc t.nextId, Layout.set_self ..,
      extended_plant h.laid p declared⟩

/-- After asking for a way down there is one. -/
theorem Holds.exists_ensurePath (h : t.Holds lay ds stale) (ha : lay a = some p)
    (names : List String) :
    ∃ lay', (t.ensurePath p names).1.Holds lay' ds ((t.ensurePath p names).2 ++ stale) ∧
      lay.Extends lay' (a.steps (names.map nodeName)) ∧
      lay'.Lists (a.steps (names.map nodeName)) (t.ensurePath p names).2 ∧
      t.Extended (t.ensurePath p names).1 := by
  -- the way goes on from the child, in the index that has it
  induction names generalizing t lay a p stale with
  | nil => exact ⟨lay, h, .refl _ _, .nil, .rfl⟩
  | cons name names ih =>
    obtain ⟨lay₁, hholds₁, hlay₁, hc, ht₁⟩ := h.exists_ensureChild ha name
    obtain ⟨lay₂, hholds₂, hlay₂, hlists, ht₂⟩ := ih hholds₁ hc
    refine ⟨lay₂, hholds₂.mono ?_, hlay₁.trans hlay₂ ?_ ?_, .cons (hlay₂.keep hc) hlists,
      ht₁.trans ht₂⟩
    · intro id hid
      rw [ensurePath]
      rcases List.mem_append.mp hid with hid | hid
      · exact List.mem_append_left _ (List.mem_cons_of_mem _ hid)
      · rcases List.mem_cons.mp hid with rfl | hid
        · exact List.mem_append_left _ List.mem_cons_self
        · exact List.mem_append_right _ hid
    · intro b hb
      rw [List.mem_singleton] at hb
      exact hb ▸ List.mem_cons_self
    · intro b hb
      exact List.mem_cons_of_mem _ hb

end

end Index

end SemanticIndex
