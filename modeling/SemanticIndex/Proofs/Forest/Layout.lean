import Mathlib.Data.List.Perm.Subperm
import Mathlib.Logic.Function.Basic
import SemanticIndex.Index.Update
import SemanticIndex.Proofs.Forest.Address

/-!
# Layouts

A layout says which node stands at each address. An index is laid out in a certain way when its
nodes, their names, their lists of nodes above and their children are what the layout says; all
that is known about the shape of the forest follows from that (`Laid`). What a node holds, as
opposed to where it stands, does not matter for it (`Laid.congr`).
-/

namespace SemanticIndex

/-- Which node stands at each address, if any does. -/
abbrev Layout := Address → Option NodeId

namespace Layout

/-- The layout with another node, or none, at one address. -/
def set (lay : Layout) (c : Address) (id? : Option NodeId) : Layout := Function.update lay c id?

@[simp]
theorem set_self (lay : Layout) (c : Address) (id? : Option NodeId) : lay.set c id? c = id? :=
  Function.update_self ..

theorem set_of_ne {lay : Layout} {a c : Address} (h : a ≠ c) (id? : Option NodeId) :
    lay.set c id? a = lay a :=
  Function.update_of_ne h ..

/-- Taking a free address moves no node. -/
theorem set_some_of_free {lay : Layout} {a c : Address} {i j : NodeId} (hfree : lay c = none)
    (ha : lay a = some i) : lay.set c (some j) a = some i := by
  rw [set_of_ne, ha]
  rintro rfl
  rw [hfree] at ha
  cases ha

/-- What stands somewhere after an address has been cleared stood there before. -/
theorem ne_and_eq_of_set_none {lay : Layout} {a c : Address} {i : NodeId}
    (ha : lay.set c none a = some i) : a ≠ c ∧ lay a = some i := by
  have hac : a ≠ c := by
    rintro rfl
    rw [set_self] at ha
    cases ha
  rw [set_of_ne hac] at ha
  exact ⟨hac, ha⟩

/-- The nodes strictly above an address, the nearest first. -/
def above (lay : Layout) (a : Address) : List NodeId :=
  go a.trail
where
  /-- The nodes above the address in the same tree with the given trail. -/
  go : List String → List NodeId
    | [] => []
    | _ :: trail => (lay ⟨a.home, trail⟩).toList ++ go trail

/-- Above a child stand the nodes above its parent and the one there. -/
theorem above_child (lay : Layout) (a : Address) (x : String) :
    lay.above (a.child x) = (lay a).toList ++ lay.above a := by
  -- the recursion only looks at the home of the address, which a child shares
  have hgo : ∀ trail, above.go lay (a.child x) trail = above.go lay a trail := by
    intro trail
    induction trail with
    | nil => rfl
    | cons y trail ih => rw [above.go, above.go, ih, Address.home_child]
  rw [above, Address.trail_child, above.go, hgo]
  rfl

/-- Nothing stands above a root. -/
theorem above_of_root {lay : Layout} {a : Address} (h : a.trail = []) : lay.above a = [] := by
  rw [above, h, above.go]

theorem mem_above_iff {lay : Layout} {a : Address} {j : NodeId} :
    j ∈ lay.above a ↔ ∃ b, b < a ∧ lay b = some j := by
  induction a with
  | root home =>
    rw [above_of_root rfl]
    simp only [List.not_mem_nil, false_iff, not_exists, not_and]
    intro b hlt
    exact absurd (Address.eq_of_le_of_length_le hlt.le (Nat.zero_le _)) hlt.ne
  | child a x ih =>
    rw [above_child, List.mem_append, ih, Option.mem_toList]
    simp only [Address.lt_child_iff]
    constructor
    · rintro (hj | ⟨b, hlt, hj⟩)
      · exact ⟨a, le_rfl, hj⟩
      · exact ⟨b, hlt.le, hj⟩
    · rintro ⟨b, hle, hj⟩
      rcases hle.eq_or_lt with rfl | hlt
      · exact Or.inl hj
      · exact Or.inr ⟨b, hlt, hj⟩

/-- Only what stands above an address decides which nodes are above it. -/
theorem above_congr {lay lay' : Layout} {a : Address} (h : ∀ b < a, lay b = lay' b) :
    lay.above a = lay'.above a := by
  induction a with
  | root home => rw [above_of_root rfl, above_of_root rfl]
  | child a x ih =>
    rw [above_child, above_child, h a (Address.lt_child a x),
      ih fun b hlt => h b (hlt.trans (Address.lt_child a x))]

end Layout

/-- The part of a node that says where it stands. -/
def Node.shape (n : Node) : String × List NodeId × Std.ExtTreeMap String NodeId :=
  (n.name, n.above, n.children)

namespace Index

/-- A node that can be read is live. -/
theorem isLive_of_node? {t : Index} {id : NodeId} {n : Node} (hn : t.node? id = some n) :
    t.isLive id = true := by
  rw [isLive, hn]
  rfl

/-- The forest of `t` is laid out as `lay` says. -/
structure Laid (t : Index) (lay : Layout) : Prop where
  root_at : lay .origin = some root
  /-- Nodes stand at addresses. -/
  exists_node : ∀ {a : Address} {id : NodeId}, lay a = some id → ∃ n, t.node? id = some n
  /-- Every node stands somewhere. -/
  exists_address : ∀ {id : NodeId} {n : Node}, t.node? id = some n → ∃ a, lay a = some id
  /-- A node stands at one address. -/
  injective : ∀ {a b : Address} {id : NodeId}, lay a = some id → lay b = some id → a = b
  /-- There is a node above every node that is not a root. -/
  closed : ∀ {a : Address} {x : String} {id : NodeId}, lay (a.child x) = some id →
    ∃ p, lay a = some p
  /-- Names have no sigils. -/
  plain : ∀ {a : Address} {x : String} {id : NodeId}, lay (a.child x) = some id →
    nodeName x = x
  /-- No number is used twice. -/
  lt_next : ∀ {a : Address} {id : NodeId}, lay a = some id → id < t.nextId
  name_eq : ∀ {a : Address} {id : NodeId} {n : Node}, lay a = some id →
    t.node? id = some n → n.name = a.label
  above_eq : ∀ {a : Address} {id : NodeId} {n : Node}, lay a = some id →
    t.node? id = some n → n.above = lay.above a
  child_eq : ∀ {a : Address} {id : NodeId} {n : Node}, lay a = some id →
    t.node? id = some n → ∀ x : String, n.children[x]? = lay (a.child x)

namespace Laid

variable {t u : Index} {lay : Layout} {a b : Address} {id j : NodeId} {n : Node}

/-- What is laid out is decided by the shapes of the nodes and the next number. -/
theorem congr (h : t.Laid lay) (hnext : u.nextId = t.nextId)
    (hshape : ∀ i, (u.node? i).map Node.shape = (t.node? i).map Node.shape) : u.Laid lay := by
  -- a node of `u` stands for a node of `t` of the same shape
  have hnode : ∀ {i m}, u.node? i = some m →
      ∃ n, t.node? i = some n ∧ n.name = m.name ∧ n.above = m.above ∧ n.children = m.children := by
    intro i m hm
    have hi := hshape i
    rw [hm, Option.map_some, eq_comm, Option.map_eq_some_iff] at hi
    obtain ⟨n, hn, hs⟩ := hi
    simp only [Node.shape, Prod.mk.injEq] at hs
    exact ⟨n, hn, hs⟩
  refine { root_at := h.root_at, exists_node := ?_, exists_address := ?_, injective := h.injective,
           closed := h.closed, plain := h.plain, lt_next := ?_, name_eq := ?_, above_eq := ?_,
           child_eq := ?_ }
  · intro a i ha
    obtain ⟨n, hn⟩ := h.exists_node ha
    have hi := hshape i
    rw [hn, Option.map_some, Option.map_eq_some_iff] at hi
    obtain ⟨m, hm, -⟩ := hi
    exact ⟨m, hm⟩
  · intro i m hm
    obtain ⟨n, hn, -⟩ := hnode hm
    exact h.exists_address hn
  · intro a i ha
    rw [hnext]
    exact h.lt_next ha
  · intro a i m ha hm
    obtain ⟨n, hn, hname, -⟩ := hnode hm
    rw [← hname, h.name_eq ha hn]
  · intro a i m ha hm
    obtain ⟨n, hn, -, habove, -⟩ := hnode hm
    rw [← habove, h.above_eq ha hn]
  · intro a i m ha hm
    obtain ⟨n, hn, -, -, hchildren⟩ := hnode hm
    rw [← hchildren]
    exact h.child_eq ha hn

/-- No node has the next number. -/
theorem ne_next (h : t.Laid lay) (ha : lay a = some id) : id ≠ t.nextId :=
  Nat.ne_of_lt (h.lt_next ha)

/-- Nodes stand everywhere above a node. -/
theorem closed_of_le (h : t.Laid lay) (hb : lay b = some j) (hle : a ≤ b) :
    ∃ p, lay a = some p := by
  induction b generalizing j with
  | root home =>
    obtain rfl := Address.eq_of_le_of_length_le hle (Nat.zero_le _)
    exact ⟨j, hb⟩
  | child b x ih =>
    rcases Address.le_child_iff.mp hle with rfl | hle
    · exact ⟨j, hb⟩
    · obtain ⟨p, hp⟩ := h.closed hb
      exact ih hp hle

/-- Where no node stands, none stands below. -/
theorem eq_none_of_le (h : t.Laid lay) (ha : lay a = none) (hle : a ≤ b) : lay b = none := by
  rw [Option.eq_none_iff_forall_ne_some]
  intro j hj
  obtain ⟨p, hp⟩ := h.closed_of_le hj hle
  rw [ha] at hp
  cases hp

/-- The child of a name is the node at the address of the child. -/
theorem child?_eq (h : t.Laid lay) (ha : lay a = some id) (declared : String) :
    t.child? id declared = lay (a.child (nodeName declared)) := by
  obtain ⟨n, hn⟩ := h.exists_node ha
  rw [child?, hn, Option.bind_some, Node.child?, h.child_eq ha hn]

/-- Names lead to the node at the address that they make up. -/
theorem follow?_eq (h : t.Laid lay) (ha : lay a = some id) (names : List String) :
    t.follow? id names = lay (a.down (names.map nodeName)) := by
  induction names generalizing a id with
  | nil => exact ha.symm
  | cons name names ih =>
    rw [follow?, h.child?_eq ha, List.map_cons, Address.down_cons]
    -- where the way breaks off, no node stands further down either
    cases hc : lay (a.child (nodeName name)) with
    | none => rw [Option.bind_none, h.eq_none_of_le hc (Address.le_down _ _)]
    | some c => rw [Option.bind_some, ih hc]

/-- The ancestors of a node are itself and the nodes above its address. -/
theorem ancestors_eq (h : t.Laid lay) (ha : lay a = some id) :
    t.ancestors id = id :: lay.above a := by
  obtain ⟨n, hn⟩ := h.exists_node ha
  rw [ancestors, hn, ← h.above_eq ha hn]

theorem mem_ancestors_iff (h : t.Laid lay) (ha : lay a = some id) :
    j ∈ t.ancestors id ↔ ∃ b, b ≤ a ∧ lay b = some j := by
  rw [h.ancestors_eq ha, List.mem_cons, Layout.mem_above_iff]
  constructor
  · rintro (rfl | ⟨b, hlt, hb⟩)
    · exact ⟨a, le_rfl, ha⟩
    · exact ⟨b, hlt.le, hb⟩
  · rintro ⟨b, hle, hb⟩
    rcases hle.eq_or_lt with rfl | hlt
    · exact Or.inl (Option.some.inj (hb.symm.trans ha))
    · exact Or.inr ⟨b, hlt, hb⟩

/-- The parent of a node stands at the address of the parent. -/
theorem parent_child (h : t.Laid lay) {x : String} (ha : lay (a.child x) = some id)
    (hn : t.node? id = some n) : n.parent = lay a := by
  obtain ⟨p, hp⟩ := h.closed ha
  rw [Node.parent, h.above_eq ha hn, Layout.above_child, hp]
  rfl

/-- A root has no parent. -/
theorem parent_root (h : t.Laid lay) (ha : lay a = some id) (hroot : a.trail = [])
    (hn : t.node? id = some n) : n.parent = none := by
  rw [Node.parent, h.above_eq ha hn, Layout.above_of_root hroot]
  rfl

/-- A node with a parent stands right below it, under its own name. -/
theorem exists_parent (h : t.Laid lay) {p : NodeId} (ha : lay a = some id)
    (hn : t.node? id = some n) (hp : n.parent = some p) :
    ∃ b, a = b.child n.name ∧ lay b = some p := by
  rcases a.eq_root_or_child with hroot | ⟨b, hb⟩
  · rw [h.parent_root ha hroot hn] at hp
    cases hp
  · rw [← h.name_eq ha hn] at hb
    subst hb
    exact ⟨b, rfl, (h.parent_child ha hn).symm.trans hp⟩

/-- No node stands above an address twice. -/
theorem nodup_above (h : t.Laid lay) (a : Address) : (lay.above a).Nodup := by
  induction a with
  | root home =>
    rw [Layout.above_of_root rfl]
    exact List.nodup_nil
  | child a x ih =>
    rw [Layout.above_child]
    cases hp : lay a with
    | none => simpa using ih
    | some p =>
      refine List.nodup_cons.mpr ⟨?_, ih⟩
      intro hmem
      obtain ⟨b, hlt, hb⟩ := Layout.mem_above_iff.mp hmem
      exact hlt.ne (h.injective hb hp)

/-- Above a node stand as many nodes as its trail has names. -/
theorem length_above (h : t.Laid lay) (ha : lay a = some id) :
    (lay.above a).length = a.trail.length := by
  induction a generalizing id with
  | root home =>
    rw [Layout.above_of_root rfl]
    rfl
  | child a x ih =>
    obtain ⟨p, hp⟩ := h.closed ha
    rw [Layout.above_child, hp, List.length_append, ih hp]
    simp [Nat.add_comm]

/-- There are fewer nodes above a node than numbers have been handed out. -/
theorem length_trail_lt (h : t.Laid lay) (ha : lay a = some id) : a.trail.length < t.nextId := by
  -- a node and the nodes above it are different numbers that have been handed out
  have hsub : id :: lay.above a ⊆ List.range t.nextId := by
    rw [← h.ancestors_eq ha]
    intro j hj
    obtain ⟨b, -, hb⟩ := (h.mem_ancestors_iff ha).mp hj
    exact List.mem_range.mpr (h.lt_next hb)
  have hnodup : (id :: lay.above a).Nodup := by
    refine List.nodup_cons.mpr ⟨?_, h.nodup_above a⟩
    intro hmem
    obtain ⟨b, hlt, hb⟩ := Layout.mem_above_iff.mp hmem
    exact hlt.ne (h.injective hb ha)
  have hlen := (hnodup.subperm hsub).length_le
  rw [List.length_cons, h.length_above ha, List.length_range] at hlen
  omega

/-- The layout of an index tells which numbers are in use. -/
theorem isLive_iff (h : t.Laid lay) : t.isLive id ↔ ∃ a, lay a = some id := by
  rw [isLive, Option.isSome_iff_exists]
  constructor
  · rintro ⟨n, hn⟩
    exact h.exists_address hn
  · rintro ⟨a, ha⟩
    exact h.exists_node ha

theorem isLive_congr (h : t.Laid lay) (hu : u.Laid lay) (i : NodeId) : t.isLive i = u.isLive i := by
  rw [Bool.eq_iff_iff, h.isLive_iff, hu.isLive_iff]

/-- No node stands under the next number. -/
theorem node?_next (h : t.Laid lay) : t.node? t.nextId = none := by
  rw [Option.eq_none_iff_forall_ne_some]
  intro n hn
  obtain ⟨a, ha⟩ := h.exists_address hn
  exact Nat.lt_irrefl _ (h.lt_next ha)

end Laid

/-- The layout of the index of no files. -/
def emptyLayout : Layout := fun a => if a = .origin then some root else none

/-- In the empty index there is the root alone. -/
theorem node?_empty (options : IndexOptions) (id : NodeId) :
    (empty options).node? id = if id = root then some (.new "" "" []) else none := by
  by_cases h : id = root
  · simp [empty, node?, h]
  · simp [empty, node?, h, Ne.symm h]

/-- In the empty index the root stands at its address. -/
theorem laid_empty (options : IndexOptions) : (empty options).Laid emptyLayout := by
  -- a node stands at the origin only
  have hat : ∀ {a id}, emptyLayout a = some id → a = .origin ∧ id = root := by
    intro a id ha
    rw [emptyLayout] at ha
    split at ha
    · exact ⟨‹_›, (Option.some.inj ha).symm⟩
    · cases ha
  have hnone : ∀ (a : Address) (x : String), emptyLayout (a.child x) = none := by
    intro a x
    rw [emptyLayout, if_neg]
    intro h
    cases congrArg Address.trail h
  refine { root_at := rfl, exists_node := ?_, exists_address := ?_, injective := ?_,
           closed := ?_, plain := ?_, lt_next := ?_, name_eq := ?_, above_eq := ?_,
           child_eq := ?_ }
  · rintro a id ha
    obtain ⟨rfl, rfl⟩ := hat ha
    exact ⟨_, by rw [node?_empty, if_pos rfl]⟩
  · intro id n hn
    rw [node?_empty] at hn
    split at hn
    · exact ⟨.origin, by rw [‹id = root›]; rfl⟩
    · cases hn
  · intro a b id ha hb
    rw [(hat ha).1, (hat hb).1]
  · intro a x id ha
    rw [hnone] at ha
    cases ha
  · intro a x id ha
    rw [hnone] at ha
    cases ha
  · intro a id ha
    rw [(hat ha).2]
    exact Nat.zero_lt_one
  -- the last three are about the one node
  all_goals
    intro a id n ha hn
    obtain ⟨rfl, rfl⟩ := hat ha
    rw [node?_empty, if_pos rfl, Option.some.injEq] at hn
    subst hn
  · rfl
  · rfl
  · intro x
    rw [hnone]
    simp [Node.new]

end Index

end SemanticIndex
