import SemanticIndex.Proofs.Forest.Layout

/-!
# Changing a Layout at One Address

The two changes that the shape of the forest undergoes: a node comes to stand at a free address
(`Laid.insert`), and a node below which nothing stands is taken away (`Laid.erase`). Both are stated
for any index with the nodes that the change calls for, since the index makes them in several ways.
-/

namespace SemanticIndex.Index.Laid

variable {t u : Index} {lay : Layout}

/-- A new node under the next number stands at a free address whose parent is taken. -/
theorem insert (h : t.Laid lay) {c : Address} (hfree : lay c = none)
    (hclosed : ∀ (p : Address) (x : String), c = p.child x → ∃ id, lay p = some id)
    (hplain : ∀ (p : Address) (x : String), c = p.child x → nodeName x = x)
    (hnext : u.nextId = t.nextId + 1)
    (hnew : ∃ m, u.node? t.nextId = some m ∧ m.name = c.label ∧ m.above = lay.above c ∧
      m.children = ∅)
    (hold : ∀ a id n, lay a = some id → t.node? id = some n → ∃ m, u.node? id = some m ∧
      m.name = n.name ∧ m.above = n.above ∧
      ∀ x : String, m.children[x]? = if a.child x = c then some t.nextId else n.children[x]?)
    (honly : ∀ id m, u.node? id = some m → id = t.nextId ∨ t.isLive id) :
    u.Laid (lay.set c (some t.nextId)) := by
  obtain ⟨new, hnode, hname, habove, hchildren⟩ := hnew
  -- an address is the new one or was taken before
  have hcases : ∀ {a id}, lay.set c (some t.nextId) a = some id →
      (a = c ∧ id = t.nextId) ∨ (a ≠ c ∧ lay a = some id) := by
    intro a id ha
    by_cases hac : a = c
    · subst hac
      rw [Layout.set_self] at ha
      exact Or.inl ⟨rfl, (Option.some.inj ha).symm⟩
    · rw [Layout.set_of_ne hac] at ha
      exact Or.inr ⟨hac, ha⟩
  have hkeep : ∀ {a id}, lay a = some id → lay.set c (some t.nextId) a = some id :=
    Layout.set_some_of_free hfree
  -- the next number is not in use
  have hfresh : ∀ a, lay a ≠ some t.nextId := fun a ha => Nat.lt_irrefl _ (h.lt_next ha)
  -- nothing above a taken address changes
  have habove_eq : ∀ {a}, (∃ id, lay a = some id) ∨ a = c →
      (lay.set c (some t.nextId)).above a = lay.above a := by
    intro a ha
    refine Layout.above_congr fun b hlt => ?_
    rw [Layout.set_of_ne]
    rintro rfl
    rcases ha with ⟨id, ha⟩ | rfl
    · obtain ⟨p, hp⟩ := h.closed_of_le ha hlt.le
      rw [hfree] at hp
      cases hp
    · exact lt_irrefl _ hlt
  -- nothing stands below the new node
  have hbelow : ∀ x, lay.set c (some t.nextId) (c.child x) = none := by
    intro x
    rw [Layout.set_of_ne (Address.ne_child_self c x).symm]
    exact h.eq_none_of_le hfree (Address.le_child c x)
  refine { root_at := hkeep h.root_at, exists_node := ?_, exists_address := ?_, injective := ?_,
           closed := ?_, plain := ?_, lt_next := ?_, name_eq := ?_, above_eq := ?_,
           child_eq := ?_ }
  · intro a id ha
    rcases hcases ha with ⟨rfl, rfl⟩ | ⟨-, ha⟩
    · exact ⟨new, hnode⟩
    · obtain ⟨n, hn⟩ := h.exists_node ha
      obtain ⟨m, hm, -⟩ := hold a id n ha hn
      exact ⟨m, hm⟩
  · intro id m hm
    rcases honly id m hm with rfl | hlive
    · exact ⟨c, Layout.set_self ..⟩
    · obtain ⟨a, ha⟩ := h.isLive_iff.mp hlive
      exact ⟨a, hkeep ha⟩
  -- two addresses of one node: both new, both old, or one of each, which cannot be
  · intro a b id ha hb
    rcases hcases ha with ⟨hac, hid⟩ | ⟨-, ha'⟩
    · rcases hcases hb with ⟨hbc, -⟩ | ⟨-, hb'⟩
      · rw [hac, hbc]
      · exact absurd (hid ▸ hb') (hfresh b)
    · rcases hcases hb with ⟨-, hid⟩ | ⟨-, hb'⟩
      · exact absurd (hid ▸ ha') (hfresh a)
      · exact h.injective ha' hb'
  · intro a x id ha
    rcases hcases ha with ⟨hc, -⟩ | ⟨-, ha⟩
    · obtain ⟨p, hp⟩ := hclosed a x hc.symm
      exact ⟨p, hkeep hp⟩
    · obtain ⟨p, hp⟩ := h.closed ha
      exact ⟨p, hkeep hp⟩
  · intro a x id ha
    rcases hcases ha with ⟨hc, -⟩ | ⟨-, ha⟩
    · exact hplain a x hc.symm
    · exact h.plain ha
  · intro a id ha
    rw [hnext]
    rcases hcases ha with ⟨-, rfl⟩ | ⟨-, ha⟩
    · exact Nat.lt_succ_self _
    · exact Nat.lt_succ_of_lt (h.lt_next ha)
  all_goals
    intro a id m ha hm
    rcases hcases ha with ⟨rfl, rfl⟩ | ⟨hac, ha⟩
  -- the new node, then each old one
  · rw [hnode, Option.some.injEq] at hm
    rw [← hm, hname]
  · obtain ⟨n, hn⟩ := h.exists_node ha
    obtain ⟨m', hm', hold_name, -⟩ := hold a id n ha hn
    rw [hm', Option.some.injEq] at hm
    rw [← hm, hold_name, h.name_eq ha hn]
  · rw [hnode, Option.some.injEq] at hm
    rw [← hm, habove, habove_eq (Or.inr rfl)]
  · obtain ⟨n, hn⟩ := h.exists_node ha
    obtain ⟨m', hm', -, hold_above, -⟩ := hold a id n ha hn
    rw [hm', Option.some.injEq] at hm
    rw [← hm, hold_above, h.above_eq ha hn, habove_eq (Or.inl ⟨id, ha⟩)]
  · intro x
    rw [hnode, Option.some.injEq] at hm
    rw [← hm, hchildren, hbelow, Std.ExtTreeMap.getElem?_empty]
  · intro x
    obtain ⟨n, hn⟩ := h.exists_node ha
    obtain ⟨m', hm', -, -, hold_child⟩ := hold a id n ha hn
    rw [hm', Option.some.injEq] at hm
    rw [← hm, hold_child, h.child_eq ha hn]
    split
    · rename_i hc
      rw [hc, Layout.set_self]
    · rename_i hc
      rw [Layout.set_of_ne hc]

/-- A node below which nothing stands, other than the common root, is taken away. -/
theorem erase (h : t.Laid lay) {c : Address} {gone : NodeId} (hc : lay c = some gone)
    (hroot : c ≠ .origin) (hleaf : ∀ x, lay (c.child x) = none) (hnext : u.nextId = t.nextId)
    (hgone : u.node? gone = none)
    (hold : ∀ a id n, id ≠ gone → lay a = some id → t.node? id = some n → ∃ m,
      u.node? id = some m ∧ m.name = n.name ∧ m.above = n.above ∧
      ∀ x : String, m.children[x]? = if a.child x = c then none else n.children[x]?)
    (honly : ∀ id m, u.node? id = some m → t.isLive id) :
    u.Laid (lay.set c none) := by
  have hcases : ∀ {a id}, lay.set c none a = some id → id ≠ gone ∧ a ≠ c ∧ lay a = some id := by
    intro a id ha
    obtain ⟨hac, ha⟩ := Layout.ne_and_eq_of_set_none ha
    refine ⟨?_, hac, ha⟩
    rintro rfl
    exact hac (h.injective ha hc)
  have hkeep : ∀ {a id}, a ≠ c → lay a = some id → lay.set c none a = some id := by
    intro a id hac ha
    rw [Layout.set_of_ne hac, ha]
  -- the node that goes is above no other one
  have hnotabove : ∀ {a id}, lay a = some id → ¬ c < a := by
    intro a id ha hlt
    obtain ⟨x, hx⟩ := Address.lt_iff_exists_child_le.mp hlt
    rw [h.eq_none_of_le (hleaf x) hx] at ha
    cases ha
  have habove_eq : ∀ {a id}, lay a = some id →
      (lay.set c none).above a = lay.above a := by
    intro a id ha
    refine Layout.above_congr fun b hlt => ?_
    rw [Layout.set_of_ne]
    rintro rfl
    exact hnotabove ha hlt
  refine { root_at := hkeep hroot.symm h.root_at, exists_node := ?_, exists_address := ?_,
           injective := ?_, closed := ?_, plain := ?_, lt_next := ?_, name_eq := ?_,
           above_eq := ?_, child_eq := ?_ }
  · intro a id ha
    obtain ⟨hne, -, ha⟩ := hcases ha
    obtain ⟨n, hn⟩ := h.exists_node ha
    obtain ⟨m, hm, -⟩ := hold a id n hne ha hn
    exact ⟨m, hm⟩
  · intro id m hm
    obtain ⟨a, ha⟩ := h.isLive_iff.mp (honly id m hm)
    refine ⟨a, hkeep ?_ ha⟩
    rintro rfl
    rw [hc, Option.some.injEq] at ha
    rw [← ha, hgone] at hm
    cases hm
  · intro a b id ha hb
    exact h.injective (hcases ha).2.2 (hcases hb).2.2
  -- the parent stays, since a node stands below it
  · intro a x id ha
    obtain ⟨p, hp⟩ := h.closed (hcases ha).2.2
    refine ⟨p, hkeep ?_ hp⟩
    rintro rfl
    exact hnotabove (hcases ha).2.2 (Address.lt_child a x)
  · intro a x id ha
    exact h.plain (hcases ha).2.2
  · intro a id ha
    rw [hnext]
    exact h.lt_next (hcases ha).2.2
  all_goals
    intro a id m ha hm
    obtain ⟨hne, hac, ha⟩ := hcases ha
    obtain ⟨n, hn⟩ := h.exists_node ha
    obtain ⟨m', hm', hold_name, hold_above, hold_child⟩ := hold a id n hne ha hn
    rw [hm', Option.some.injEq] at hm
    subst hm
  · rw [hold_name, h.name_eq ha hn]
  · rw [hold_above, h.above_eq ha hn, habove_eq ha]
  · intro x
    rw [hold_child, h.child_eq ha hn]
    split
    · rename_i hx
      rw [hx, Layout.set_self]
    · rename_i hx
      rw [Layout.set_of_ne hx]

end SemanticIndex.Index.Laid
