import Mathlib.Logic.Relation
import SemanticIndex.Proofs.Runs

/-!
# The Shape of the Forest

After any run the nodes form a forest (`Index.IsForest`): parents and children agree, nothing is its
own ancestor, and every node is there for a reason, a fragment or a child. A walk goes through this
forest from parents to children, siblings by name, the common namespace before the isolated files.
-/

namespace SemanticIndex

namespace Index

/-- The nodes form a forest that its files keep, and a walk goes through it in order. -/
structure IsForest (t : Index) : Prop where
  parentless_iff : ∀ i, t.isLive i ∧ t.parent? i = none ↔
    i = root ∨ ∃ f ∈ t.isolatedFiles, f.top = i
  /-- A node that has a parent is its child, under its own name, which has no sigils. -/
  parent_holds : ∀ i n p, t.node? i = some n → n.parent = some p →
    ∃ m, t.node? p = some m ∧ m.children[n.name]? = some i ∧ nodeName n.name = n.name
  child_points : ∀ p m (x : String) c, t.node? p = some m → m.children[x]? = some c →
    ∃ n, t.node? c = some n ∧ n.parent = some p ∧ n.name = x
  acyclic : ∀ i, ¬ Relation.TransGen (fun c p => t.parent? c = some p) i i
  /-- The nodes above a node are its parent and the nodes above that. -/
  above_eq : ∀ i n p, t.node? i = some n → n.parent = some p → n.above = t.ancestors p
  kept : ∀ i n, t.node? i = some n → i ≠ root →
    n.fragments ≠ [] ∨ ∃ (x : String) (c : NodeId), n.children[x]? = some c
  fragment_listed : ∀ i n f, t.node? i = some n → f ∈ n.fragments →
    ∃ r, t.file? f.file = some r ∧ i ∈ r.nodes
  listed_live : ∀ (k : List PathComponent) r i, t.files[k]? = some r → i ∈ r.nodes → t.isLive i
  mem_walk_iff : ∀ i, i ∈ t.walk ↔ t.isLive i
  nodup_walk : t.walk.Nodup
  walk_parent : ∀ i p, t.parent? i = some p → [p, i].Sublist t.walk
  /-- Siblings are passed by name, each with all that is below it. -/
  walk_siblings : ∀ p m (x y : String) c d, t.node? p = some m → m.children[x]? = some c →
    m.children[y]? = some d → compare x y = .lt →
    ∀ i j, c ∈ t.ancestors i → d ∈ t.ancestors j → [i, j].Sublist t.walk
  walk_common : ∀ i j, root ∈ t.ancestors i → t.isLive j → root ∉ t.ancestors j →
    [i, j].Sublist t.walk
  walk_isolated : ∀ f ∈ t.isolatedFiles, ∀ g ∈ t.isolatedFiles,
    compare f.path.components g.path.components = .lt →
    ∀ i j, f.top ∈ t.ancestors i → g.top ∈ t.ancestors j → [i, j].Sublist t.walk

variable {t : Index} {L : Ledger} {lay : Layout} {a b : Address} {i j p : NodeId} {n m : Node}

/-! ### Files -/

theorem mem_isolatedFiles_iff {f : FileRecord} :
    f ∈ t.isolatedFiles ↔ (∃ k : List PathComponent, t.files[k]? = some f) ∧ f.isolated = true := by
  rw [isolatedFiles, List.mem_filter, mem_values_iff]

theorem mem_references_iff {r : Reference} :
    r ∈ t.references ↔
      ∃ (k : List PathComponent) (f : FileRecord), t.files[k]? = some f ∧ r ∈ f.references := by
  rw [references, List.mem_flatMap]
  constructor
  · rintro ⟨f, hf, hr⟩
    obtain ⟨k, hf⟩ := mem_values_iff.mp hf
    exact ⟨k, f, hf, hr⟩
  · rintro ⟨k, f, hf, hr⟩
    exact ⟨f, mem_values_iff.mpr ⟨k, hf⟩, hr⟩

/-! ### Addresses of relatives -/

namespace Laid

/-- A parent stands at the parent's address. -/
theorem exists_of_parent? (h : t.Laid lay) (hp : t.parent? i = some p) :
    ∃ a x, lay (Address.child a x) = some i ∧ lay a = some p := by
  obtain ⟨n, hn, hp⟩ := Option.bind_eq_some_iff.mp hp
  obtain ⟨b, hb⟩ := h.exists_address hn
  obtain ⟨a, rfl, ha⟩ := h.exists_parent hb hn hp
  exact ⟨a, n.name, hb, ha⟩

/-- What has a node above it, or is it, stands at or below its address. -/
theorem le_of_mem_ancestors (h : t.Laid lay) (ha : lay a = some j) (hj : j ∈ t.ancestors i) :
    ∃ b, lay b = some i ∧ a ≤ b := by
  cases hn : t.node? i with
  | none =>
    rw [ancestors, hn] at hj
    cases hj
  | some n =>
    obtain ⟨b, hb⟩ := h.exists_address hn
    obtain ⟨c, hle, hc⟩ := (h.mem_ancestors_iff hb).mp hj
    exact ⟨b, hb, h.injective hc ha ▸ hle⟩

/-- Going up to a parent shortens the way to the root. -/
theorem length_lt_of_parent? (h : t.Laid lay) (hp : t.parent? i = some p) (hi : lay a = some i) :
    ∃ b, lay b = some p ∧ b.trail.length < a.trail.length := by
  obtain ⟨b, x, hb, hbp⟩ := h.exists_of_parent? hp
  obtain rfl := h.injective hb hi
  exact ⟨b, hbp, Nat.lt_succ_self _⟩

/-- So does going up any number of times. -/
theorem length_lt_of_transGen (h : t.Laid lay)
    (hup : Relation.TransGen (fun c p => t.parent? c = some p) i j) (hi : lay a = some i) :
    ∃ b, lay b = some j ∧ b.trail.length < a.trail.length := by
  induction hup with
  | single hp => exact h.length_lt_of_parent? hp hi
  | tail _ hp ih =>
    obtain ⟨b, hb, hlt⟩ := ih
    obtain ⟨c, hc, hlt'⟩ := h.length_lt_of_parent? hp hb
    exact ⟨c, hc, Nat.lt_trans hlt' hlt⟩

/-- Of two nodes the one whose address comes first is passed first. -/
theorem sublist_walk (h : t.Laid lay) (hrooted : t.Rooted lay) (ha : lay a = some i)
    (hb : lay b = some j) (hlt : compare a b = .lt) : [i, j].Sublist t.walk := by
  obtain ⟨as, has⟩ := h.exists_walks_preorder hrooted
  have hwalk : t.walk = as.map fun a => (lay a).getD root := by
    refine Layout.Lists.unique has.map_fst ?_
    refine List.forall₂_map_right_iff.mpr (List.forall₂_same.mpr fun c hc => ?_)
    obtain ⟨-, id, hid⟩ := (has.mem_iff c).mp hc
    rw [hid]
    rfl
  have hsub := has.sublist ((has.mem_iff a).mpr ⟨trivial, i, ha⟩)
    ((has.mem_iff b).mpr ⟨trivial, j, hb⟩) hlt
  -- the two nodes are passed where their addresses come
  have hpair : [i, j] = [a, b].map fun a => (lay a).getD root := by
    rw [List.map_cons, List.map_singleton, ha, hb]
    rfl
  rw [hwalk, hpair]
  exact hsub.map _

end Laid

/-! ### The forest of a ledger -/

namespace Built

/-- The top of an isolated file is a root of its own. -/
theorem isolated_at_of_mem (h : t.Built L lay) {f : FileRecord} (hf : f ∈ t.isolatedFiles) :
    lay (.isolated f.path.components) = some f.top := by
  obtain ⟨⟨k, hf⟩, hisolated⟩ := mem_isolatedFiles_iff.mp hf
  rw [h.components_eq hf]
  exact h.isolated_at_iff.mpr ⟨f, hf, hisolated, rfl⟩

/-- The roots are the common one and those of the isolated files. -/
theorem parentless_iff (h : t.Built L lay) (i : NodeId) :
    t.isLive i ∧ t.parent? i = none ↔ i = root ∨ ∃ f ∈ t.isolatedFiles, f.top = i := by
  have hnone : ∀ {a i}, lay a = some i → a.trail = [] → t.parent? i = none := by
    intro a i ha hroot
    obtain ⟨n, hn⟩ := h.laid.exists_node ha
    rw [parent?, hn, Option.bind_some, h.laid.parent_root ha hroot hn]
  constructor
  · rintro ⟨hlive, hp⟩
    obtain ⟨a, ha⟩ := h.laid.isLive_iff.mp hlive
    obtain ⟨n, hn⟩ := h.laid.exists_node ha
    rw [parent?, hn, Option.bind_some] at hp
    -- a node that is no root has its parent right above it
    rcases a.eq_root_or_child with hroot | ⟨b, hb⟩
    · obtain ⟨home, trail⟩ := a
      obtain rfl : trail = [] := hroot
      cases home with
      | none => exact Or.inl (Option.some.inj (ha.symm.trans h.laid.root_at))
      | some k =>
        obtain ⟨f, hf, hisolated, rfl⟩ := h.isolated_at_iff.mp ha
        exact Or.inr ⟨f, mem_isolatedFiles_iff.mpr ⟨⟨k, hf⟩, hisolated⟩, rfl⟩
    · rw [hb] at ha
      obtain ⟨p, hp'⟩ := h.laid.closed ha
      rw [h.laid.parent_child ha hn, hp'] at hp
      cases hp
  · rintro (rfl | ⟨f, hf, rfl⟩)
    · exact ⟨h.laid.isLive_iff.mpr ⟨_, h.laid.root_at⟩, hnone h.laid.root_at rfl⟩
    · have htop := h.isolated_at_of_mem hf
      exact ⟨h.laid.isLive_iff.mpr ⟨_, htop⟩, hnone htop rfl⟩

/-- A parent holds its children under their names. -/
theorem parent_holds (h : t.Built L lay) (hn : t.node? i = some n) (hp : n.parent = some p) :
    ∃ m, t.node? p = some m ∧ m.children[n.name]? = some i ∧ nodeName n.name = n.name := by
  obtain ⟨a, ha⟩ := h.laid.exists_address hn
  obtain ⟨b, hab, hb⟩ := h.laid.exists_parent ha hn hp
  obtain ⟨m, hm⟩ := h.laid.exists_node hb
  rw [hab] at ha
  exact ⟨m, hm, by rw [h.laid.child_eq hb hm, ha], h.laid.plain ha⟩

/-- A child points to its parent. -/
theorem child_points (h : t.Built L lay) {x : String} (hm : t.node? p = some m)
    (hx : m.children[x]? = some i) : ∃ n, t.node? i = some n ∧ n.parent = some p ∧ n.name = x := by
  obtain ⟨a, ha⟩ := h.laid.exists_address hm
  rw [h.laid.child_eq ha hm] at hx
  obtain ⟨n, hn⟩ := h.laid.exists_node hx
  refine ⟨n, hn, ?_, ?_⟩
  · rw [h.laid.parent_child hx hn, ha]
  · rw [h.laid.name_eq hx hn, Address.label_child]

/-- No node is reached from itself by parents. -/
theorem acyclic (h : t.Built L lay) (i : NodeId) :
    ¬ Relation.TransGen (fun c p => t.parent? c = some p) i i := by
  intro hup
  obtain ⟨p, hp, -⟩ := Relation.TransGen.head'_iff.mp hup
  obtain ⟨a, x, ha, -⟩ := h.laid.exists_of_parent? hp
  -- going up and coming back would make the way to the root shorter than it is
  obtain ⟨b, hb, hlt⟩ := h.laid.length_lt_of_transGen hup ha
  rw [h.laid.injective hb ha] at hlt
  exact Nat.lt_irrefl _ hlt

/-- What is noted above a node are the ancestors of its parent. -/
theorem above_eq_ancestors (h : t.Built L lay) (hn : t.node? i = some n)
    (hp : n.parent = some p) : n.above = t.ancestors p := by
  obtain ⟨a, ha⟩ := h.laid.exists_address hn
  obtain ⟨b, hab, hb⟩ := h.laid.exists_parent ha hn hp
  rw [h.laid.above_eq ha hn, h.laid.ancestors_eq hb, hab, Layout.above_child, hb]
  rfl

/-- A node without fragments lies above a deposit, so it has a child on the way there. -/
theorem kept (h : t.Built L lay) (hn : t.node? i = some n) (hroot : i ≠ root) :
    n.fragments ≠ [] ∨ ∃ (x : String) (c : NodeId), n.children[x]? = some c := by
  obtain ⟨a, ha⟩ := h.laid.exists_address hn
  rcases h.covered a i ha with rfl | ⟨d, hd, hle⟩
  · exact absurd (Option.some.inj (ha.symm.trans h.laid.root_at)) hroot
  -- the deposit is on the node itself or below one of its children
  · rcases hle.eq_or_lt with heq | hlt
    · left
      intro hnil
      exact (h.fragments_eq_nil_iff ha hn).mp hnil d hd heq.symm
    · right
      obtain ⟨x, hx⟩ := Address.lt_iff_exists_child_le.mp hlt
      obtain ⟨j, hj⟩ := h.placed d hd
      obtain ⟨c, hc⟩ := h.laid.closed_of_le hj hx
      exact ⟨x, c, by rw [h.laid.child_eq ha hn, hc]⟩

/-- A fragment is that of an entered file, which has come to the node. -/
theorem fragment_listed (h : t.Built L lay) (hn : t.node? i = some n) {f : Fragment}
    (hf : f ∈ n.fragments) : ∃ r, t.file? f.file = some r ∧ i ∈ r.nodes := by
  obtain ⟨a, ha⟩ := h.laid.exists_address hn
  rw [h.fragments_eq ha hn, mem_fragmentsAt_iff] at hf
  obtain ⟨e, he, hd⟩ := Ledger.mem_deposits_iff.mp hf
  obtain ⟨r, hr, hisOf⟩ := h.exists_file e he
  have hfile : f.file = e.1 := Document.file_eq_of_mem_deposits hd
  refine ⟨r, by rw [file?, hfile, hr], ?_⟩
  exact (hisOf.nodes_at.mem_iff h.laid.injective ha).mpr (Outline.mem_visited_of_mem_deposits hd)

/-- The nodes listed for a file are live. -/
theorem listed_live (h : t.Built L lay) {k : List PathComponent} {r : FileRecord}
    (hr : t.files[k]? = some r) (hi : i ∈ r.nodes) : t.isLive i = true := by
  obtain ⟨e, -, -, hisOf⟩ := h.isOf hr
  obtain ⟨a, -, ha⟩ := hisOf.nodes_at.exists_of_mem_ids hi
  exact h.laid.isLive_iff.mpr ⟨a, ha⟩

/-- A walk comes to a node after its parent. -/
theorem walk_parent (h : t.Built L lay) (hp : t.parent? i = some p) :
    [p, i].Sublist t.walk := by
  obtain ⟨a, x, hi, ha⟩ := h.laid.exists_of_parent? hp
  exact h.laid.sublist_walk h.rooted ha hi (Address.compare_eq_lt_of_lt (Address.lt_child a x))

/-- A walk comes to all that hangs from a child before it comes to the next child. -/
theorem walk_siblings (h : t.Built L lay) {x y : String} {c d : NodeId} (hm : t.node? p = some m)
    (hx : m.children[x]? = some c) (hy : m.children[y]? = some d) (hlt : compare x y = .lt)
    (hi : c ∈ t.ancestors i) (hj : d ∈ t.ancestors j) : [i, j].Sublist t.walk := by
  obtain ⟨a, ha⟩ := h.laid.exists_address hm
  rw [h.laid.child_eq ha hm] at hx hy
  obtain ⟨b, hb, hle⟩ := h.laid.le_of_mem_ancestors hx hi
  obtain ⟨b', hb', hle'⟩ := h.laid.le_of_mem_ancestors hy hj
  exact h.laid.sublist_walk h.rooted hb hb' (Address.compare_eq_lt_of_siblings hle hle' hlt)

/-- The nodes of the common namespace come first. -/
theorem walk_common (h : t.Built L lay) (hi : root ∈ t.ancestors i) (hlive : t.isLive j)
    (hj : root ∉ t.ancestors j) : [i, j].Sublist t.walk := by
  obtain ⟨b, hb, hle⟩ := h.laid.le_of_mem_ancestors h.laid.root_at hi
  obtain ⟨b', hb'⟩ := h.laid.isLive_iff.mp hlive
  refine h.laid.sublist_walk h.rooted hb hb' (Address.compare_eq_lt_of_home ?_)
  rw [← hle.1]
  obtain ⟨home, trail⟩ := b'
  cases home with
  | none =>
    refine absurd ((h.laid.mem_ancestors_iff hb').mpr ⟨.origin, ?_, h.laid.root_at⟩) hj
    exact ⟨rfl, List.nil_suffix⟩
  | some k => rfl

/-- A walk comes to the isolated trees in the order of their files. -/
theorem walk_isolated (h : t.Built L lay) {f g : FileRecord} (hf : f ∈ t.isolatedFiles)
    (hg : g ∈ t.isolatedFiles) (hlt : compare f.path.components g.path.components = .lt)
    (hi : f.top ∈ t.ancestors i) (hj : g.top ∈ t.ancestors j) : [i, j].Sublist t.walk := by
  obtain ⟨b, hb, hle⟩ := h.laid.le_of_mem_ancestors (h.isolated_at_of_mem hf) hi
  obtain ⟨b', hb', hle'⟩ := h.laid.le_of_mem_ancestors (h.isolated_at_of_mem hg) hj
  refine h.laid.sublist_walk h.rooted hb hb' (Address.compare_eq_lt_of_home ?_)
  rw [← hle.1, ← hle'.1]
  exact hlt

end Built

/-- After any run the nodes form a forest. -/
theorem run_isForest (options : IndexOptions) (ops : List Operation) :
    (run options ops).IsForest := by
  obtain ⟨lay, h, -⟩ := exists_built_run options ops
  exact {
    parentless_iff := h.parentless_iff
    parent_holds := fun _ _ _ => h.parent_holds
    child_points := fun _ _ _ _ => h.child_points
    acyclic := h.acyclic
    above_eq := fun _ _ _ => h.above_eq_ancestors
    kept := fun _ _ => h.kept
    fragment_listed := fun _ _ _ hn hf => h.fragment_listed hn hf
    listed_live := fun _ _ _ => h.listed_live
    mem_walk_iff := fun _ => h.laid.mem_walk_iff h.rooted
    nodup_walk := h.laid.nodup_walk h.rooted
    walk_parent := fun _ _ => h.walk_parent
    walk_siblings := fun _ _ _ _ _ _ hm hx hy hlt _ _ => h.walk_siblings hm hx hy hlt
    walk_common := fun _ _ => h.walk_common
    walk_isolated := fun _ hf _ hg hlt _ _ => h.walk_isolated hf hg hlt }

end Index

end SemanticIndex
