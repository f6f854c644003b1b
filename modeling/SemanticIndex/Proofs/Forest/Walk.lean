import Mathlib.Data.List.Forall2
import SemanticIndex.Proofs.Forest.Layout
import SemanticIndex.Proofs.Maps

/-!
# Walks

A walk goes through the nodes in the order of their addresses. `Layout.Walks` says that a list of
nodes and depths is a walk through some part of the forest; walks through parts that lie one after
the other make a walk (`Layout.exists_walks_flatMap`), so a walk down from a node is one, and so is
the walk through the whole forest (`Index.Laid.exists_walks_preorder`).
-/

namespace SemanticIndex

namespace Layout

/-- The nodes at the addresses `as` with their depths are `ps`, and `as` are the addresses of nodes
with the property `P`, in the order of addresses. -/
structure Walks (lay : Layout) (P : Address → Prop) (as : List Address) (ps : List (NodeId × Nat)) :
    Prop where
  stands : List.Forall₂ (fun a p => lay a = some p.1 ∧ p.2 = a.trail.length) as ps
  sorted : as.Pairwise fun a b => compare a b = .lt
  mem_iff : ∀ a, a ∈ as ↔ P a ∧ ∃ id, lay a = some id

variable {lay : Layout} {P Q : Address → Prop} {as : List Address} {ps : List (NodeId × Nat)}

/-- A walk along some addresses is one along others if the same nodes stand there. -/
theorem Walks.congr (h : lay.Walks P as ps) (hPQ : ∀ a, (∃ id, lay a = some id) → (P a ↔ Q a)) :
    lay.Walks Q as ps where
  stands := h.stands
  sorted := h.sorted
  mem_iff a := by
    rw [h.mem_iff]
    exact and_congr_left fun ha => hPQ a ha

/-- There is nothing to walk along where no node stands. -/
theorem walks_nil (h : ∀ a, P a → lay a = none) : lay.Walks P [] [] where
  stands := .nil
  sorted := .nil
  mem_iff a := by
    constructor
    · intro ha
      cases ha
    · rintro ⟨hP, id, ha⟩
      rw [h a hP] at ha
      cases ha

/-- Walks down from several addresses, below each of which all comes before what is below the next,
make one walk. -/
theorem exists_walks_flatMap {starts : List Address} {f : Address → List (NodeId × Nat)}
    (hwalks : ∀ s ∈ starts, ∃ as, lay.Walks (s ≤ ·) as (f s))
    (hsorted : starts.Pairwise fun s s' => ∀ b c, s ≤ b → s' ≤ c → compare b c = .lt) :
    ∃ as, lay.Walks (fun a => ∃ s ∈ starts, s ≤ a) as (starts.flatMap f) := by
  induction starts with
  | nil => exact ⟨[], walks_nil fun _ ⟨_, hs, _⟩ => nomatch hs⟩
  | cons s starts ih =>
    obtain ⟨hfirst, hrest⟩ := List.pairwise_cons.mp hsorted
    obtain ⟨as, has⟩ := hwalks s List.mem_cons_self
    obtain ⟨bs, hbs⟩ := ih (fun s' hs' => hwalks s' (List.mem_cons_of_mem s hs')) hrest
    refine ⟨as ++ bs, List.rel_append has.stands hbs.stands, ?_, fun a => ?_⟩
    -- across the two parts the order is that of the starts
    · refine List.pairwise_append.mpr ⟨has.sorted, hbs.sorted, fun a ha b hb => ?_⟩
      obtain ⟨s', hs', hle⟩ := ((hbs.mem_iff b).mp hb).1
      exact hfirst s' hs' a b ((has.mem_iff a).mp ha).1 hle
    · rw [List.mem_append, has.mem_iff, hbs.mem_iff, ← or_and_right]
      simp only [List.mem_cons, exists_eq_or_imp]

/-- Of two addresses on a walk the one that comes first is passed first. -/
theorem Walks.sublist (h : lay.Walks P as ps) {a b : Address} (ha : a ∈ as) (hb : b ∈ as)
    (hlt : compare a b = .lt) : [a, b].Sublist as := by
  -- only the order of the addresses matters for the induction
  have hsorted := h.sorted
  clear h
  induction as with
  | nil => cases ha
  | cons c as ih =>
    obtain ⟨hfirst, hrest⟩ := List.pairwise_cons.mp hsorted
    -- the first of the two is the head, or both come later
    rcases List.mem_cons.mp ha with rfl | ha'
    · rcases List.mem_cons.mp hb with rfl | hb'
      · exact absurd hlt (Address.compare_self_ne_lt b)
      · exact (List.singleton_sublist.mpr hb').cons_cons a
    · rcases List.mem_cons.mp hb with rfl | hb'
      · exact absurd hlt (Address.compare_asymm (hfirst a ha'))
      · exact (ih ha' hb' hrest).cons c

/-- The nodes of a walk stand at its addresses. -/
theorem Walks.map_fst (h : lay.Walks P as ps) :
    List.Forall₂ (fun a id => lay a = some id) as (ps.map Prod.fst) :=
  List.forall₂_map_right_iff.mpr (h.stands.imp fun _ _ ha => ha.1)

/-- A walk comes to no address twice. -/
theorem Walks.nodup (h : lay.Walks P as ps) : as.Nodup :=
  h.sorted.imp fun {a b} hlt => by
    rintro rfl
    exact Address.compare_self_ne_lt a hlt

/-- There is one walk through a part of the forest. -/
theorem Walks.unique {lay' : Layout} {as' : List Address} {ps' : List (NodeId × Nat)}
    (h : lay.Walks P as ps) (h' : lay'.Walks P as' ps')
    (htaken : ∀ a, (∃ id, lay a = some id) ↔ ∃ id, lay' a = some id) : as = as' := by
  have hperm : as.Perm as' := by
    rw [List.perm_ext_iff_of_nodup h.nodup h'.nodup]
    intro a
    rw [h.mem_iff, h'.mem_iff, htaken]
  exact hperm.eq_of_pairwise (fun a b _ _ hab hba => absurd hba (Address.compare_asymm hab))
    h.sorted h'.sorted

end Layout

namespace Index

/-- The nodes at and below an address with their depths, at most `bound` levels of them. -/
def chainAt (t : Index) (lay : Layout) (bound : Nat) (a : Address) : List (NodeId × Nat) :=
  (lay a).elim [] fun id => t.chainDown bound id a.trail.length

/-- Every file with a root of its own has it at its address, and there are no other roots but the
common one. -/
def Rooted (t : Index) (lay : Layout) : Prop :=
  ∀ (k : List PathComponent) (id : NodeId), lay (.isolated k) = some id ↔
    ∃ f, t.files[k]? = some f ∧ f.isolated = true ∧ f.top = id

namespace Laid

variable {t : Index} {lay : Layout} {a : Address} {id : NodeId}

/-- Nothing hangs from an address without a node. -/
theorem chainAt_eq_nil (ha : lay a = none) (bound : Nat) : t.chainAt lay bound a = [] := by
  rw [chainAt, ha]
  rfl

/-- A node comes before what hangs from its children. -/
theorem chainAt_succ (h : t.Laid lay) (ha : lay a = some id) {n : Node}
    (hn : t.node? id = some n) (bound : Nat) :
    t.chainAt lay (bound + 1) a = (id, a.trail.length) ::
      (n.children.toList.map fun e => a.child e.1).flatMap (t.chainAt lay bound) := by
  rw [chainAt, ha, Option.elim_some, chainDown, hn]
  simp only [values_eq_map_toList, List.flatMap_map]
  congr 1
  refine List.flatMap_congr fun e he => ?_
  rw [Std.ExtTreeMap.mem_toList_iff_getElem?_eq_some, h.child_eq ha hn] at he
  rw [chainAt, he]
  rfl

/-- Going down from an address far enough is a walk through all that is at or below it. -/
theorem exists_walks_chainAt (h : t.Laid lay) (bound : Nat) (a : Address)
    (hbound : t.nextId ≤ a.trail.length + bound) :
    ∃ as, lay.Walks (a ≤ ·) as (t.chainAt lay bound a) := by
  -- by induction on the bound; where it is used up, no node can stand any more
  induction bound generalizing a with
  | zero =>
    have ha : lay a = none := by
      rw [Option.eq_none_iff_forall_ne_some]
      intro id ha
      exact absurd (h.length_trail_lt ha) (Nat.not_lt_of_le hbound)
    rw [chainAt_eq_nil ha]
    exact ⟨[], Layout.walks_nil fun b hle => h.eq_none_of_le ha hle⟩
  | succ bound ih =>
    cases ha : lay a with
    | none =>
      rw [chainAt_eq_nil ha]
      exact ⟨[], Layout.walks_nil fun b hle => h.eq_none_of_le ha hle⟩
    | some id =>
      obtain ⟨n, hn⟩ := h.exists_node ha
      rw [h.chainAt_succ ha hn]
      -- the children come one after the other, by name
      have hsorted : (n.children.toList.map fun e => a.child e.1).Pairwise
          fun s s' => ∀ b c, s ≤ b → s' ≤ c → compare b c = .lt := by
        rw [List.pairwise_map]
        refine Std.ExtTreeMap.ordered_keys_toList.imp fun {e e'} hlt b c hb hc => ?_
        exact Address.compare_eq_lt_of_siblings hb hc hlt
      obtain ⟨as, has⟩ := Layout.exists_walks_flatMap (fun s hs => by
        obtain ⟨e, -, rfl⟩ := List.mem_map.mp hs
        exact ih (a.child e.1) (by
          rwa [Address.trail_child, List.length_cons, Nat.succ_add_eq_add_succ])) hsorted
      -- a node strictly below is at or below some child
      have hbelow : ∀ b, (∃ j, lay b = some j) →
          ((∃ s ∈ n.children.toList.map fun e => a.child e.1, s ≤ b) ↔ a < b) := by
        rintro b ⟨j, hb⟩
        rw [Address.lt_iff_exists_child_le]
        constructor
        · rintro ⟨s, hs, hle⟩
          obtain ⟨e, -, rfl⟩ := List.mem_map.mp hs
          exact ⟨e.1, hle⟩
        · rintro ⟨x, hle⟩
          obtain ⟨c, hc⟩ := h.closed_of_le hb hle
          rw [← h.child_eq ha hn, ← Std.ExtTreeMap.mem_toList_iff_getElem?_eq_some] at hc
          exact ⟨a.child x, List.mem_map_of_mem hc, hle⟩
      have hwalk := has.congr hbelow
      refine ⟨a :: as, .cons ⟨ha, rfl⟩ hwalk.stands, List.pairwise_cons.mpr ⟨fun b hb => ?_,
        hwalk.sorted⟩, fun b => ?_⟩
      · exact Address.compare_eq_lt_of_lt ((hwalk.mem_iff b).mp hb).1
      · rw [List.mem_cons, hwalk.mem_iff, le_iff_eq_or_lt, or_and_right]
        refine or_congr_left ⟨?_, fun hb => hb.1.symm⟩
        rintro rfl
        exact ⟨rfl, id, ha⟩

/-- The list of all nodes is a walk through the whole forest. -/
theorem exists_walks_preorder (h : t.Laid lay) (hrooted : t.Rooted lay) :
    ∃ as, lay.Walks (fun _ => True) as t.preorder := by
  have hfile : ∀ {e}, e ∈ t.files.toList.filter (fun e => e.2.isolated) →
      lay (.isolated e.1) = some e.2.top := by
    intro e he
    rw [List.mem_filter, Std.ExtTreeMap.mem_toList_iff_getElem?_eq_some] at he
    exact (hrooted _ _).mpr ⟨e.2, he.1, he.2, rfl⟩
  have hpreorder : t.preorder = (Address.origin ::
      (t.files.toList.filter fun e => e.2.isolated).map fun e => .isolated e.1).flatMap
        (t.chainAt lay t.nextId) := by
    rw [preorder, isolatedFiles, values_eq_map_toList, List.filter_map, List.map_map,
      List.flatMap_cons, List.flatMap_cons, List.flatMap_map, List.flatMap_map]
    congr 1
    · rw [chainAt, h.root_at]
      rfl
    · refine List.flatMap_congr fun e he => ?_
      rw [chainAt, hfile he]
      rfl
  -- the common namespace comes first, then the isolated files by path
  have hsorted : (Address.origin ::
      (t.files.toList.filter fun e => e.2.isolated).map fun e => Address.isolated e.1).Pairwise
        fun s s' => ∀ b c, s ≤ b → s' ≤ c → compare b c = .lt := by
    refine List.pairwise_cons.mpr ⟨fun s hs b c hb hc => ?_, ?_⟩
    · obtain ⟨e, -, rfl⟩ := List.mem_map.mp hs
      refine Address.compare_eq_lt_of_home ?_
      rw [← hb.1, ← hc.1]
      rfl
    · rw [List.pairwise_map]
      refine (Std.ExtTreeMap.ordered_keys_toList.filter _).imp fun {e e'} hlt b c hb hc => ?_
      refine Address.compare_eq_lt_of_home ?_
      rw [← hb.1, ← hc.1]
      exact hlt
  obtain ⟨as, has⟩ := Layout.exists_walks_flatMap (fun s hs =>
    h.exists_walks_chainAt t.nextId s (Nat.le_add_left _ _)) hsorted
  rw [hpreorder]
  refine ⟨as, has.congr fun a ⟨id, ha⟩ => iff_true_intro ?_⟩
  -- every node is below the common root or below that of an isolated file
  obtain ⟨home, trail⟩ := a
  cases home with
  | none => exact ⟨_, List.mem_cons_self, rfl, List.nil_suffix⟩
  | some k =>
    have hle : Address.isolated k ≤ ⟨some k, trail⟩ := ⟨rfl, List.nil_suffix⟩
    obtain ⟨r, hr⟩ := h.closed_of_le ha hle
    obtain ⟨f, hf, hisolated, -⟩ := (hrooted k r).mp hr
    have hmem : (k, f) ∈ t.files.toList.filter fun e => e.2.isolated :=
      List.mem_filter.mpr ⟨Std.ExtTreeMap.mem_toList_iff_getElem?_eq_some.mpr hf, hisolated⟩
    exact ⟨_, List.mem_cons_of_mem _ (List.mem_map_of_mem hmem), hle⟩

end Laid

end Index

end SemanticIndex
