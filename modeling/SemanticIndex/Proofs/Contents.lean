import SemanticIndex.Proofs.Forest.Change
import SemanticIndex.Proofs.Naming
import SemanticIndex.Proofs.Summaries

/-!
# What an Index Holds

Files deposit fragments at addresses. An index holds some deposits in a layout when each node has
the fragments deposited at its address, in the order in which they were deposited, the name table
is right and the nodes are current, apart from some that still have to be summed up
(`Index.Holds`).

Summing up a list of nodes leaves no stale ones among them (`Index.Holds.foldl_refresh`), and what
it does to each node is known (`Index.node?_foldl_refresh`).
-/

namespace SemanticIndex

/-- A fragment and the address of the node that it is put on. -/
abbrev Deposit := Address × Fragment

/-- The fragments deposited at an address, in order. -/
def fragmentsAt (ds : List Deposit) (a : Address) : List Fragment :=
  (ds.filter fun d => d.1 = a).map Prod.snd

theorem mem_fragmentsAt_iff {ds : List Deposit} {a : Address} {f : Fragment} :
    f ∈ fragmentsAt ds a ↔ (a, f) ∈ ds := by
  simp [fragmentsAt]

theorem fragmentsAt_append (ds ds' : List Deposit) (a : Address) :
    fragmentsAt (ds ++ ds') a = fragmentsAt ds a ++ fragmentsAt ds' a := by
  simp [fragmentsAt]

theorem fragmentsAt_singleton (a b : Address) (f : Fragment) :
    fragmentsAt [(a, f)] b = if a = b then [f] else [] := by
  by_cases h : a = b <;> simp [fragmentsAt, h]

/-- Deposits that are left out are missing where they were. -/
theorem fragmentsAt_filter (ds : List Deposit) (p : Fragment → Bool) (a : Address) :
    fragmentsAt (ds.filter fun d => p d.2) a = (fragmentsAt ds a).filter p := by
  rw [fragmentsAt, fragmentsAt, List.filter_map, List.filter_filter, List.filter_filter]
  simp only [Function.comp_def, Bool.and_comm]

/-- Nothing stands at an address exactly if nothing has been deposited there. -/
theorem fragmentsAt_eq_nil_iff {ds : List Deposit} {a : Address} :
    fragmentsAt ds a = [] ↔ ∀ d ∈ ds, d.1 ≠ a := by
  simp [fragmentsAt, List.filter_eq_nil_iff]

namespace Index

/-- `u` has the options, the file records and the templates of `t`, and has handed out no fewer
numbers. -/
structure SameFiles (t u : Index) : Prop where
  options_eq : u.options = t.options
  files_eq : u.files = t.files
  registrations_eq : u.registrations = t.registrations
  next_le : t.nextId ≤ u.nextId

namespace SameFiles

variable {t u w : Index}

protected theorem rfl : t.SameFiles t := ⟨rfl, rfl, rfl, Nat.le_refl _⟩

theorem trans (h : t.SameFiles u) (h' : u.SameFiles w) : t.SameFiles w :=
  ⟨h'.options_eq.trans h.options_eq, h'.files_eq.trans h.files_eq,
    h'.registrations_eq.trans h.registrations_eq, Nat.le_trans h.next_le h'.next_le⟩

/-- What each step keeps, a sequence of steps keeps. -/
theorem foldl {α : Type} {f : Index → α → Index} (hstep : ∀ t x, SameFiles t (f t x)) (xs : List α)
    (t : Index) : t.SameFiles (xs.foldl f t) := by
  induction xs generalizing t with
  | nil => exact .rfl
  | cons x xs ih => exact (hstep t x).trans (ih _)

end SameFiles

/-- The nodes of `t` stand as `lay` says and hold the fragments `ds`. Those in `stale` may still
have to be summed up. -/
structure Holds (t : Index) (lay : Layout) (ds : List Deposit) (stale : List NodeId) : Prop where
  laid : t.Laid lay
  named : t.Named
  fragments_eq : ∀ {a : Address} {id : NodeId} {n : Node}, lay a = some id → t.node? id = some n →
    n.fragments = fragmentsAt ds a
  placed : ∀ d ∈ ds, ∃ id, lay d.1 = some id
  current : ∀ {id : NodeId} {n : Node}, t.node? id = some n → id ∉ stale → n.IsCurrent t.options

namespace Holds

variable {t u : Index} {lay : Layout} {ds : List Deposit} {stale : List NodeId} {id : NodeId}

/-- The files and the templates do not matter. -/
theorem congr (h : t.Holds lay ds stale) (hoptions : u.options = t.options)
    (hnodes : u.nodes = t.nodes) (hnext : u.nextId = t.nextId) (hnames : u.names = t.names) :
    u.Holds lay ds stale := by
  have hnode : ∀ i, u.node? i = t.node? i := fun i => by rw [node?, node?, hnodes]
  refine { laid := ?_, named := ?_, fragments_eq := ?_, placed := h.placed, current := ?_ }
  · exact h.laid.congr hnext fun i => by rw [hnode]
  · exact h.named.congr hnames fun i => by rw [hnode]
  · intro a id n ha hn
    exact h.fragments_eq ha (hnode id ▸ hn)
  · intro id n hn hid
    rw [hoptions]
    exact h.current (hnode id ▸ hn) hid

theorem mono {stale' : List NodeId} (h : t.Holds lay ds stale) (hsub : stale ⊆ stale') :
    t.Holds lay ds stale' :=
  { h with current := fun hn hid => h.current hn fun hmem => hid (hsub hmem) }

/-- A node that has no deposits is not kept by fragments. -/
theorem fragments_eq_nil_iff {a : Address} {n : Node} (h : t.Holds lay ds stale)
    (ha : lay a = some id) (hn : t.node? id = some n) :
    n.fragments = [] ↔ ∀ d ∈ ds, d.1 ≠ a := by
  rw [h.fragments_eq ha hn, fragmentsAt_eq_nil_iff]

/-- Where further fragments are deposited, the nodes that do not move have their fragments first. -/
theorem fragments_extend {ds' : List Deposit} {stale' : List NodeId} {lay' : Layout} {a : Address}
    {n m : Node} (h : t.Holds lay ds stale) (hu : u.Holds lay' (ds ++ ds') stale')
    (ha : lay a = some id) (ha' : lay' a = some id) (hn : t.node? id = some n)
    (hm : u.node? id = some m) : n.fragments <+: m.fragments := by
  rw [h.fragments_eq ha hn, hu.fragments_eq ha' hm, fragmentsAt_append]
  exact List.prefix_append _ _

end Holds

/-- The empty index holds nothing. -/
theorem holds_empty (options : IndexOptions) : (empty options).Holds emptyLayout [] [] := by
  have hnode : ∀ {id n}, (empty options).node? id = some n → n = .new "" "" [] := by
    intro id n hn
    rw [node?_empty] at hn
    split at hn
    · exact (Option.some.inj hn).symm
    · cases hn
  refine { laid := laid_empty options, named := named_empty options, fragments_eq := ?_,
           placed := ?_, current := ?_ }
  · intro a id n _ hn
    rw [hnode hn]
    rfl
  · simp
  · intro id n hn _
    rw [hnode hn]
    exact Node.isCurrent_new _ "" []

/-! ### Summing up -/

theorem nextId_refresh (t : Index) (id : NodeId) : (t.refresh id).nextId = t.nextId := by
  unfold refresh
  split <;> rfl

/-- Refreshing makes no node. -/
theorem nextId_foldl_refresh (ids : List NodeId) (t : Index) :
    (ids.foldl refresh t).nextId = t.nextId := by
  induction ids generalizing t with
  | nil => rfl
  | cons id ids ih => rw [List.foldl_cons, ih, nextId_refresh]

/-- Refreshing changes no file. -/
theorem sameFiles_refresh (t : Index) (id : NodeId) : t.SameFiles (t.refresh id) := by
  unfold refresh
  split
  · exact .rfl
  · exact ⟨rfl, rfl, rfl, Nat.le_refl _⟩

/-- Refreshing changes one node. -/
theorem node?_refresh (t : Index) (id i : NodeId) :
    (t.refresh id).node? i =
      if i = id then (t.node? i).map (Node.refreshed t.options) else t.node? i := by
  unfold refresh
  cases hn : t.node? id with
  | none =>
    by_cases hi : i = id
    · subst hi
      simp [hn]
    · simp [hi]
  | some n =>
    by_cases hi : i = id
    · subst hi
      simp only [node?] at hn ⊢
      simp [hn]
    · simp [node?, Std.ExtTreeMap.getElem?_insert, hi, Ne.symm hi]

/-- A node that has been refreshed stays as it is. -/
theorem refreshed_refreshed (options : IndexOptions) (n : Node) :
    (n.refreshed options).refreshed options = n.refreshed options := by
  have hlink : (n.refreshed options).isLink options = n.isLink options := rfl
  unfold Node.refreshed at hlink ⊢
  simp only [hlink]
  congr 1
  split <;> rfl

section

variable {t : Index} {lay : Layout} {ds : List Deposit}

/-- Where `f` changes one node by `g` and nothing comes of changing it twice, going through a list
changes each node of the list, however often it is listed. -/
theorem node?_foldl {f : Index → NodeId → Index} {g : IndexOptions → Node → Node}
    (hoptions : ∀ t id, (f t id).options = t.options)
    (hnode : ∀ t id i, (f t id).node? i =
      if i = id then (t.node? i).map (g t.options) else t.node? i)
    (hg : ∀ options n, g options (g options n) = g options n) (ids : List NodeId) (t : Index)
    (i : NodeId) :
    (ids.foldl f t).node? i = if i ∈ ids then (t.node? i).map (g t.options) else t.node? i := by
  induction ids generalizing t with
  | nil => simp
  | cons id ids ih =>
    -- changed now, later, or both times
    rw [List.foldl_cons, ih, hnode, hoptions]
    by_cases hi : i = id <;> by_cases hmem : i ∈ ids <;>
      simp [hi, hmem, Function.comp_def, hg]

/-- Refreshing some nodes refreshes each of them. -/
theorem node?_foldl_refresh (ids : List NodeId) (t : Index) (i : NodeId) :
    (ids.foldl refresh t).node? i =
      if i ∈ ids then (t.node? i).map (Node.refreshed t.options) else t.node? i :=
  node?_foldl (fun t id => (sameFiles_refresh t id).options_eq) node?_refresh refreshed_refreshed
    ids t i

/-- A node that is summed up is no longer stale. -/
theorem Holds.refresh {id : NodeId} {stale : List NodeId} (h : t.Holds lay ds (id :: stale)) :
    (t.refresh id).Holds lay ds stale := by
  have hshape : ∀ i, ((t.refresh id).node? i).map Node.shape = (t.node? i).map Node.shape := by
    intro i
    rw [node?_refresh]
    split
    · rw [Option.map_map]
      rfl
    · rfl
  refine { laid := h.laid.congr (nextId_refresh t id) hshape, named := h.named.refresh id,
           fragments_eq := ?_, placed := h.placed, current := ?_ }
  · intro a i m ha hm
    rw [node?_refresh] at hm
    split at hm
    · obtain ⟨n, hn, rfl⟩ := Option.map_eq_some_iff.mp hm
      show n.fragments = _
      exact h.fragments_eq ha hn
    · exact h.fragments_eq ha hm
  · intro i m hm hi
    rw [(sameFiles_refresh t id).options_eq]
    rw [node?_refresh] at hm
    split at hm
    · obtain ⟨n, -, rfl⟩ := Option.map_eq_some_iff.mp hm
      exact Node.isCurrent_refreshed t.options n
    · rename_i hne
      exact h.current hm (by simp [hne, hi])

/-- Once all nodes that were out of date are refreshed, none is. -/
theorem Holds.foldl_refresh {ids : List NodeId} (h : t.Holds lay ds ids) :
    (ids.foldl Index.refresh t).Holds lay ds [] := by
  induction ids generalizing t with
  | nil => exact h
  | cons id ids ih => exact ih h.refresh

end

end Index

end SemanticIndex
