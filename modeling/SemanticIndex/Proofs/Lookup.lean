import SemanticIndex.Proofs.Copying

/-!
# What Look-up Answers

Where a dotted name leads is said of the forest alone (`Index.Leads`), without the name table. A
look-up answers a node to which the name leads from its anchor and which is accepted, of all these
one that is nearest to its root and, of those, first by path
(`Index.Built.isFirstMatch_of_lookup?_eq`); it answers none only if there are none
(`Index.Built.lookup?_eq_none_iff`). All that this takes of the name table is that the candidates
for a segment are the nodes of that name (`Index.IsComplete`).
-/

namespace SemanticIndex

namespace Index

/-! ### Ranks -/

/-- The number of nodes on the way from its root down to a node. -/
def depth (t : Index) (id : NodeId) : Nat := (t.ancestors id).length

/-- `a` is nearer to its root than `b`, or as near and not after it by path. -/
def NoLater (t : Index) (a b : NodeId) : Prop :=
  t.depth a < t.depth b ∨ t.depth a = t.depth b ∧ t.path a ≤ t.path b

/-- Neither of two nodes is later than the other. -/
def Tied (t : Index) (a b : NodeId) : Prop := t.depth a = t.depth b ∧ t.path a = t.path b

section

variable {t : Index} {a b c id : NodeId} {ids : List NodeId}

/-- A node comes no later than another one exactly if that is not ranked before it. -/
theorem noLater_iff : t.NoLater a b ↔ t.ranksBefore b a = false := by
  rw [ranksBefore, NoLater, depth, depth]
  rcases Nat.lt_trichotomy (t.ancestors a).length (t.ancestors b).length with h | h | h
  · simp [Nat.compare_eq_gt.mpr h, h]
  · rw [h, Nat.compare_eq_eq.mpr rfl, Ordering.eq_then, beq_eq_false_iff_ne, ne_eq,
      show compare (t.path b) (t.path a) = .lt ↔ t.path b < t.path a from compareOfLessAndEq_eq_lt,
      String.not_lt]
    simp
  · simp [Nat.compare_eq_lt.mpr h, Nat.not_lt_of_lt h, Nat.ne_of_gt h]

theorem noLater_refl (t : Index) (a : NodeId) : t.NoLater a a := Or.inr ⟨rfl, String.le_refl _⟩

theorem NoLater.trans (h : t.NoLater a b) (h' : t.NoLater b c) : t.NoLater a c := by
  unfold NoLater at *
  rcases h with h | ⟨h, hpath⟩ <;> rcases h' with h' | ⟨h', hpath'⟩
  · exact Or.inl (Nat.lt_trans h h')
  · exact Or.inl (h' ▸ h)
  · exact Or.inl (h ▸ h')
  · exact Or.inr ⟨h.trans h', String.le_trans hpath hpath'⟩

/-- Nodes of which neither comes later are tied. -/
theorem NoLater.tied (h : t.NoLater a b) (h' : t.NoLater b a) : t.Tied a b := by
  rcases h with hlt | ⟨heq, hle⟩ <;> rcases h' with hlt' | ⟨heq', hle'⟩
  · exact absurd hlt' (Nat.lt_asymm hlt)
  · exact absurd heq' (Nat.ne_of_gt hlt)
  · exact absurd heq (Nat.ne_of_gt hlt')
  · exact ⟨heq, String.le_antisymm hle hle'⟩

/-- Of two nodes one comes no later. -/
theorem noLater_total (t : Index) (a b : NodeId) : t.NoLater a b ∨ t.NoLater b a := by
  unfold NoLater
  rcases Nat.lt_trichotomy (t.depth a) (t.depth b) with h | h | h
  · exact Or.inl (Or.inl h)
  · exact (String.le_total (t.path a) (t.path b)).imp (fun hpath => Or.inr ⟨h, hpath⟩)
      fun hpath => Or.inr ⟨h.symm, hpath⟩
  · exact Or.inr (Or.inl h)

/-- What ranks before is no later. -/
theorem noLater_of_ranksBefore (h : t.ranksBefore a b = true) : t.NoLater a b := by
  refine (noLater_total t a b).resolve_right fun hlater => ?_
  rw [noLater_iff.mp hlater] at h
  cases h

theorem best?_cons_cons (t : Index) (a b : NodeId) (ids : List NodeId) :
    t.best? (a :: b :: ids) = t.best? ((if t.ranksBefore b a then b else a) :: ids) := by
  rw [best?, best?, List.foldl_cons, List.foldl_cons, List.foldl_cons, apply_ite some]

/-- Of some nodes the best is one that is no later than the others. -/
theorem exists_best?_cons (t : Index) (a : NodeId) (ids : List NodeId) :
    ∃ b, t.best? (a :: ids) = some b ∧ b ∈ a :: ids ∧ ∀ c ∈ a :: ids, t.NoLater b c := by
  induction ids generalizing a with
  | nil =>
    refine ⟨a, rfl, List.mem_singleton_self a, fun c hc => ?_⟩
    rw [List.mem_singleton.mp hc]
    exact noLater_refl t a
  | cons x ids ih =>
    -- of the first two the better one stays in the list, and the other one is no earlier
    obtain ⟨b, hb, hmem, hfirst⟩ := ih (if t.ranksBefore x a then x else a)
    have hnext := hfirst _ List.mem_cons_self
    refine ⟨b, by rw [best?_cons_cons, hb], ?_, ?_⟩
    · grind
    · have hboth : t.NoLater b a ∧ t.NoLater b x := by
        split at hnext
        · rename_i hx
          exact ⟨hnext.trans (noLater_of_ranksBefore hx), hnext⟩
        · rename_i hx
          exact ⟨hnext, hnext.trans (noLater_iff.mpr (Bool.eq_false_iff.mpr hx))⟩
      rintro c (_ | ⟨_, _ | ⟨_, hc⟩⟩)
      · exact hboth.1
      · exact hboth.2
      · exact hfirst c (List.mem_cons_of_mem _ hc)

/-- The first of some nodes is the best if no other one is earlier. -/
theorem best?_cons_of_noLater (h : ∀ c ∈ ids, t.NoLater a c) : t.best? (a :: ids) = some a := by
  induction ids with
  | nil => rfl
  | cons x ids ih =>
    obtain ⟨hx, hids⟩ := List.forall_mem_cons.mp h
    rw [best?_cons_cons, noLater_iff.mp hx]
    exact ih hids

/-- There is no best node exactly if there is none. -/
theorem best?_eq_none_iff : t.best? ids = none ↔ ids = [] := by
  cases ids with
  | nil => exact iff_of_true rfl rfl
  | cons a ids =>
    obtain ⟨b, hb, -⟩ := exists_best?_cons t a ids
    rw [hb]
    exact iff_of_false (Option.some_ne_none b) (List.cons_ne_nil a ids)

/-- The best node is one of them, and no other one comes before it. -/
theorem best?_eq_some (h : t.best? ids = some b) : b ∈ ids ∧ ∀ c ∈ ids, t.NoLater b c := by
  cases ids with
  | nil => cases h
  | cons a ids =>
    obtain ⟨b', hb, hbest⟩ := exists_best?_cons t a ids
    rw [hb, Option.some.injEq] at h
    exact h ▸ hbest

end

/-! ### Where a name leads -/

/-- A dotted name leads to `id` from a node in reach of `anchor`: that node is called by the first
of its segments, and the others lead on from child to child. Sigils do not count, and a segment of
sigils alone calls no node. -/
inductive Leads (t : Index) (anchor : NodeId) (mode : LookupMode) (name : String) (id : NodeId) :
    Prop where
  | intro {first : String} {rest : List String} {start : NodeId} {n : Node}
    (segments_eq : nameSegments name = first :: rest) (name_ne : nodeName first ≠ "")
    (node_eq : t.node? start = some n) (name_eq : n.name = nodeName first)
    (inReach : t.inReach anchor mode start = true) (follow_eq : t.follow? start rest = some id)

/-- A dotted name leads to `id`, which is accepted. -/
def Matches (t : Index) (anchor : NodeId) (mode : LookupMode) (name : String) (accept : NodeFilter)
    (id : NodeId) : Prop :=
  t.Leads anchor mode name id ∧ ∃ n, t.node? id = some n ∧ accept id n = true

/-- Of the nodes to which a dotted name leads and which are accepted, `id` is one that is no later
than the others. -/
structure IsFirstMatch (t : Index) (anchor : NodeId) (mode : LookupMode) (name : String)
    (accept : NodeFilter) (id : NodeId) : Prop where
  isMatch : t.Matches anchor mode name accept id
  noLater : ∀ j, t.Matches anchor mode name accept j → t.NoLater id j

variable {t : Index} {L : Ledger} {lay : Layout} {anchor start id : NodeId} {n : Node}
  {mode : LookupMode} {name : String} {accept : NodeFilter}

/-- First matches are tied. -/
theorem IsFirstMatch.tied {j : NodeId} (h : t.IsFirstMatch anchor mode name accept id)
    (hj : t.IsFirstMatch anchor mode name accept j) : t.Tied id j :=
  (h.noLater j hj.isMatch).tied (hj.noLater id h.isMatch)

/-- A landing starts at a candidate for the first segment and ends at an accepted node. -/
theorem mem_landings_iff {l : NodeId × NodeId} :
    l ∈ t.landings name accept ↔
      ∃ first rest, nameSegments name = first :: rest ∧ nodeName first ≠ "" ∧
        l.1 ∈ t.candidates (nodeName first) ∧ t.follow? l.1 rest = some l.2 ∧
        ∃ m, t.node? l.2 = some m ∧ accept l.2 m = true := by
  unfold landings
  cases hsegments : nameSegments name with
  | nil => simp
  | cons first rest =>
    by_cases hname : nodeName first = ""
    · simp [hname]
    · obtain ⟨i, j⟩ := l
      simp only [hname, if_false, List.mem_filterMap, Option.map_eq_some_iff,
        Option.filter_eq_some_iff, Option.any_eq_true, Prod.mk.injEq]
      constructor
      · rintro ⟨i, hi, j, ⟨hfollow, m, hm, haccept⟩, rfl, rfl⟩
        exact ⟨first, rest, rfl, hname, hi, hfollow, m, hm, haccept⟩
      · rintro ⟨first, rest, heq, -, hi, hfollow, m, hm, haccept⟩
        obtain ⟨rfl, rfl⟩ := List.cons.inj heq
        exact ⟨i, hi, j, ⟨hfollow, m, hm, haccept⟩, rfl, rfl⟩

/-- A look-up answers a node that is there and accepted. -/
theorem accepted_of_lookup?_eq (h : t.lookup? anchor name mode accept = some id) :
    ∃ n, t.node? id = some n ∧ accept id n = true := by
  obtain ⟨l, hl, rfl⟩ := List.mem_map.mp (best?_eq_some h).1
  obtain ⟨first, rest, -, -, -, -, haccept⟩ := mem_landings_iff.mp (List.mem_filter.mp hl).1
  exact haccept

/-- So does the resolution of a name. -/
theorem accepted_of_resolveName?_eq {scope : NodeId}
    (h : t.resolveName? scope name accept = some id) :
    ∃ n, t.node? id = some n ∧ accept id n = true := by
  rw [resolveName?_eq, Option.or_eq_some_iff] at h
  rcases h with h | ⟨-, h⟩
  · obtain ⟨before, anchor, after, -, hlookup, -⟩ := List.findSome?_eq_some_iff.mp h
    exact accepted_of_lookup?_eq hlookup
  · exact accepted_of_lookup?_eq h

/-- The index with another name table. -/
def withNames (t : Index) (names : NameTable) : Index := { t with names }

@[simp]
theorem node?_withNames (t : Index) (names : NameTable) (id : NodeId) :
    (t.withNames names).node? id = t.node? id := rfl

/-- The candidates for a segment are the nodes of that name. -/
def IsComplete (t : Index) : Prop :=
  ∀ declared id, id ∈ t.candidates (nodeName declared) ↔
    ∃ n, t.node? id = some n ∧ n.name = nodeName declared

namespace IsComplete

theorem mem_landed_iff (h : t.IsComplete) :
    id ∈ t.landed anchor mode (t.landings name accept) ↔
      t.Matches anchor mode name accept id := by
  simp only [landed, List.mem_map, List.mem_filter, mem_landings_iff, h _ _]
  constructor
  · rintro ⟨⟨start, _⟩, ⟨⟨first, rest, hsegments, hne, ⟨n, hn, hname⟩, hfollow, haccept⟩, hreach⟩,
      rfl⟩
    exact ⟨⟨hsegments, hne, hn, hname, hreach, hfollow⟩, haccept⟩
  · rintro ⟨⟨hsegments, hne, hn, hname, hreach, hfollow⟩, haccept⟩
    exact ⟨(_, id), ⟨⟨_, _, hsegments, hne, ⟨_, hn, hname⟩, hfollow, haccept⟩, hreach⟩, rfl⟩

/-- What is looked up is a first match. -/
theorem isFirstMatch_of_lookup?_eq (h : t.IsComplete)
    (hid : t.lookup? anchor name mode accept = some id) :
    t.IsFirstMatch anchor mode name accept id := by
  obtain ⟨hmem, hfirst⟩ := best?_eq_some hid
  exact ⟨h.mem_landed_iff.mp hmem, fun j hj => hfirst j (h.mem_landed_iff.mpr hj)⟩

/-- Nothing is looked up exactly if nothing matches. -/
theorem lookup?_eq_none_iff (h : t.IsComplete) :
    t.lookup? anchor name mode accept = none ↔
      ∀ j, ¬ t.Matches anchor mode name accept j := by
  rw [lookup?, best?_eq_none_iff, List.eq_nil_iff_forall_not_mem]
  exact forall_congr' fun j => not_congr h.mem_landed_iff

end IsComplete

namespace Built

/-- The real name of a node is its name, perhaps with sigils before it. -/
theorem nodeName_realName (h : t.Built L lay) (hn : t.node? id = some n) :
    nodeName n.realName = n.name := by
  obtain ⟨a, ha⟩ := h.laid.exists_address hn
  rw [(h.current hn List.not_mem_nil).realName_eq, Node.declaredRealName]
  cases hfind : (n.fragments.map Fragment.declaredName).find? fun d => d != "" && d != n.name with
  | none =>
    rw [Option.getD_none, h.laid.name_eq ha hn]
    rcases a.eq_root_or_child with hroot | ⟨p, hp⟩
    · rw [Address.label, hroot]
      rfl
    · rw [hp] at ha
      exact h.laid.plain ha
  -- a name that differs is that of some fragment, which was deposited where such nodes stand
  | some declared =>
    obtain ⟨f, hf, rfl⟩ := List.mem_map.mp (List.mem_of_find?_eq_some hfind)
    rw [h.fragments_eq ha hn, mem_fragmentsAt_iff] at hf
    obtain ⟨e, -, hd⟩ := Ledger.mem_deposits_iff.mp hf
    rw [h.laid.name_eq ha hn]
    exact (Document.label_eq_of_mem_deposits hd).symm

/-- The candidates for a segment are the nodes of that name, if the name table is empty or lists
every node under its names. -/
theorem isComplete_withNames (h : t.Built L lay) {names : NameTable}
    (hnames : names.isEmpty = false → ∀ s i,
      i ∈ names.get s ↔ ∃ n, t.node? i = some n ∧ (n.name = s ∨ n.realName = s)) :
    (t.withNames names).IsComplete := by
  intro declared i
  simp only [node?_withNames]
  have hlisted : i ∈ (t.withNames names).candidates (nodeName declared) ↔
      ∃ n, t.node? i = some n ∧ (n.name = nodeName declared ∨ n.realName = nodeName declared) := by
    unfold candidates
    split
    · have hlaid : (t.withNames names).Laid lay := h.laid.congr rfl fun _ => rfl
      rw [List.mem_filter, hlaid.mem_walk_iff h.rooted, isLive, node?_withNames]
      cases t.node? i <;> simp
    · exact hnames (Bool.eq_false_iff.mpr ‹_›) _ i
  rw [hlisted]
  refine exists_congr fun n => and_congr_right fun hn => ⟨?_, Or.inl⟩
  -- a real name without sigils is the name
  rintro (hname | hreal)
  · exact hname
  · rw [← h.nodeName_realName hn, hreal, nodeName_nodeName]

/-- In a built index the name table is complete. -/
theorem isComplete (h : t.Built L lay) : t.IsComplete :=
  h.isComplete_withNames fun _ => h.named.mem_iff

/-- A look-up answers a first match. -/
theorem isFirstMatch_of_lookup?_eq (h : t.Built L lay)
    (hid : t.lookup? anchor name mode accept = some id) :
    t.IsFirstMatch anchor mode name accept id :=
  h.isComplete.isFirstMatch_of_lookup?_eq hid

/-- It answers none if nothing matches. -/
theorem lookup?_eq_none_iff (h : t.Built L lay) :
    t.lookup? anchor name mode accept = none ↔
      ∀ j, ¬ t.Matches anchor mode name accept j :=
  h.isComplete.lookup?_eq_none_iff

end Built

end Index

end SemanticIndex
