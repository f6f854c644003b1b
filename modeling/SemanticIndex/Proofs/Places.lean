import SemanticIndex.Proofs.Meaning

/-!
# Places

The place of a node is what a reader sees of its address: the isolated file in whose tree it stands,
if any, and its dotted path. Where names lead is decided by addresses alone
(`Index.Laid.leads_iff`), and what a name means from a scope is decided up to its place
(`Index.Built.placeOf_eq_of_nameMeans`).
-/

namespace SemanticIndex

namespace Address

/-- Where the first segment of a name may stand. -/
def Reaches (c : Address) : LookupMode → Address → Prop
  | .child, a => ∃ x, a = c.child x
  | .below, a => c < a

/-- A dotted name leads to an address from one in reach of `c`. -/
inductive Leads (c : Address) (mode : LookupMode) (name : String) : Address → Prop where
  | intro {first : String} {rest : List String} {a : Address}
    (segments_eq : nameSegments name = first :: rest) (name_ne : nodeName first ≠ "")
    (label_eq : a.label = nodeName first) (reaches : c.Reaches mode a) :
    Leads c mode name (a.down (rest.map nodeName))

/-- A name leads to what stands in the same tree. -/
theorem Leads.home_eq {b c : Address} {mode : LookupMode} {name : String}
    (h : c.Leads mode name b) : b.home = c.home := by
  cases h with
  | @intro first rest a _ _ _ reaches =>
    rw [down_eq]
    cases mode with
    | child =>
      obtain ⟨x, rfl⟩ := reaches
      rfl
    | below => exact (le_def.mp (le_of_lt reaches)).1.symm

end Address

namespace Index

/-- The isolated file in whose tree a node stands. -/
def homeFile? (t : Index) (id : NodeId) : Option SourcePath :=
  ((t.ancestors id).getLast?.bind t.fileOfRoot?).map FileRecord.path

/-- What a reader sees of where a node stands. -/
def placeOf (t : Index) (id : NodeId) : Option SourcePath × String := (t.homeFile? id, t.path id)

variable {t : Index} {L : Ledger} {lay : Layout} {a b c : Address} {id anchor : NodeId}
  {mode : LookupMode} {name : String}

namespace Laid

/-! ### Addresses as readers see them -/

/-- A node is one deeper than its trail is long. -/
theorem depth_eq (h : t.Laid lay) (ha : lay a = some id) : t.depth id = a.trail.length + 1 := by
  rw [depth, h.ancestors_eq ha, List.length_cons, h.length_above ha]

/-- The path of a node is made of the names of its address. -/
theorem pathNames_eq (h : t.Laid lay) (ha : lay a = some id) :
    t.pathNames id = a.trail.reverse := by
  induction a generalizing id with
  | root home =>
    obtain ⟨n, hn⟩ := h.exists_node ha
    have hroot : n.isRoot = true := by
      rw [Node.isRoot, h.above_eq ha hn, Layout.above_of_root rfl]
      rfl
    rw [pathNames, h.ancestors_eq ha, Layout.above_of_root rfl, List.filterMap_cons_some hn]
    simp [hroot]
  | child a x ih =>
    obtain ⟨n, hn⟩ := h.exists_node ha
    obtain ⟨p, hp⟩ := h.closed ha
    have habove : lay.above (a.child x) = t.ancestors p := by
      rw [Layout.above_child, hp, h.ancestors_eq hp]
      rfl
    have hroot : n.isRoot = false := by
      rw [Node.isRoot, h.above_eq ha hn, habove, h.ancestors_eq hp]
      rfl
    -- the names of the parent come first
    have hparent := ih hp
    rw [pathNames] at hparent
    rw [pathNames, h.ancestors_eq ha, habove, List.filterMap_cons_some hn, List.filter_cons,
      hroot, Bool.not_false, if_pos rfl, List.reverse_cons, List.map_append, hparent,
      List.map_singleton, h.name_eq ha hn, Address.trail_child, List.reverse_cons,
      Address.label_child]

/-- The path of a node is made of the names of its trail. -/
theorem path_eq (h : t.Laid lay) (ha : lay a = some id) :
    t.path id = ".".intercalate a.trail.reverse := by
  rw [path, h.pathNames_eq ha]

/-- The last of the nodes above a node is the root of its tree. -/
theorem getLast?_ancestors (h : t.Laid lay) (ha : lay a = some id) :
    (t.ancestors id).getLast? = lay ⟨a.home, []⟩ := by
  induction a generalizing id with
  | root home =>
    rw [h.ancestors_eq ha, Layout.above_of_root rfl, List.getLast?_singleton, ha]
  | child a x ih =>
    obtain ⟨p, hp⟩ := h.closed ha
    have hup := ih hp
    rw [h.ancestors_eq hp] at hup
    rw [h.ancestors_eq ha, Layout.above_child, hp, Option.toList_some, List.singleton_append,
      List.getLast?_cons_cons, hup, Address.home_child]

/-- The nodes above a node are there. -/
theorem isLive_of_mem_ancestors (h : t.Laid lay) (hmem : anchor ∈ t.ancestors id) :
    t.isLive anchor = true := by
  rw [ancestors] at hmem
  split at hmem
  · rename_i n hn
    obtain ⟨a, ha⟩ := h.exists_address hn
    rw [h.above_eq ha hn, ← h.ancestors_eq ha, h.mem_ancestors_iff ha] at hmem
    obtain ⟨b, -, hb⟩ := hmem
    exact h.isLive_iff.mpr ⟨b, hb⟩
  · cases hmem

/-- Going down from a node ends at a node. -/
theorem isLive_of_follow? (h : t.Laid lay) (hanchor : t.isLive anchor) {names : List String}
    (hfollow : t.follow? anchor names = some id) : t.isLive id = true := by
  obtain ⟨c, hc⟩ := h.isLive_iff.mp hanchor
  rw [h.follow?_eq hc] at hfollow
  exact h.isLive_iff.mpr ⟨_, hfollow⟩

/-! ### Where names lead -/

/-- A node is in reach of another one if their addresses are so. -/
theorem inReach_iff (h : t.Laid lay) (hc : lay c = some anchor) (ha : lay a = some id) :
    t.inReach anchor mode id = true ↔ c.Reaches mode a := by
  cases mode with
  | child =>
    rw [inReach, beq_iff_eq]
    constructor
    · intro hp
      obtain ⟨p, x, hi, hp⟩ := h.exists_of_parent? hp
      exact ⟨x, by rw [h.injective ha hi, h.injective hp hc]⟩
    · rintro ⟨x, rfl⟩
      obtain ⟨n, hn⟩ := h.exists_node ha
      rw [parent?, hn, Option.bind_some, h.parent_child ha hn, hc]
  | below =>
    rw [inReach, isBelow, h.ancestors_eq ha, List.tail_cons, List.contains_iff_mem,
      Layout.mem_above_iff]
    constructor
    · rintro ⟨b, hlt, hb⟩
      rwa [h.injective hc hb]
    · exact fun hlt => ⟨c, hlt, hc⟩

/-- A node is below another one if their addresses are so. -/
theorem isBelow_iff (h : t.Laid lay) (hc : lay c = some anchor) (ha : lay a = some id) :
    t.isBelow id anchor = true ↔ c < a := by
  show t.inReach anchor .below id = true ↔ c.Reaches .below a
  exact h.inReach_iff hc ha

/-- Where a name leads from a node is decided by the addresses. -/
theorem leads_iff (h : t.Laid lay) (hc : lay c = some anchor) (hb : lay b = some id) :
    t.Leads anchor mode name id ↔ c.Leads mode name b := by
  constructor
  · rintro ⟨hsegments, hne, hn, hname, hreach, hfollow⟩
    obtain ⟨a, ha⟩ := h.exists_address hn
    rw [h.follow?_eq ha] at hfollow
    rw [h.injective hb hfollow]
    exact .intro hsegments hne (by rw [← h.name_eq ha hn, hname]) ((h.inReach_iff hc ha).mp hreach)
  · rintro ⟨hsegments, hne, hlabel, hreach⟩
    obtain ⟨start, ha⟩ := h.closed_of_le hb (Address.le_down _ _)
    obtain ⟨n, hn⟩ := h.exists_node ha
    exact ⟨hsegments, hne, hn, by rw [h.name_eq ha hn, hlabel], (h.inReach_iff hc ha).mpr hreach,
      by rw [h.follow?_eq ha, hb]⟩

end Laid

/-! ### One place -/

/-- What comes first in a list is found at one place of it. -/
theorem eq_of_nearest {α : Type} {P : α → Prop} {before before' after after' : List α} {x x' : α}
    (heq : before ++ x :: after = before' ++ x' :: after') (hx : P x) (hx' : P x')
    (hbefore : ∀ y ∈ before, ¬ P y) (hbefore' : ∀ y ∈ before', ¬ P y) : x = x' := by
  rcases List.append_eq_append_iff.mp heq with ⟨between, hb, ha⟩ | ⟨between, hb, ha⟩
  all_goals
    -- what lies between the two would come before the later one
    cases between with
    | nil => simp_all
    | cons y between => simp_all

namespace Built

/-- The root of an isolated file belongs to that file. -/
theorem fileOfRoot?_eq (h : t.Built L lay) {home : Option (List PathComponent)} {r : NodeId}
    (hr : lay ⟨home, []⟩ = some r) : t.fileOfRoot? r = home.bind fun k => t.files[k]? := by
  have hfile : ∀ {g}, t.fileOfRoot? r = some g →
      ∃ k : List PathComponent, t.files[k]? = some g ∧ home = some k := by
    intro g hg
    have hroot := List.find?_some hg
    rw [Bool.and_eq_true, beq_iff_eq] at hroot
    obtain ⟨k, hk⟩ := mem_values_iff.mp (List.mem_of_find?_eq_some hg)
    have hat := h.isolated_at_iff.mpr ⟨g, hk, hroot.1, hroot.2⟩
    exact ⟨k, hk, congrArg Address.home (h.laid.injective hr hat)⟩
  cases home with
  -- the common root is not the root of an isolated file
  | none =>
    rw [Option.bind_none, Option.eq_none_iff_forall_ne_some]
    intro g hg
    obtain ⟨k, -, hk⟩ := hfile hg
    cases hk
  | some k =>
    obtain ⟨f, hf, hisolated, htop⟩ := h.isolated_at_iff.mp hr
    have hfound : (t.fileOfRoot? r).isSome := by
      rw [fileOfRoot?, List.find?_isSome]
      exact ⟨f, mem_values_iff.mpr ⟨k, hf⟩, by simp [hisolated, htop]⟩
    obtain ⟨g, hg⟩ := Option.isSome_iff_exists.mp hfound
    obtain ⟨k', hk', heq⟩ := hfile hg
    rw [hg, Option.bind_some, Option.some.inj heq, hk']

/-- The file in whose tree a node stands is that of the home of its address. -/
theorem homeFile?_eq (h : t.Built L lay) (ha : lay a = some id) :
    t.homeFile? id = (a.home.bind fun k => t.files[k]?).map FileRecord.path := by
  obtain ⟨r, hr⟩ := h.laid.closed_of_le ha (show (⟨a.home, []⟩ : Address) ≤ a from
    ⟨rfl, List.nil_suffix⟩)
  rw [homeFile?, h.laid.getLast?_ancestors ha, hr, Option.bind_some, h.fileOfRoot?_eq hr]

/-- Of the nodes to which a name leads from one node, those that are no later than the others have
one place. -/
theorem placeOf_eq_of_isFirstMatch (h : t.Built L lay) {accept : NodeFilter} {i j : NodeId}
    (hanchor : t.isLive anchor) (hi : t.IsFirstMatch anchor mode name accept i)
    (hj : t.IsFirstMatch anchor mode name accept j) : t.placeOf i = t.placeOf j := by
  obtain ⟨hleads, n, hn, -⟩ := hi.isMatch
  obtain ⟨hleads', m, hm, -⟩ := hj.isMatch
  obtain ⟨c, hc⟩ := h.laid.isLive_iff.mp hanchor
  obtain ⟨a, ha⟩ := h.laid.exists_address hn
  obtain ⟨b, hb⟩ := h.laid.exists_address hm
  -- both stand in the tree of the node from which the name leads
  have hhome : a.home = b.home :=
    ((h.laid.leads_iff hc ha).mp hleads).home_eq.trans
      ((h.laid.leads_iff hc hb).mp hleads').home_eq.symm
  rw [placeOf, placeOf, h.homeFile?_eq ha, h.homeFile?_eq hb, hhome, (hi.tied hj).2]

/-- What a name means from a scope is decided up to its place. -/
theorem placeOf_eq_of_nameMeans (h : t.Built L lay) {scope : NodeId} {accept : NodeFilter}
    {r r' : Option NodeId} (hr : t.NameMeans scope name accept r)
    (hr' : t.NameMeans scope name accept r') : r.map t.placeOf = r'.map t.placeOf := by
  cases hr with
  | @below before after anchor i hchain hnearest hfirst =>
    have hmem : anchor ∈ t.ancestors scope := hchain ▸ by simp
    cases hr' with
    | @below before' after' anchor' j hchain' hnearest' hfirst' =>
      obtain rfl : anchor = anchor' :=
        eq_of_nearest (P := fun i => ∃ j, t.Matches i .below name accept j)
          (hchain.symm.trans hchain') ⟨i, hfirst.isMatch⟩ ⟨j, hfirst'.isMatch⟩
          (fun y hy ⟨k, hk⟩ => hnearest y hy k hk) fun y hy ⟨k, hk⟩ => hnearest' y hy k hk
      exact congrArg some (h.placeOf_eq_of_isFirstMatch (h.laid.isLive_of_mem_ancestors hmem)
        hfirst hfirst')
    | common hnot => exact absurd hfirst.isMatch (hnot anchor hmem i)
    | nothing hnot => exact absurd hfirst.isMatch (hnot anchor hmem i)
  -- below the common root a name leads to one node at most
  | @common i n hnot hleads hn haccept =>
    cases hr' with
    | below hchain' _ hfirst' =>
      exact absurd hfirst'.isMatch (hnot _ (hchain' ▸ by simp) _)
    | common _ hleads' => rw [leadsFrom_unique hleads hleads']
    | nothing _ hnot' =>
      rw [hnot' i n hleads hn] at haccept
      cases haccept
  | nothing hnot hnot' =>
    cases hr' with
    | below hchain' _ hfirst' => exact absurd hfirst'.isMatch (hnot _ (hchain' ▸ by simp) _)
    | common _ hleads hn haccept =>
      rw [hnot' _ _ hleads hn] at haccept
      cases haccept
    | nothing => rfl

end Built

end Index

end SemanticIndex
