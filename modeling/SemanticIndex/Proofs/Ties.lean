import SemanticIndex.Proofs.Fidelity
import SemanticIndex.Proofs.Paths
import SemanticIndex.Proofs.Searching

/-!
# Ties

A name may lead to several nodes of one depth and one path, as a name may hold dots: `b.c` below
`a` and `c` below `a.b` have the path `a.b.c`. Of such nodes a look-up answers the one that comes
first in the name table. So each first match is the answer for some order of the table, and no other
node is (`Index.Built.isFirstMatch_iff_exists_reordered`). If no name below the anchor holds a dot,
there is one first match at most (`Index.Built.eq_of_isFirstMatch`), and the order does not count.
-/

namespace SemanticIndex

namespace NameTable

variable {names names' : NameTable} {s : String}

/-- The tables have the same names, and under each the same nodes in some order. -/
def Reordered (names names' : NameTable) : Prop :=
  ∀ s : String, Option.Rel List.Perm names.lists[s]? names'.lists[s]?

/-- A reordered table lists the same nodes under each name. -/
theorem Reordered.get_perm (h : names.Reordered names') (s : String) :
    (names.get s).Perm (names'.get s) := by
  have hs := h s
  rw [get, get]
  generalize names.lists[s]? = ids at hs ⊢
  generalize names'.lists[s]? = ids' at hs ⊢
  cases hs with
  | none => exact .refl _
  | some hperm => exact hperm

/-- Tidy tables that list the same nodes under each name differ in their order only. -/
theorem Tidy.reordered (h : names.Tidy) (h' : names'.Tidy)
    (hmem : ∀ s i, i ∈ names'.get s ↔ i ∈ names.get s) : names.Reordered names' := by
  intro s
  have hperm : (names.get s).Perm (names'.get s) :=
    (List.perm_ext_iff_of_nodup (h.nodup s) (h'.nodup s)).mpr fun i => (hmem s i).symm
  rw [h.lists_eq, h'.lists_eq]
  have hnil : names.get s = [] ↔ names'.get s = [] := by
    rw [← List.length_eq_zero_iff, hperm.length_eq, List.length_eq_zero_iff]
  by_cases hempty : names'.get s = []
  · rw [if_pos (hnil.mpr hempty), if_pos hempty]
    exact .none
  · rw [if_neg (mt hnil.mp hempty), if_neg hempty]
    exact .some hperm

/-- The table with a node before the others of a name. -/
def putFirst (names : NameTable) (name : String) (id : NodeId) : NameTable :=
  ⟨names.lists.insert name (id :: (names.get name).erase id)⟩

/-- A node that is put first is listed first. -/
theorem get_putFirst (names : NameTable) (name : String) (id : NodeId) :
    (names.putFirst name id).get name = id :: (names.get name).erase id := by
  rw [get, putFirst, Std.ExtTreeMap.getElem?_insert_self, Option.getD_some]

theorem isEmpty_putFirst (names : NameTable) (name : String) (id : NodeId) :
    (names.putFirst name id).isEmpty = false :=
  Std.ExtTreeMap.isEmpty_eq_false_iff.mpr Std.ExtTreeMap.insert_ne_empty

/-- Putting a node first reorders the table. -/
theorem reordered_putFirst {name : String} {id : NodeId} (hid : id ∈ names.get name) :
    names.Reordered (names.putFirst name id) := by
  intro s
  rw [putFirst, Std.ExtTreeMap.getElem?_insert]
  split
  · rename_i heq
    obtain rfl := Std.LawfulEqCmp.eq_of_compare heq
    rw [get] at hid ⊢
    cases hs : names.lists[name]? with
    | none =>
      rw [hs] at hid
      cases hid
    | some ids =>
      rw [hs] at hid
      exact .some (List.perm_cons_erase hid)
  · cases names.lists[s]? with
    | none => exact .none
    | some ids => exact .some (.refl ids)

end NameTable

namespace Address

/-- What a name leads to stands below. -/
theorem Leads.lt {b c : Address} {mode : LookupMode} {name : String} (h : c.Leads mode name b) :
    c < b := by
  obtain ⟨-, -, -, hlt⟩ := h.below
  exact lt_of_lt_of_le hlt (le_down _ _)

/-- What stands below an address is reached by names. -/
theorem exists_down_of_le {a c : Address} (h : c ≤ a) : ∃ names, a = c.down names := by
  obtain ⟨hhome, names, htrail⟩ := le_def.mp h
  refine ⟨names.reverse, ?_⟩
  rw [down_eq, List.reverse_reverse, htrail, hhome]

/-- The names on the way down are those of addresses on it. -/
theorem exists_child_le_down {c : Address} {names : List String} {x : String} (hx : x ∈ names) :
    ∃ b : Address, c < b.child x ∧ b.child x ≤ c.down names := by
  obtain ⟨before, after, rfl⟩ := List.append_of_mem hx
  refine ⟨c.down before, lt_of_le_of_lt (le_down c before) (lt_child _ x), ?_⟩
  rw [show c.down (before ++ x :: after) = ((c.down before).child x).down after from
    List.foldl_append]
  exact le_down _ after

end Address

namespace Index

variable {t u v : Index} {L : Ledger} {lay : Layout} {ρ : NodeId → NodeId} {names : NameTable}
  {anchor id i j : NodeId} {mode : LookupMode} {name : String} {accept accept' : NodeFilter}

/-- Nothing below the anchor has a name with a dot, or it does not matter, as names lead child by
child. -/
def Settled (t : Index) (anchor : NodeId) (mode : LookupMode) : Prop :=
  mode = .child ∨ ∀ i, t.isBelow i anchor = true → ∀ n ∈ t.node? i, '.' ∉ n.name.toList

/-- Two answers of look-ups, the second in `u`, where nodes have the numbers that `ρ` gives them,
are tied; and if the first look-up is settled, they are the same. -/
def AgreeUpToTies (ρ : NodeId → NodeId) (u : Index) (settled : Prop) (r r' : Option NodeId) :
    Prop :=
  Option.Rel (fun i j => u.Tied (ρ i) j) r r' ∧ (settled → r' = r.map ρ)

/-- The node to which a name leads from the first candidate is the answer, if no other match is
earlier. -/
theorem IsComplete.lookup?_eq_of_candidates (h : u.IsComplete) {first : String}
    {rest : List String} {start : NodeId} {ids : List NodeId}
    (hsegments : nameSegments name = first :: rest) (hne : nodeName first ≠ "")
    (hcandidates : u.candidates (nodeName first) = start :: ids)
    (hreach : u.inReach anchor mode start = true) (hfollow : u.follow? start rest = some id)
    (haccept : ∃ n, u.node? id = some n ∧ accept id n = true)
    (hfirst : ∀ j, u.Matches anchor mode name accept j → u.NoLater id j) :
    u.lookup? anchor name mode accept = some id := by
  -- the first candidate leads to the node
  have hlandings : ∃ found, u.landings name accept = (start, id) :: found := by
    obtain ⟨n, hn, haccept⟩ := haccept
    unfold landings
    simp only [hsegments, hne, if_false, hcandidates, List.filterMap_cons, hfollow,
      Option.filter_some, hn, Option.any_some, haccept, if_true, Option.map_some]
    exact ⟨_, rfl⟩
  obtain ⟨found, hfound⟩ := hlandings
  have hlanded : u.landed anchor mode (u.landings name accept) =
      id :: u.landed anchor mode found := by
    rw [hfound, landed, List.filter_cons, if_pos hreach]
    rfl
  rw [lookup?, hlanded]
  -- the others match too, and none of them is earlier
  exact best?_cons_of_noLater fun c hc =>
    hfirst c (h.mem_landed_iff.mp (hlanded ▸ List.mem_cons_of_mem id hc))

theorem AgreeUpToTies.intro {settled : Prop} {r r' : Option NodeId} (hnone : r = none ↔ r' = none)
    (htied : ∀ i ∈ r, ∀ j ∈ r', u.Tied (ρ i) j)
    (heq : settled → ∀ i ∈ r, ∀ j ∈ r', ρ i = j) : AgreeUpToTies ρ u settled r r' := by
  cases r with
  | none =>
    obtain rfl := hnone.mp rfl
    exact ⟨.none, fun _ => rfl⟩
  | some i =>
    cases r' with
    | none => cases hnone.mpr rfl
    | some j =>
      exact ⟨.some (htied i rfl j rfl),
        fun hsettled => congrArg some (heq hsettled i rfl j rfl).symm⟩

namespace Built

/-! ### One first match -/

/-- Names lead from live nodes. -/
theorem isLive_of_leads (h : t.Built L lay) (hleads : t.Leads anchor mode name id) :
    t.isLive anchor = true := by
  obtain ⟨-, -, -, -, hreach, -⟩ := hleads
  cases mode with
  | child =>
    obtain ⟨a, x, -, ha⟩ := h.laid.exists_of_parent? (beq_iff_eq.mp hreach)
    exact h.laid.isLive_iff.mpr ⟨a, ha⟩
  | below =>
    exact h.laid.isLive_of_mem_ancestors (List.mem_of_mem_tail (List.contains_iff_mem.mp hreach))

/-- What a name leads to is found by going down some names, which hold no dots if the names below
hold none. -/
theorem exists_down_of_leads (h : t.Built L lay) {c : Address} (hc : lay c = some anchor)
    (hdots : ∀ i, t.isBelow i anchor = true → ∀ n ∈ t.node? i, '.' ∉ n.name.toList)
    (hmatch : t.Matches anchor mode name accept id) :
    ∃ names, names ≠ [] ∧ lay (c.down names) = some id ∧ ∀ x ∈ names, '.' ∉ x.toList := by
  obtain ⟨hleads, n, hn, -⟩ := hmatch
  obtain ⟨a, ha⟩ := h.laid.exists_address hn
  have hlt := ((h.laid.leads_iff hc ha).mp hleads).lt
  obtain ⟨names, rfl⟩ := Address.exists_down_of_le hlt.le
  refine ⟨names, ?_, ha, fun x hx => ?_⟩
  · rintro rfl
    exact hlt.false
  · obtain ⟨b, hbelow, hle⟩ := Address.exists_child_le_down (c := c) hx
    obtain ⟨i, hi⟩ := h.laid.closed_of_le ha hle
    obtain ⟨m, hm⟩ := h.laid.exists_node hi
    have hname := hdots i ((h.laid.isBelow_iff hc hi).mpr hbelow) m hm
    rwa [h.laid.name_eq hi hm, Address.label_child] at hname

/-- There is one first match at most, if names lead child by child or hold no dots. -/
theorem eq_of_isFirstMatch (h : t.Built L lay) (hsettled : t.Settled anchor mode)
    (hi : t.IsFirstMatch anchor mode name accept i)
    (hj : t.IsFirstMatch anchor mode name accept j) : i = j := by
  rcases hsettled with rfl | hdots
  · exact leadsFrom_unique (h.leads_child_iff.mp hi.isMatch.1) (h.leads_child_iff.mp hj.isMatch.1)
  · obtain ⟨c, hc⟩ := h.laid.isLive_iff.mp (h.isLive_of_leads hi.isMatch.1)
    obtain ⟨names, hne, hat, hnames⟩ := h.exists_down_of_leads hc hdots hi.isMatch
    obtain ⟨names', hne', hat', hnames'⟩ := h.exists_down_of_leads hc hdots hj.isMatch
    have hpath := (hi.tied hj).2
    rw [h.laid.path_eq hat, h.laid.path_eq hat', Address.down_eq, Address.down_eq,
      List.reverse_append, List.reverse_append, List.reverse_reverse, List.reverse_reverse] at hpath
    obtain rfl := Text.eq_of_intercalate_append_eq _ hne hne' hnames hnames' hpath
    exact Option.some.inj (hat.symm.trans hat')

/-! ### Other orders -/

theorem mem_get_reordered_iff (h : t.Built L lay) (hnames : t.names.Reordered names) (s : String)
    (i : NodeId) :
    i ∈ names.get s ↔ ∃ n, t.node? i = some n ∧ (n.name = s ∨ n.realName = s) :=
  (hnames.get_perm s).mem_iff.symm.trans (h.named.mem_iff s i)

/-- A reordered table is complete. -/
theorem isComplete_reordered (h : t.Built L lay) (hnames : t.names.Reordered names) :
    (t.withNames names).IsComplete :=
  h.isComplete_withNames fun _ => h.mem_get_reordered_iff hnames

/-- With a reordered table an index searches as it should. -/
theorem searches_reordered (h : t.Built L lay) (hnames : t.names.Reordered names) :
    (t.withNames names).Searches t :=
  h.searches_withNames fun _ => h.mem_get_reordered_iff hnames

/-- A table that is made again is reordered at most. -/
theorem reordered_rebuildNames (h : t.Built L lay) : t.names.Reordered t.rebuildNames.names := by
  have hnamed := named_rebuildNames h.laid h.rooted
  exact h.named.toTidy.reordered hnamed.toTidy fun s i =>
    (hnamed.mem_iff s i).trans (h.named.mem_iff s i).symm

/-- A first match is the answer if the node at which its way begins is put first in the table. -/
theorem exists_lookup?_putFirst (h : t.Built L lay)
    (hid : t.IsFirstMatch anchor mode name accept id) :
    ∃ names, t.names.Reordered names ∧
      (t.withNames names).lookup? anchor name mode accept = some id := by
  obtain ⟨⟨hleads, haccept⟩, hfirst⟩ := hid
  obtain @⟨first, rest, start, m, hsegments, hne, hm, hname, hreach, hfollow⟩ := hleads
  have hlisted : start ∈ t.names.get (nodeName first) :=
    (h.named.mem_iff _ start).mpr ⟨m, hm, Or.inl hname⟩
  have hreordered := NameTable.reordered_putFirst hlisted
  have hcandidates : (t.withNames (t.names.putFirst (nodeName first) start)).candidates
      (nodeName first) = start :: (t.names.get (nodeName first)).erase start := by
    rw [candidates, withNames, NameTable.isEmpty_putFirst, NameTable.get_putFirst]
    rfl
  refine ⟨_, hreordered, (h.isComplete_reordered hreordered).lookup?_eq_of_candidates hsegments
    hne hcandidates hreach ((follow?_withNames t _ start rest).trans hfollow) haccept ?_⟩
  exact fun j hj => hfirst j ((matches_withNames t _).mp hj)

/-- The answers for all orders are the first matches. -/
theorem isFirstMatch_iff_exists_reordered (h : t.Built L lay) :
    t.IsFirstMatch anchor mode name accept id ↔ ∃ names, t.names.Reordered names ∧
      (t.withNames names).lookup? anchor name mode accept = some id :=
  ⟨h.exists_lookup?_putFirst,
    fun ⟨_, hnames, hid⟩ => (h.searches_reordered hnames).isFirstMatch hid⟩

/-- Look-ups that search one forest agree up to ties. -/
theorem agreeUpToTies (h : t.Built L lay) (hu : u.Searches t) (hv : v.Searches t) :
    AgreeUpToTies (fun i => i) t (t.Settled anchor mode) (u.lookup? anchor name mode accept)
      (v.lookup? anchor name mode accept) :=
  .intro (hu.eq_none_iff.trans hv.eq_none_iff.symm)
    (fun _ hi _ hj => (hu.isFirstMatch hi).tied (hv.isFirstMatch hj))
    fun hsettled _ hi _ hj =>
      h.eq_of_isFirstMatch hsettled (hu.isFirstMatch hi) (hv.isFirstMatch hj)

/-! ### Other numbers -/

/-- First matches are counterparts of first matches. -/
theorem exists_isFirstMatch_of_relabel (h : t.Built L lay) (h' : u.Built L (lay.relabel ρ))
    (haccept : ∀ {i n m}, t.node? i = some n → u.node? (ρ i) = some m →
      accept' (ρ i) m = accept i n) (hanchor : t.isLive anchor)
    (hj : u.IsFirstMatch (ρ anchor) mode name accept' j) :
    ∃ i, t.IsFirstMatch anchor mode name accept i ∧ ρ i = j := by
  have hmatches : ∀ j, u.Matches (ρ anchor) mode name accept' j ↔
      ∃ i, t.Matches anchor mode name accept i ∧ ρ i = j :=
    fun j => h.matches_relabel_iff h' haccept hanchor
  obtain ⟨i, hi, rfl⟩ := (hmatches j).mp hj.isMatch
  refine ⟨i, ⟨hi, fun k hk => ?_⟩, rfl⟩
  have hlater := hj.noLater (ρ k) ((hmatches _).mpr ⟨k, hk, rfl⟩)
  obtain ⟨-, n, hn, -⟩ := hi
  obtain ⟨-, m, hm, -⟩ := hk
  exact (h.noLater_relabel h' (isLive_of_node? hn) (isLive_of_node? hm)).mp hlater

/-- Look-ups from counterparts agree up to ties, if counterparts are accepted alike. -/
theorem agreeUpToTies_relabel (h : t.Built L lay) (h' : u.Built L (lay.relabel ρ))
    (haccept : ∀ {i n m}, t.node? i = some n → u.node? (ρ i) = some m →
      accept' (ρ i) m = accept i n) (hanchor : t.isLive anchor) :
    AgreeUpToTies ρ u (t.Settled anchor mode) (t.lookup? anchor name mode accept)
      (u.lookup? (ρ anchor) name mode accept') := by
  refine .intro ?_ (fun i hi j hj => ?_) fun hsettled i hi j hj => ?_
  · rw [h.lookup?_eq_none_iff, h'.lookup?_eq_none_iff]
    simp only [h.matches_relabel_iff h' haccept hanchor, not_exists, not_and]
    exact ⟨fun hnone j i hi _ => hnone i hi, fun hnone i hi => hnone _ i hi rfl⟩
  · have hfirst := h.isFirstMatch_of_lookup?_eq hi
    exact (h.isFirstMatch_relabel h' haccept hanchor hfirst).tied (h'.isFirstMatch_of_lookup?_eq hj)
  · obtain ⟨k, hk, rfl⟩ := h.exists_isFirstMatch_of_relabel h' haccept hanchor
      (h'.isFirstMatch_of_lookup?_eq hj)
    rw [h.eq_of_isFirstMatch hsettled (h.isFirstMatch_of_lookup?_eq hi) hk]

end Built

/-- After any run the answers of a look-up for all orders of the name table are its first matches,
which have one depth and one path. So they agree up to ties, and are the same if no name below the
anchor holds a dot or names are to lead child by child; among these orders is that of a table built
anew, and the copy agrees in the same way. -/
theorem lookup?_reordered_run (options : IndexOptions) (ops : List Operation) :
    let t := run options ops
    (∀ anchor name mode accept,
      (∀ id, t.IsFirstMatch anchor mode name accept id ↔ ∃ names, t.names.Reordered names ∧
        (t.withNames names).lookup? anchor name mode accept = some id) ∧
      ∀ names, t.names.Reordered names →
        AgreeUpToTies (fun i => i) t (t.Settled anchor mode) (t.lookup? anchor name mode accept)
          ((t.withNames names).lookup? anchor name mode accept)) ∧
      (t.names.Reordered t.rebuildNames.names ∧ t.rebuildNames = t.withNames t.rebuildNames.names) ∧
      ∃ ρ, IsCopy ρ t t.copy ∧ ∀ anchor name mode accept accept', t.isLive anchor →
        (∀ i n m, t.node? i = some n → t.copy.node? (ρ i) = some m →
          accept' (ρ i) m = accept i n) →
        AgreeUpToTies ρ t.copy (t.Settled anchor mode) (t.lookup? anchor name mode accept)
          (t.copy.lookup? (ρ anchor) name mode accept') := by
  obtain ⟨lay, h, -⟩ := exists_built_run options ops
  refine ⟨fun anchor name mode accept => ⟨fun id => h.isFirstMatch_iff_exists_reordered,
    fun names hnames => h.agreeUpToTies h.searches (h.searches_reordered hnames)⟩,
    ⟨h.reordered_rebuildNames, rfl⟩, _, h.isCopy,
    fun anchor name mode accept accept' hanchor haccept => ?_⟩
  exact h.agreeUpToTies_relabel h.copy (haccept _ _ _) hanchor

/-- A file with two nodes of the path `app.a.b.c.x`. -/
def tiedDocument : Document where
  package := some ⟨"app", .start⟩
  definitions := [
    .object (.string "a.b" true .start) [.object (.reference "c" .start)
      [.object (.reference "x" .start) [] {}] {}] {},
    .object (.reference "a" .start) [.object (.string "b.c" true .start)
      [.object (.reference "x" .start) [] {}] {}] {}]
  comments := []
  pragmas := []

/-- The two nodes called `x` are listed in the order of the file. A table built anew lists the one
in `a` first, and so the answer changes; and the copy answers the counterpart of the new answer. -/
theorem exists_order_dependent_lookup :
    let t := run {} [.add (.ofText "a.pcl") tiedDocument]
    t.lookup? root "x" .below anyNode = some 4 ∧
      t.rebuildNames.lookup? root "x" .below anyNode = some 7 ∧
      t.copy.lookup? root "x" .below anyNode = some (renumber t.places 7) ∧
      renumber t.places 7 ≠ renumber t.places 4 := by
  decide +kernel

end Index

end SemanticIndex
