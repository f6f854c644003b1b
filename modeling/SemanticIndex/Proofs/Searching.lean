import SemanticIndex.Proofs.Places

/-!
# Look-ups Search the Forest

A look-up takes its candidates from the name table or, if the table is empty, from a walk, and goes
on from there. Either way it answers what a search through the whole forest would
(`Index.Searches`), as long as the table, if it is not empty, lists every node under its names
(`Index.Built.searches_withNames`).
-/

namespace SemanticIndex

namespace Index

variable {t : Index} {L : Ledger} {lay : Layout} {names : NameTable} {anchor id i j : NodeId}
  {mode : LookupMode} {name : String} {accept : NodeFilter}

/-- Where the mode wants the first segment of a name, said of the parents. -/
def Under (t : Index) (anchor : NodeId) : LookupMode → NodeId → Prop
  | .child, id => t.parent? id = some anchor
  | .below, id => Relation.TransGen (fun c p => t.parent? c = some p) id anchor

/-- The look-ups of `u` answer as a search through all of `t` would. -/
structure Searches (u t : Index) : Prop where
  /-- They answer nothing only if nothing matches. -/
  eq_none_iff : ∀ {anchor name mode accept}, u.lookup? anchor name mode accept = none ↔
    ∀ j, ¬ t.Matches anchor mode name accept j
  /-- Of what matches they answer a node that is no later than the others. -/
  isFirstMatch : ∀ {anchor name mode accept id}, u.lookup? anchor name mode accept = some id →
    t.IsFirstMatch anchor mode name accept id
  /-- Among the children they answer the one node to which the name leads child by child. -/
  child_iff : ∀ {anchor name accept id}, u.lookup? anchor name .child accept = some id ↔
    t.LeadsFrom anchor name id ∧ ∃ n, t.node? id = some n ∧ accept id n = true

namespace Laid

/-- Going up by parents leads to higher addresses. -/
theorem exists_lt_of_transGen (h : t.Laid lay)
    (hup : Relation.TransGen (fun c p => t.parent? c = some p) i j) :
    ∃ a c, lay a = some i ∧ lay c = some j ∧ c < a := by
  induction hup with
  | single hp =>
    obtain ⟨c, x, hi, hp⟩ := h.exists_of_parent? hp
    exact ⟨_, c, hi, hp, Address.lt_child c x⟩
  | tail _ hp ih =>
    obtain ⟨a, b, ha, hb, hlt⟩ := ih
    obtain ⟨c, x, hb', hp⟩ := h.exists_of_parent? hp
    obtain rfl := h.injective hb hb'
    exact ⟨a, c, ha, hp, (Address.lt_child c x).trans hlt⟩

/-- From an address the nodes at higher ones are reached by parents. -/
theorem transGen_of_lt (h : t.Laid lay) {a c : Address} (ha : lay a = some i)
    (hc : lay c = some j) (hlt : c < a) :
    Relation.TransGen (fun c p => t.parent? c = some p) i j := by
  induction a using Address.induction generalizing i with
  | root home => exact absurd (Address.le_def.mp hlt.le).2 (fun hsuffix => hlt.not_ge
      ⟨(Address.le_def.mp hlt.le).1.symm, List.nil_suffix⟩)
  | child a x ih =>
    obtain ⟨p, hp⟩ := h.closed ha
    obtain ⟨n, hn⟩ := h.exists_node ha
    have hparent : t.parent? i = some p := by
      rw [parent?, hn, Option.bind_some, h.parent_child ha hn, hp]
    rcases (Address.lt_child_iff.mp hlt).eq_or_lt with rfl | hlt
    · rw [hc, Option.some.injEq] at hp
      exact .single (hp ▸ hparent)
    · exact .head hparent (ih hp hlt)

/-- The reach of an anchor is what stands under it. -/
theorem inReach_iff_under (h : t.Laid lay) :
    t.inReach anchor mode id = true ↔ t.Under anchor mode id := by
  cases mode with
  | child => exact beq_iff_eq
  | below =>
    constructor
    · intro hreach
      have hmem : anchor ∈ t.ancestors id := List.mem_of_mem_tail (List.contains_iff_mem.mp hreach)
      obtain ⟨c, hc⟩ := h.isLive_iff.mp (h.isLive_of_mem_ancestors hmem)
      obtain ⟨a, ha, -⟩ := h.le_of_mem_ancestors hc hmem
      exact h.transGen_of_lt ha hc ((h.inReach_iff hc ha).mp hreach)
    · intro hup
      obtain ⟨a, c, ha, hc, hlt⟩ := h.exists_lt_of_transGen hup
      exact (h.inReach_iff hc ha).mpr hlt

end Laid

/-- Following segments takes nothing from the name table. -/
theorem follow?_withNames (t : Index) (names : NameTable) (id : NodeId) (segments : List String) :
    (t.withNames names).follow? id segments = t.follow? id segments := by
  induction segments generalizing id with
  | nil => rfl
  | cons segment segments ih =>
    rw [follow?, follow?]
    exact Option.bind_congr fun i _ => ih i

/-- Whether a node matches has nothing to do with the name table. -/
theorem matches_withNames (t : Index) (names : NameTable) :
    (t.withNames names).Matches anchor mode name accept id ↔
      t.Matches anchor mode name accept id := by
  refine and_congr ⟨?_, ?_⟩ Iff.rfl
  · rintro ⟨hsegments, hne, hn, hname, hreach, hfollow⟩
    exact ⟨hsegments, hne, hn, hname, hreach, follow?_withNames t names _ _ ▸ hfollow⟩
  · rintro ⟨hsegments, hne, hn, hname, hreach, hfollow⟩
    exact ⟨hsegments, hne, hn, hname, hreach, (follow?_withNames t names _ _).trans hfollow⟩

namespace Built

/-- A child matches if the name leads to it and it is accepted. -/
theorem matches_child_iff (h : t.Built L lay) :
    t.Matches anchor .child name accept id ↔
      t.LeadsFrom anchor name id ∧ ∃ n, t.node? id = some n ∧ accept id n = true :=
  and_congr_left fun _ => h.leads_child_iff

/-- Look-ups search the forest, if the name table is empty or lists every node under its names. -/
theorem searches_withNames (h : t.Built L lay) (hnames : names.isEmpty = false → ∀ s i,
    i ∈ names.get s ↔ ∃ n, t.node? i = some n ∧ (n.name = s ∨ n.realName = s)) :
    (t.withNames names).Searches t := by
  have hcomplete := h.isComplete_withNames hnames
  have hnone : ∀ {anchor name mode accept},
      (t.withNames names).lookup? anchor name mode accept = none ↔
        ∀ j, ¬ t.Matches anchor mode name accept j := by
    intro anchor name mode accept
    rw [hcomplete.lookup?_eq_none_iff]
    exact forall_congr' fun j => not_congr (matches_withNames t names)
  have hfirst : ∀ {anchor name mode accept id},
      (t.withNames names).lookup? anchor name mode accept = some id →
        t.IsFirstMatch anchor mode name accept id := by
    intro anchor name mode accept id hid
    have hfirst := hcomplete.isFirstMatch_of_lookup?_eq hid
    exact ⟨(matches_withNames t names).mp hfirst.isMatch,
      fun j hj => hfirst.noLater j ((matches_withNames t names).mpr hj)⟩
  refine ⟨hnone, hfirst, fun {anchor name accept id} => ?_⟩
  rw [← h.matches_child_iff]
  refine ⟨fun hid => (hfirst hid).isMatch, fun hmatch => ?_⟩
  obtain ⟨j, hj⟩ := Option.ne_none_iff_exists'.mp fun hnothing => hnone.mp hnothing id hmatch
  rw [hj, leadsFrom_unique (h.leads_child_iff.mp (hfirst hj).isMatch.1)
    (h.leads_child_iff.mp hmatch.1)]

/-- A built index searches as it should. -/
theorem searches (h : t.Built L lay) : t.Searches t :=
  h.searches_withNames fun _ => h.named.mem_iff

/-- The walk that replaces an empty table finds the same candidates. -/
theorem searches_empty (h : t.Built L lay) : (t.withNames .empty).Searches t :=
  h.searches_withNames fun hnot => absurd Std.ExtTreeMap.isEmpty_empty (Bool.eq_false_iff.mp hnot)

end Built

/-- After any run a look-up answers what a search through all nodes would, from any anchor, there or
not, and for any name and any filter: nothing only if the name leads to no accepted node from the
anchor, and of all accepted nodes to which it leads one that is first by depth and path. So it is
without a name table as well, when candidates are taken from a walk. -/
theorem searches_run (options : IndexOptions) (ops : List Operation) :
    let t := run options ops
    (∀ anchor mode id, t.inReach anchor mode id = true ↔ t.Under anchor mode id) ∧
      t.Searches t ∧ (t.withNames .empty).Searches t := by
  obtain ⟨lay, h, -⟩ := exists_built_run options ops
  exact ⟨fun _ _ _ => h.laid.inReach_iff_under, h.searches, h.searches_empty⟩

end Index

end SemanticIndex
