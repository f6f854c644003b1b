import SemanticIndex.Index.Cursor
import SemanticIndex.Proofs.Nesting
import SemanticIndex.Proofs.RoundTrip

/-!
# Cursors and Pragmas

Cursor queries look for the innermost block among the spans of fragments, those that other files
have left between them not counted. Pragmas are given to blocks before there is an index. Where the
blocks of a document are nested as they should be, both come to the same object
(`Index.locates_run`): the one with the most objects around it whose span holds the position.
-/

namespace SemanticIndex

/-- The fragment of the object that is declared at `s`, with the pragmas of which the object is the
innermost one around. -/
def Document.fragment? (path : SourcePath) (d : Document) (s : Site) : Option Fragment :=
  (s.block? path d.comments).map fun b => { b.fragment with pragmas := d.ownPragmas s }

namespace Index

/-- In the file `path` with the record `r`, cursor queries and pragmas go by the innermost objects
of the document. -/
structure Locates (t : Index) (path : SourcePath) (doc : Document) (r : FileRecord) : Prop where
  /-- Of the objects around a position one is the innermost one. -/
  one_innermost : ∀ p, ∀ s ∈ doc.sites, s.covers p = true →
    ∃ s', doc.sites.filter (doc.isInnermost p) = [s']
  nodeAt?_inside : ∀ p, ∀ s ∈ doc.sites, doc.isInnermost p s = true →
    ∃ q i, s.objectPath? = some q ∧ t.follow? r.top q = some i ∧ t.nodeAt? path p = some i
  nodeAt?_outside : ∀ p, (∀ s ∈ doc.sites, s.covers p = false) → t.nodeAt? path p = some r.top
  /-- The fragments of the file on a node are those of the objects that lead there, each with its
  own pragmas in source order, and on the top node that of the whole file, which has none. -/
  fragments_perm : ∀ i n, t.node? i = some n →
    (n.fragments.filter (·.file.same path)).Perm
      ((doc.sites.filter fun s => s.objectPath?.bind (t.follow? r.top) = some i).filterMap
          (doc.fragment? path) ++
        if i = r.top then [Fragment.ofDocument path doc] else [])
  pragmas_eq : r.pragmas = doc.pragmas.filter fun q => doc.sites.all fun s => !s.covers q.position

end Index

/-- The path of an object has one name more than that of its site. -/
theorem Site.length_of_objectPath? {s : Site} {q : List String} (h : s.objectPath? = some q) :
    q.length = s.path.length + 1 := by
  rw [objectPath?_eq_map] at h
  obtain ⟨x, -, rfl⟩ := Option.map_eq_some_iff.mp h
  exact List.length_append

/-- The deposits of a file are those of its document. -/
theorem Ledger.Distinct.deposits_filter {L : Ledger} {path : SourcePath} {doc : Document}
    (h : L.Distinct) (he : (path, doc) ∈ L) :
    L.deposits.filter (fun d => d.2.file.same path) = (doc.outline path).deposits path := by
  induction L with
  | nil => cases he
  | cons e L ih =>
    obtain ⟨hnew, hrest⟩ := List.nodup_cons.mp h
    have hdeposits : deposits (e :: L) = (e.2.outline e.1).deposits e.1 ++ deposits L :=
      List.flatMap_cons
    rw [hdeposits, List.filter_append]
    rcases List.mem_cons.mp he with rfl | he
    · rw [List.filter_eq_self.mpr, List.filter_eq_nil_iff.mpr, List.append_nil]
      · intro d hd hsame
        obtain ⟨e, he, hd⟩ := mem_deposits_iff.mp hd
        rw [Document.file_eq_of_mem_deposits hd, SourcePath.same_iff] at hsame
        exact hnew (List.mem_map.mpr ⟨e, he, hsame⟩)
      · intro d hd
        rw [Document.file_eq_of_mem_deposits hd, SourcePath.same_iff]
    · rw [List.filter_eq_nil_iff.mpr, List.nil_append, ih hrest he]
      intro d hd hsame
      rw [Document.file_eq_of_mem_deposits hd, SourcePath.same_iff] at hsame
      exact hnew (List.mem_map.mpr ⟨_, he, hsame.symm⟩)

namespace Index

variable {t : Index} {L : Ledger} {lay : Layout} {path : SourcePath} {doc : Document}
  {r : FileRecord} {i j : NodeId} {n : Node} {s s' : Site} {p : Position} {x : Span}
  {q q' : List String}

theorem mem_spansAround_iff {ids : List NodeId} :
    (x, i) ∈ t.spansAround path p ids ↔ i ∈ ids ∧ ∃ n, t.node? i = some n ∧
      ((n.fragments.filter (·.file.same path)).filterMap Fragment.span).find? (·.contains p) =
        some x := by
  rw [spansAround, List.mem_filterMap]
  constructor
  · rintro ⟨j, hj, hx⟩
    obtain ⟨n, hn, hx⟩ := Option.bind_eq_some_iff.mp hx
    obtain ⟨y, hy, heq⟩ := Option.map_eq_some_iff.mp hx
    obtain ⟨rfl, rfl⟩ := Prod.mk.inj heq
    exact ⟨hj, n, hn, hy⟩
  · rintro ⟨hi, n, hn, hx⟩
    exact ⟨i, hi, by rw [hn, Option.bind_some, hx, Option.map_some]⟩

/-- The spans around a position contain it. -/
theorem contains_of_mem_spansAround {ids : List NodeId} (hx : (x, i) ∈ t.spansAround path p ids) :
    x.contains p = true := by
  obtain ⟨-, n, -, hfind⟩ := mem_spansAround_iff.mp hx
  exact List.find?_some (p := fun y : Span => y.contains p) hfind

namespace Built

section

variable (h : t.Built L lay) (he : (path, doc) ∈ L) (hr : t.file? path = some r)

include h he hr

/-- Paths of different lengths do not lead to one node. -/
theorem length_eq_of_follow? (hi : t.follow? r.top q = some i) (hi' : t.follow? r.top q' = some i) :
    q.length = q'.length := by
  rw [h.follow?_top he hr] at hi hi'
  have hnames := congrArg (List.length ∘ Address.trail) (h.laid.injective hi hi')
  simpa using hnames

/-- A span that a query looks at is that of an object whose path leads to the node. -/
theorem exists_site_of_mem_spansAround {ids : List NodeId}
    (hx : (x, i) ∈ t.spansAround path p ids) :
    ∃ s ∈ doc.sites, s.covers p = true ∧ s.span? = some x ∧
      ∃ q, s.objectPath? = some q ∧ t.follow? r.top q = some i := by
  obtain ⟨-, n, hn, hfind⟩ := mem_spansAround_iff.mp hx
  have hp : x.contains p = true := contains_of_mem_spansAround hx
  obtain ⟨g, hg, hspan⟩ := List.mem_filterMap.mp (List.mem_of_find?_eq_some hfind)
  obtain ⟨hg, hfile⟩ := List.mem_filter.mp hg
  obtain ⟨b, hb, rfl, hfollow⟩ := h.exists_block he hr hn hg hfile
  obtain ⟨b', pragmas, rfl, ⟨s, hs, hsb⟩ | rfl⟩ := Document.exists_of_mem_blocks hb
  · refine ⟨s, hs, Document.covers_of_block? hsb hspan hp,
      (Site.span?_of_block? hsb).symm.trans hspan, b'.path, ?_, hfollow⟩
    rw [Site.objectPath?_eq path doc.comments, hsb, Option.map_some]
  -- the block of the whole file has no span
  · cases hspan

/-- A query looks at the node of every object around the position. -/
theorem exists_mem_spansAround (hs : s ∈ doc.sites) (hp : s.covers p = true) :
    ∃ q i x, s.objectPath? = some q ∧ t.follow? r.top q = some i ∧
      (x, i) ∈ t.spansAround path p r.nodes := by
  obtain ⟨b, hb⟩ := Site.exists_block?_of_covers path doc.comments hp
  obtain ⟨i, n, pragmas, hi, hn, hg⟩ := h.exists_fragment_of_block? he hr hs hb
  obtain ⟨-, hfile, -⟩ := Site.of_block?_eq hb
  obtain ⟨y, hy, hcontains⟩ := Site.covers_iff.mp hp
  have hmem : y ∈ (n.fragments.filter (·.file.same path)).filterMap Fragment.span := by
    refine List.mem_filterMap.mpr ⟨_, List.mem_filter.mpr ⟨hg, ?_⟩, ?_⟩
    · show b.fragment.file.same path = true
      rw [hfile, SourcePath.same_iff]
    · exact (Site.span?_of_block? hb).trans hy
  have hfound : (((n.fragments.filter (·.file.same path)).filterMap Fragment.span).find?
      (·.contains p)).isSome := List.find?_isSome.mpr ⟨y, hmem, hcontains⟩
  obtain ⟨x, hx⟩ := Option.isSome_iff_exists.mp hfound
  -- the file has come to the node
  obtain ⟨r', hr', hlisted⟩ := h.fragment_listed hn hg
  have hsame : t.file? path = some r' := hfile ▸ hr'
  obtain rfl := Option.some.inj (hr.symm.trans hsame)
  refine ⟨b.path, i, x, ?_, hi, mem_spansAround_iff.mpr ⟨hlisted, n, hn, hx⟩⟩
  rw [Site.objectPath?_eq path doc.comments, hb, Option.map_some]

/-- The node of the innermost object is found. -/
theorem nodeAt?_of_isInnermost (hnests : doc.Nests) (hs : s ∈ doc.sites)
    (hinner : doc.isInnermost p s = true) :
    ∃ q i, s.objectPath? = some q ∧ t.follow? r.top q = some i ∧ t.nodeAt? path p = some i := by
  obtain ⟨q, i, x, hq, hi, hx⟩ :=
    h.exists_mem_spansAround he hr hs (Document.isInnermost_iff.mp hinner).1
  refine ⟨q, i, hq, hi, ?_⟩
  -- no other object around the position leads to the same node
  have hspan : s.span? = some x := by
    obtain ⟨s', hs', hp', hx', q', hq', hi'⟩ := h.exists_site_of_mem_spansAround he hr hx
    rcases hnests.eq_or_above_of_isInnermost hs hs' hinner hp' with rfl | habove
    · exact hx'
    · have hlength := h.length_eq_of_follow? he hr hi hi'
      rw [Site.length_of_objectPath? hq, Site.length_of_objectPath? hq'] at hlength
      have hlt := habove.length_lt
      omega
  rw [nodeAt?, hr, Option.map_some]
  rcases innermost?_spec p (t.spansAround path p r.nodes) with
    ⟨-, hnone⟩ | ⟨⟨y, j⟩, hfound, hy, -, hall⟩
  · have hfalse := hnone _ hx
    rw [contains_of_mem_spansAround hx] at hfalse
    cases hfalse
  · rw [hfound]
    obtain ⟨s', hs', hp', hy', q', hq', hj⟩ := h.exists_site_of_mem_spansAround he hr hy
    rcases hnests.eq_or_above_of_isInnermost hs hs' hinner hp' with rfl | habove
    · obtain rfl := Option.some.inj (hq.symm.trans hq')
      rw [hi] at hj
      exact hj.symm
    -- what is above starts before, and so is not the innermost span
    · have hyx := hall _ hx (contains_of_mem_spansAround hx)
      rw [Span.not_isInner_of_start (habove.starts_before y hy' x hspan)] at hyx
      cases hyx

/-- A position outside of all blocks is at the top of the file. -/
theorem nodeAt?_of_not_covers (hp : ∀ s ∈ doc.sites, s.covers p = false) :
    t.nodeAt? path p = some r.top := by
  have hnone : innermost? p (t.spansAround path p r.nodes) = none := by
    refine innermost?_eq_none_iff.mpr fun ⟨x, i⟩ hx => ?_
    obtain ⟨s, hs, hcovers, -⟩ := h.exists_site_of_mem_spansAround he hr hx
    rw [hp s hs] at hcovers
    cases hcovers
  rw [nodeAt?, hr, Option.map_some, hnone]

/-- The fragments of the file on a node. -/
theorem fragments_perm (hnests : doc.Nests) (hn : t.node? i = some n) :
    (n.fragments.filter (·.file.same path)).Perm
      ((doc.sites.filter fun s => s.objectPath?.bind (t.follow? r.top) = some i).filterMap
          (doc.fragment? path) ++
        if i = r.top then [Fragment.ofDocument path doc] else []) := by
  obtain ⟨a, ha⟩ := h.laid.exists_address hn
  have hfragments : n.fragments.filter (·.file.same path) =
      ((doc.outline path).blocks.filter fun b =>
        b.address ((doc.outline path).topAddress path) = a).map Block.fragment := by
    rw [h.fragments_eq ha hn, ← fragmentsAt_filter, h.distinct.deposits_filter he, fragmentsAt,
      Outline.deposits, List.filter_map, List.map_map]
    rfl
  have hleads : ∀ b : Block, b.address ((doc.outline path).topAddress path) = a ↔
      t.follow? r.top b.path = some i := by
    intro b
    rw [h.laid.follow?_eq (h.top_at he hr), ← Block.address]
    exact ⟨fun hb => (congrArg lay hb).trans ha, fun hb => h.laid.injective hb ha⟩
  simp only [hleads] at hfragments
  rw [hfragments]
  refine (((hnests.blocks_outline_perm path).filter _).map _).trans (.of_eq ?_)
  rw [List.filter_append, List.map_append]
  congr 1
  · rw [List.filter_filterMap, List.map_filterMap, List.filterMap_filter]
    refine List.filterMap_congr fun s _ => ?_
    rw [Document.fragment?, Site.objectPath?_eq path doc.comments]
    cases s.block? path doc.comments with
    | none => simp
    | some b =>
      simp only [Option.map_some, Option.bind_some, Option.filter_some]
      show Option.map _ (if decide (t.follow? r.top b.path = some i) = true then _ else _) = _
      split <;> rfl
  -- the block of the whole file stands on the top node
  · have htop : t.follow? r.top [] = some i ↔ i = r.top :=
      ⟨fun heq => (Option.some.inj heq).symm, fun heq => heq ▸ rfl⟩
    simp only [List.filter_cons, List.filter_nil, htop, decide_eq_true_eq]
    split <;> rfl

end

/-- In a file with nested blocks cursor queries and pragmas go by the innermost objects. -/
theorem locates (h : t.Built L lay) (he : (path, doc) ∈ L) (hnests : doc.Nests) :
    ∃ r, t.file? path = some r ∧ t.Locates path doc r := by
  obtain ⟨r, hr, hisOf⟩ := h.exists_file _ he
  exact ⟨r, hr, {
    one_innermost := fun p s hs hp => hnests.exists_filter_isInnermost hs hp
    nodeAt?_inside := fun p s hs hinner => h.nodeAt?_of_isInnermost he hr hnests hs hinner
    nodeAt?_outside := fun p hp => h.nodeAt?_of_not_covers he hr hp
    fragments_perm := fun i n hn => h.fragments_perm he hr hnests hn
    pragmas_eq := hisOf.pragmas_eq.trans (Document.pragmas_outline path doc) }⟩

end Built

/-- After any run, in a file whose latest document nests its blocks as it should, a cursor query
finds the node of the innermost object around the position, or else the file's top node, and each
pragma is on the fragment of the innermost object around it, or else with the file. -/
theorem locates_run (options : IndexOptions) (ops : List Operation)
    (hdoc : (path, doc) ∈ Ledger.latest ops) (hnests : doc.Nests) :
    ∃ r, (run options ops).file? path = some r ∧ (run options ops).Locates path doc r := by
  obtain ⟨lay, h, -⟩ := exists_built_run options ops
  exact h.locates hdoc hnests

/-- A file of the package `app` with an object in which another one and an instantiation stand, and
with pragmas in each of these, between them and outside. -/
def nestedDocument : Document where
  package := some ⟨"app", .start⟩
  definitions := [
    .object (.reference "web" .start)
      [.object (.reference "pool" .start) [] ⟨⟨3, 3⟩, ⟨5, 3⟩⟩,
        .instantiation ⟨"job", "service", [], ⟨⟨6, 3⟩, ⟨7, 3⟩⟩⟩]
      ⟨⟨2, 1⟩, ⟨9, 1⟩⟩,
    .object (.reference "db" .start) [] ⟨⟨10, 1⟩, ⟨12, 1⟩⟩]
  comments := []
  pragmas := [⟨"first", ⟨1, 1⟩⟩, ⟨"fast", ⟨4, 1⟩⟩, ⟨"small", ⟨4, 9⟩⟩, ⟨"nightly", ⟨6, 5⟩⟩,
    ⟨"public", ⟨8, 1⟩⟩, ⟨"last", ⟨20, 1⟩⟩]

theorem nests_nestedDocument : nestedDocument.Nests where
  starts_later := by decide
  apart := by
    refine .cons (fun s hs => ?_) (.cons (fun s hs => ?_) (.cons (fun s hs => ?_) (.cons ?_ .nil)))
    -- what is not inside `web` is `db`
    · refine (List.mem_append.mp hs).imp_right fun hs => ?_
      obtain rfl := List.mem_singleton.mp hs
      exact Site.not_covers_both rfl rfl rfl
    · refine Or.inr ?_
      obtain rfl | rfl := List.mem_pair.mp hs <;> exact Site.not_covers_both rfl rfl rfl
    · refine Or.inr ?_
      obtain rfl := List.mem_singleton.mp hs
      exact Site.not_covers_both rfl rfl rfl
    · exact fun s hs => nomatch hs

/-- Another file has come between the fragments of the file. -/
theorem locates_run_of_nested :
    let path := SourcePath.ofText "a.pcl"
    let ops : List Operation := [.add path nestedDocument, .add (.ofText "b.pcl") appDocument]
    (path, nestedDocument) ∈ Ledger.latest ops ∧ nestedDocument.Nests ∧
      ∃ r, (run {} ops).file? path = some r ∧ (run {} ops).Locates path nestedDocument r := by
  intro path ops
  have hdoc : (path, nestedDocument) ∈ Ledger.latest ops := List.mem_cons_self
  exact ⟨hdoc, nests_nestedDocument, locates_run {} ops hdoc nests_nestedDocument⟩

end Index

end SemanticIndex
