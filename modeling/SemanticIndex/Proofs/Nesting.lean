import Mathlib.Data.List.Pairwise
import SemanticIndex.Proofs.Bracketing

/-!
# Nested Blocks

Where blocks are nested as they should be (`Document.Nests`), the blocks around a position form a
chain, from the outermost to the innermost one, and the innermost one is the one with the most
objects around it (`Document.isInnermost`). An outline, which goes by the starts and ends of
spans, gives each pragma to that same block (`Document.blocks_outline_perm`), and keeps for itself
those around which there is no block (`Document.pragmas_outline`).
-/

namespace SemanticIndex

/-! ### Spans -/

namespace Position

variable {p q : Position}

theorem le_antisymm (h : p.le q = true) (h' : q.le p = true) : p = q := by
  cases p
  cases q
  simp only [le_iff] at h h'
  rw [mk.injEq]
  omega

/-- Comparing the other way round gives the opposite answer. -/
theorem compare_swap (p q : Position) : (compare p q).swap = compare q p := by
  rw [compare_eq, compare_eq, Ordering.swap_then, Nat.compare_swap, Nat.compare_swap]

end Position

namespace Span

variable {s t u : Span}

/-- A span is inner to another one if it starts later, or starts at the same place and ends no
later. -/
theorem isInner_iff :
    s.isInner t = true ↔
      t.start.le s.start = true ∧ (s.start.le t.start = true → s.finish.le t.finish = true) := by
  rw [isInner, Position.le, Position.le, Position.le, ← Position.compare_swap t.start s.start]
  cases compare t.start s.start <;> simp

theorem isInner_refl (s : Span) : s.isInner s = true :=
  isInner_iff.mpr ⟨(Position.le_total _ _).elim id id, fun _ => (Position.le_total _ _).elim id id⟩

theorem isInner_trans (h : s.isInner t = true) (h' : t.isInner u = true) :
    s.isInner u = true := by
  obtain ⟨hstart, hfinish⟩ := isInner_iff.mp h
  obtain ⟨hstart', hfinish'⟩ := isInner_iff.mp h'
  refine isInner_iff.mpr ⟨Position.le_trans hstart' hstart, fun hle => ?_⟩
  -- all three start together
  exact Position.le_trans (hfinish (Position.le_trans hle hstart'))
    (hfinish' (Position.le_trans hstart hle))

/-- Of two spans one is at least as far inside as the other. -/
theorem isInner_of_not_isInner (h : s.isInner t = false) : t.isInner s = true := by
  by_contra hnot
  simp only [isInner_iff, ← Bool.not_eq_true] at h hnot
  rcases Position.le_total s.start t.start with hle | hle <;>
    rcases Position.le_total s.finish t.finish with hle' | hle' <;> tauto

/-- What starts later is further inside. -/
theorem isInner_of_start (h : s.start.le t.start = false) : s.isInner t = true :=
  isInner_iff.mpr ⟨(Position.le_total _ _).resolve_left (Bool.eq_false_iff.mp h),
    fun hle => absurd hle (Bool.eq_false_iff.mp h)⟩

/-- A span that starts later is no outer one. -/
theorem not_isInner_of_start (h : s.start.le t.start = false) : t.isInner s = false :=
  Bool.eq_false_iff.mpr fun hinner => Bool.eq_false_iff.mp h (isInner_iff.mp hinner).1

end Span

section

variable {α : Type} {p : Position} {spans : List (Span × α)} {s : Span × α}

/-- Whatever span has been found before, the search ends with one than which none is further
inside. -/
theorem exists_foldl_isInner (spans : List (Span × α)) (found : Span × α) :
    ∃ s ∈ found :: spans,
      spans.foldl
          (fun best s =>
            match best with
            | none => some s
            | some b => if s.1.isInner b.1 then some s else some b)
          (some found) = some s ∧
        ∀ x ∈ found :: spans, s.1.isInner x.1 = true := by
  induction spans generalizing found with
  | nil =>
    exact ⟨found, List.mem_singleton_self _, rfl,
      List.forall_mem_singleton.mpr (Span.isInner_refl _)⟩
  | cons x spans ih =>
    rw [List.foldl_cons]
    simp only [List.forall_mem_cons]
    split
    · rename_i hinner
      obtain ⟨s, hs, hfold, hx, hall⟩ := by simpa only [List.forall_mem_cons] using ih x
      exact ⟨s, List.mem_cons_of_mem _ hs, hfold, Span.isInner_trans hx hinner, hx, hall⟩
    · rename_i hnot
      obtain ⟨s, hs, hfold, hfound, hall⟩ := by simpa only [List.forall_mem_cons] using ih found
      have hinner := Span.isInner_of_not_isInner (Bool.eq_false_iff.mpr hnot)
      have hmem : s ∈ found :: x :: spans :=
        (List.sublist_cons_self x spans).cons_cons found |>.subset hs
      exact ⟨s, hmem, hfold, hfound, Span.isInner_trans hfound hinner, hall⟩

/-- The span that is found holds the position, and of those that do none is further inside. -/
theorem innermost?_spec (p : Position) (spans : List (Span × α)) :
    (innermost? p spans = none ∧ ∀ x ∈ spans, x.1.contains p = false) ∨
      ∃ s, innermost? p spans = some s ∧ s ∈ spans ∧ s.1.contains p = true ∧
        ∀ x ∈ spans, x.1.contains p = true → s.1.isInner x.1 = true := by
  have hmem : ∀ x, x ∈ spans.filter (fun s => s.1.contains p) ↔
      x ∈ spans ∧ x.1.contains p = true := fun x => List.mem_filter
  unfold innermost?
  cases hholding : spans.filter (fun s => s.1.contains p) with
  | nil =>
    exact Or.inl ⟨rfl, fun x hx => Bool.eq_false_iff.mpr (List.filter_eq_nil_iff.mp hholding x hx)⟩
  | cons found rest =>
    obtain ⟨s, hs, hfold, hall⟩ := exists_foldl_isInner rest found
    rw [← hholding] at hs hall
    obtain ⟨hspan, hcontains⟩ := (hmem s).mp hs
    exact Or.inr ⟨s, hfold, hspan, hcontains, fun x hx hp => hall x ((hmem x).mpr ⟨hx, hp⟩)⟩

/-- The innermost span contains the position and is inner to all others that do. -/
theorem innermost?_eq_some (h : innermost? p spans = some s) :
    s ∈ spans ∧ s.1.contains p = true ∧
      ∀ x ∈ spans, x.1.contains p = true → s.1.isInner x.1 = true := by
  rcases innermost?_spec p spans with ⟨hnone, -⟩ | ⟨s', hsome, hspec⟩
  · rw [h] at hnone
    cases hnone
  · rw [h] at hsome
    exact Option.some.inj hsome ▸ hspec

/-- There is no innermost span exactly if none contains the position. -/
theorem innermost?_eq_none_iff :
    innermost? p spans = none ↔ ∀ x ∈ spans, x.1.contains p = false := by
  rcases innermost?_spec p spans with ⟨hnone, hall⟩ | ⟨s, hsome, hs, hp, -⟩
  · exact iff_of_true hnone hall
  · refine iff_of_false (by rw [hsome]; exact Option.some_ne_none s) fun hall => ?_
    rw [hall s hs] at hp
    cases hp

end

/-! ### Blocks around a position -/

namespace Site

/-- The span of the object that is declared here, if one is. -/
def span? (s : Site) : Option Span := s.object?.map Prod.snd

/-- Whether an object is declared here whose span holds the position. -/
def covers (s : Site) (p : Position) : Bool := s.span?.any (·.contains p)

/-- What stands inside the object that is declared here, at whatever depth. -/
def inside (s : Site) : List Site :=
  match s.definition with
  | .object name body _ => Definition.sitesAll (s.path ++ [name.text]) s.enclosed body
  | _ => []

/-- There are fewer objects around the first object than around the second, and it starts before
it. -/
structure Above (s s' : Site) : Prop where
  length_lt : s.path.length < s'.path.length
  starts_before : ∀ x ∈ s.span?, ∀ x' ∈ s'.span?, x'.start.le x.start = false

variable {s s' : Site} {p : Position}

/-- A site covers a position if its span contains it. -/
theorem covers_iff : s.covers p = true ↔ ∃ x, s.span? = some x ∧ x.contains p = true := by
  rw [covers]
  cases s.span? <;> simp

/-- The sites inside another one stand further down. -/
theorem length_lt_of_mem_inside (h : s' ∈ s.inside) : s.path.length < s'.path.length := by
  unfold inside at h
  split at h
  · have hprefix := (Definition.isPrefix_of_mem_sitesAll h).length_le
    rw [List.length_append, List.length_singleton] at hprefix
    exact hprefix
  · cases h

/-- Objects of which one ends before the other starts have no position in common. -/
theorem not_covers_both {x x' : Span} (hx : s.span? = some x) (hx' : s'.span? = some x')
    (h : x'.start.le x.finish = false) (p : Position) : ¬ (s.covers p ∧ s'.covers p) := by
  rw [covers_iff, covers_iff]
  rintro ⟨⟨y, hy, hp⟩, y', hy', hp'⟩
  obtain rfl := Option.some.inj (hx.symm.trans hy)
  obtain rfl := Option.some.inj (hx'.symm.trans hy')
  have hle := Position.le_trans (Bool.and_eq_true_iff.mp hp').1 (Bool.and_eq_true_iff.mp hp).2
  rw [h] at hle
  cases hle

/-- A block has the span of its site. -/
theorem span?_of_block? {file : SourcePath} {comments : List Comment} {b : Block}
    (hb : s.block? file comments = some b) : b.fragment.span = s.span? := by
  obtain ⟨-, -, -, -, span, hspan, hobject⟩ := of_block?_eq hb
  rw [hspan, span?, hobject, Option.map_some]

/-- What has a span has a block. -/
theorem exists_block?_of_covers (file : SourcePath) (comments : List Comment)
    (h : s.covers p = true) : ∃ b, s.block? file comments = some b := by
  obtain ⟨x, hx, -⟩ := covers_iff.mp h
  unfold block?
  cases hdefinition : s.definition with
  | object | instantiation => exact ⟨_, rfl⟩
  | field | var | conditional | loop | template =>
    rw [span?, object?, hdefinition] at hx
    cases hx

end Site

namespace Document

/-- Objects that are nested in one another do not start together, and others have no position in
common. Definitions in template bodies do not count. -/
structure Nests (d : Document) : Prop where
  starts_later : ∀ s ∈ d.sites, ∀ s' ∈ s.inside, ∀ x ∈ s.span?, ∀ x' ∈ s'.span?,
    x'.start.le x.start = false
  apart : d.sites.Pairwise fun s s' => s' ∈ s.inside ∨ ∀ p, ¬ (s.covers p ∧ s'.covers p)

/-- Whether the object that is declared at `s` holds the position, and no other one that does has
more objects around it. -/
def isInnermost (d : Document) (p : Position) (s : Site) : Bool :=
  s.covers p && d.sites.all fun s' => !s'.covers p || decide (s'.path.length ≤ s.path.length)

/-- The pragmas of which the object that is declared at `s` is the innermost one around. -/
def ownPragmas (d : Document) (s : Site) : List String :=
  (d.pragmas.filter fun q => d.isInnermost q.position s).map Pragma.text

variable {d : Document} {p : Position} {s s' : Site}

/-- The innermost site covers the position, and no site further down does. -/
theorem isInnermost_iff :
    d.isInnermost p s = true ↔ s.covers p = true ∧
      ∀ s' ∈ d.sites, s'.covers p = true → s'.path.length ≤ s.path.length := by
  simp only [isInnermost, Bool.and_eq_true, List.all_eq_true, Bool.or_eq_true, Bool.not_eq_true',
    decide_eq_true_eq, ← Bool.not_eq_true, imp_iff_not_or]

namespace Nests

/-- The objects around a position form a chain. -/
theorem pairwise_above (h : d.Nests) (p : Position) :
    (d.sites.filter (·.covers p)).Pairwise Site.Above := by
  rw [List.pairwise_filter]
  refine List.Pairwise.imp_of_mem (fun {s s'} hs hs' hapart hp hp' => ?_) h.apart
  have hinside : s' ∈ s.inside := hapart.resolve_right fun hnot => hnot p ⟨hp, hp'⟩
  exact ⟨Site.length_lt_of_mem_inside hinside, h.starts_later s hs s' hinside⟩

/-- Of two sites that cover a position one stands in the other. -/
theorem eq_or_above (h : d.Nests) (hs : s ∈ d.sites) (hs' : s' ∈ d.sites)
    (hp : s.covers p = true) (hp' : s'.covers p = true) :
    s = s' ∨ s.Above s' ∨ s'.Above s := by
  have hsymm : Std.Symm fun s s' : Site => s.Above s' ∨ s'.Above s := ⟨fun _ _ => Or.symm⟩
  have hchain : (d.sites.filter (·.covers p)).Pairwise fun s s' => s.Above s' ∨ s'.Above s :=
    (h.pairwise_above p).imp Or.inl
  exact or_iff_not_imp_left.mpr
    (hchain.forall (List.mem_filter.mpr ⟨hs, hp⟩) (List.mem_filter.mpr ⟨hs', hp'⟩))

/-- The other objects around a position are above the innermost one. -/
theorem eq_or_above_of_isInnermost (h : d.Nests) (hs : s ∈ d.sites) (hs' : s' ∈ d.sites)
    (hinner : d.isInnermost p s = true) (hp : s'.covers p = true) : s' = s ∨ s'.Above s := by
  obtain ⟨hcovers, hdeepest⟩ := isInnermost_iff.mp hinner
  rcases h.eq_or_above hs' hs hp hcovers with heq | habove | habove
  · exact Or.inl heq
  · exact Or.inr habove
  · exact absurd habove.length_lt (Nat.not_lt.mpr (hdeepest s' hs' hp))

/-- Of the objects around a position one is the innermost one. -/
theorem exists_filter_isInnermost (h : d.Nests) (hs : s ∈ d.sites) (hp : s.covers p = true) :
    ∃ s', d.sites.filter (d.isInnermost p) = [s'] := by
  have hchain := h.pairwise_above p
  have hmem : ∀ s, s ∈ d.sites.filter (·.covers p) ↔ s ∈ d.sites ∧ s.covers p = true :=
    fun s => List.mem_filter
  have hfilter : d.sites.filter (d.isInnermost p) =
      (d.sites.filter (·.covers p)).filter (d.isInnermost p) := by
    rw [List.filter_filter]
    refine List.filter_congr fun s _ => ?_
    rw [isInnermost, Bool.and_right_comm, Bool.and_self]
  rw [hfilter]
  rcases List.eq_nil_or_concat (d.sites.filter (·.covers p)) with hnil | ⟨outer, last, hlast⟩
  · exact absurd ((hmem s).mpr ⟨hs, hp⟩) (hnil ▸ List.not_mem_nil)
  -- the last object of the chain is the innermost one, and no other one is
  rw [List.concat_eq_append] at hlast
  rw [hlast] at hchain hmem ⊢
  have habove : ∀ x ∈ outer, x.Above last := fun x hx =>
    (List.pairwise_append.mp hchain).2.2 x hx last (List.mem_singleton_self _)
  obtain ⟨hlastSite, hlastCovers⟩ :=
    (hmem last).mp (List.mem_append_right _ (List.mem_singleton_self _))
  have hinner : d.isInnermost p last = true := by
    refine isInnermost_iff.mpr ⟨hlastCovers, fun s' hs' hp' => ?_⟩
    rcases List.mem_append.mp ((hmem s').mpr ⟨hs', hp'⟩) with hs' | hs'
    · exact Nat.le_of_lt (habove s' hs').length_lt
    · exact List.mem_singleton.mp hs' ▸ Nat.le_refl _
  refine ⟨last, ?_⟩
  rw [List.filter_append, List.filter_eq_nil_iff.mpr, List.filter_eq_self.mpr, List.nil_append]
  · exact List.forall_mem_singleton.mpr hinner
  · intro x hx hinner
    exact absurd ((isInnermost_iff.mp hinner).2 last hlastSite hlastCovers)
      (Nat.not_le.mpr (habove x hx).length_lt)

end Nests

end Document

/-! ### What an outline does with pragmas -/

namespace Block

/-- Whether the block holds the position, and none of the blocks that do is further inside. -/
def isInnermostIn (blocks : List Block) (p : Position) (b : Block) : Bool :=
  b.fragment.span.any fun x =>
    x.contains p && blocks.all fun b' =>
      b'.fragment.span.all fun x' => !x'.contains p || x.isInner x'

/-- The blocks do not start together, if they have a position in common. -/
def StartApart (b b' : Block) : Prop :=
  ∀ p x x', b.fragment.span = some x → b'.fragment.span = some x' → x.contains p = true →
    x'.contains p = true → x.start ≠ x'.start

end Block

theorem Block.StartApart.symm {b b' : Block} (h : b.StartApart b') : b'.StartApart b :=
  fun p x x' hx hx' hp hp' => (h p x' x hx' hx hp' hp).symm

namespace Outline

variable {blocks : List Block} {p : Position} {b : Block} {k : Nat}

theorem mem_spans_iff {x : Span} :
    (x, k) ∈ spans blocks ↔ ∃ b, blocks[k]? = some b ∧ b.fragment.span = some x := by
  rw [spans, List.mem_filterMap]
  constructor
  · rintro ⟨⟨b, j⟩, hb, hx⟩
    obtain ⟨x', hx', heq⟩ := Option.map_eq_some_iff.mp hx
    obtain ⟨rfl, rfl⟩ := Prod.mk.inj heq
    exact ⟨b, List.mk_mem_zipIdx_iff_getElem?.mp hb, hx'⟩
  · rintro ⟨b, hb, hx⟩
    exact ⟨(b, k), List.mk_mem_zipIdx_iff_getElem?.mpr hb, by rw [hx, Option.map_some]⟩

/-- The innermost block contains the position and is inner to all others that do. -/
theorem isInnermostIn_iff :
    b.isInnermostIn blocks p = true ↔ ∃ x, b.fragment.span = some x ∧ x.contains p = true ∧
      ∀ b' ∈ blocks, ∀ x', b'.fragment.span = some x' → x'.contains p = true →
        x.isInner x' = true := by
  rw [Block.isInnermostIn]
  cases b.fragment.span with
  | none => simp
  | some x =>
    simp only [Option.any_some, Bool.and_eq_true, List.all_eq_true, Option.all_eq_true,
      Bool.or_eq_true, Bool.not_eq_true', ← Bool.not_eq_true, ← imp_iff_not_or, Option.some.injEq,
      exists_eq_left']

/-- At different places of the list there are different starts around a position. -/
theorem eq_of_start_eq (hapart : blocks.Pairwise Block.StartApart) {j : Nat} {x y : Span}
    (hx : (x, j) ∈ spans blocks) (hy : (y, k) ∈ spans blocks) (hp : x.contains p = true)
    (hp' : y.contains p = true) (hstart : x.start = y.start) : j = k := by
  obtain ⟨b, hb, hx⟩ := mem_spans_iff.mp hx
  obtain ⟨b', hb', hy⟩ := mem_spans_iff.mp hy
  obtain ⟨hj, rfl⟩ := List.getElem?_eq_some_iff.mp hb
  obtain ⟨hk, rfl⟩ := List.getElem?_eq_some_iff.mp hb'
  have hapart := List.pairwise_iff_getElem.mp hapart
  rcases Nat.lt_trichotomy j k with hlt | heq | hlt
  · exact absurd hstart (hapart j k hj hk hlt p x y hx hy hp hp')
  · exact heq
  · exact absurd hstart.symm (hapart k j hk hj hlt p y x hy hx hp' hp)

/-- The block that an outline finds for a position is the innermost one. -/
theorem home_eq_some_iff (hapart : blocks.Pairwise Block.StartApart) (hb : blocks[k]? = some b) :
    (innermost? p (spans blocks)).map Prod.snd = some k ↔ b.isInnermostIn blocks p = true := by
  rw [isInnermostIn_iff]
  constructor
  · intro h
    obtain ⟨⟨x, _⟩, hfound, rfl⟩ := Option.map_eq_some_iff.mp h
    obtain ⟨hx, hp, hall⟩ := innermost?_eq_some hfound
    obtain ⟨b', hb', hspan⟩ := mem_spans_iff.mp hx
    obtain rfl := Option.some.inj (hb.symm.trans hb')
    refine ⟨x, hspan, hp, fun b' hb' x' hx' hp' => ?_⟩
    obtain ⟨j, hj⟩ := List.getElem?_of_mem hb'
    exact hall (x', j) (mem_spans_iff.mpr ⟨b', hj, hx'⟩) hp'
  · rintro ⟨x, hspan, hp, hall⟩
    have hx : (x, k) ∈ spans blocks := mem_spans_iff.mpr ⟨b, hb, hspan⟩
    rcases innermost?_spec p (spans blocks) with ⟨-, hnone⟩ | ⟨⟨y, j⟩, hfound, hy, hp', hall'⟩
    · exact absurd hp (Bool.eq_false_iff.mp (hnone _ hx))
    -- both are as far inside as the other, so they are the same
    · obtain ⟨b', hb', hspan'⟩ := mem_spans_iff.mp hy
      have hxy := hall b' (List.mem_of_getElem? hb') y hspan' hp'
      have hyx := hall' (x, k) hx hp
      have hstart : y.start = x.start :=
        Position.le_antisymm (Span.isInner_iff.mp hxy).1 (Span.isInner_iff.mp hyx).1
      rw [hfound, Option.map_some, eq_of_start_eq hapart hy hx hp' hp hstart]

/-- Each block is given the pragmas of which it is the innermost one around. -/
theorem attachPragmas_eq (hapart : blocks.Pairwise Block.StartApart) (pragmas : List Pragma) :
    attachPragmas blocks (homes blocks pragmas) =
      blocks.map fun b => b.withPragmas
        ((pragmas.filter fun q => b.isInnermostIn blocks q.position).map Pragma.text) := by
  rw [attachPragmas]
  conv_rhs => rw [← List.zipIdx_map_fst 0 blocks, List.map_map]
  refine List.map_congr_left fun p hmem => ?_
  obtain ⟨b, k⟩ := p
  have hb := List.mk_mem_zipIdx_iff_getElem?.mp hmem
  have hfilter : (homes blocks pragmas).filter (fun h => h.2 == some k) =
      (pragmas.filter fun q => b.isInnermostIn blocks q.position).map fun q =>
        (q, (innermost? q.position (spans blocks)).map Prod.snd) := by
    rw [homes, List.filter_map]
    refine congrArg _ (List.filter_congr fun q _ => ?_)
    rw [Bool.eq_iff_iff, ← home_eq_some_iff hapart hb]
    exact beq_iff_eq
  rw [hfilter, List.map_map, Function.comp_apply, List.zipIdx_map_fst]
  rfl

end Outline

/-! ### Outlines of nested documents -/

/-- The blocks of a definition are those of its sites, in another order. -/
theorem Definition.blocks_perm (file : SourcePath) (comments : List Comment) (path : List String)
    (c : Bool) (d : Definition) :
    (blocks file comments path c d).Perm
      ((sites path c d).filterMap (Site.block? file comments)) := by
  -- what is so for each definition of a body is so for the body
  have hbody : ∀ (path : List String) (c : Bool) (ds : List Definition),
      (∀ d ∈ ds, ∀ path c, (blocks file comments path c d).Perm
        ((sites path c d).filterMap (Site.block? file comments))) →
      (blocksAll file comments path c ds).Perm
        ((sitesAll path c ds).filterMap (Site.block? file comments)) := by
    intro path c ds ih
    rw [blocksAll_eq_flatMap, sitesAll_eq_flatMap, List.filterMap_flatMap]
    exact List.Perm.flatMap_left ds fun d hd => ih d hd path c
  induction d using Definition.induction generalizing path c with
  | field | var | template | instantiation => exact .refl _
  | object name body span ih =>
    have hself : (⟨path, c, object name body span⟩ : Site).block? file comments = some
        ⟨path ++ [name.text], Fragment.ofObject file comments c name.text body span⟩ := rfl
    rw [blocks, sites, List.filterMap_cons_some hself]
    exact (List.perm_append_singleton _ _).trans ((hbody _ c body ih).cons _)
  | conditional condition thenBody elseBody span ih ih' =>
    rw [blocks, sites, List.filterMap_cons_none rfl, List.filterMap_append]
    exact (hbody path true thenBody ih).append (hbody path true elseBody ih')
  | loop key value items body span ih =>
    rw [blocks, sites, List.filterMap_cons_none rfl]
    exact hbody path true body ih

namespace Document

variable {path : SourcePath} {d : Document} {p : Position} {s : Site} {b : Block}

/-- The blocks of a document, before pragmas are given to them. -/
def bareBlocks (path : SourcePath) (d : Document) : List Block :=
  Definition.blocksAll path d.comments [] false d.definitions ++ [⟨[], Fragment.ofDocument path d⟩]

/-- The bare blocks of a file are those of its sites and the one of the file. -/
theorem bareBlocks_perm (path : SourcePath) (d : Document) :
    (d.bareBlocks path).Perm
      (d.sites.filterMap (Site.block? path d.comments) ++ [⟨[], Fragment.ofDocument path d⟩]) := by
  refine List.Perm.append_right _ ?_
  rw [Definition.blocksAll_eq_flatMap, sites, Definition.sitesAll_eq_flatMap,
    List.filterMap_flatMap]
  exact List.Perm.flatMap_left _ fun d' _ => Definition.blocks_perm path d.comments [] false d'

/-- The objects that are declared at sites have blocks. -/
theorem mem_bareBlocks_of_block? (hs : s ∈ d.sites) (hb : s.block? path d.comments = some b) :
    b ∈ d.bareBlocks path :=
  List.mem_append_left _ (Definition.mem_blocksAll_iff.mpr ⟨s, hs, hb⟩)

/-- What has a span is the block of an object. -/
theorem exists_site_of_mem_bareBlocks {x : Span} (hb : b ∈ d.bareBlocks path)
    (hx : b.fragment.span = some x) : ∃ s ∈ d.sites, s.block? path d.comments = some b := by
  rcases List.mem_append.mp hb with hb | hb
  · exact Definition.mem_blocksAll_iff.mp hb
  · rw [List.mem_singleton.mp hb] at hx
    cases hx

/-- A site covers what its block contains. -/
theorem covers_of_block? {x : Span} (hb : s.block? path d.comments = some b)
    (hx : b.fragment.span = some x) (hp : x.contains p = true) : s.covers p = true :=
  Site.covers_iff.mpr ⟨x, (Site.span?_of_block? hb).symm.trans hx, hp⟩

namespace Nests

/-- The blocks of a file that nests start apart. -/
theorem startApart (h : d.Nests) : (d.bareBlocks path).Pairwise Block.StartApart := by
  rw [(bareBlocks_perm path d).pairwise_iff Block.StartApart.symm, List.pairwise_append]
  refine ⟨?_, List.pairwise_singleton _ _, fun b _ b' hb' => ?_⟩
  · rw [List.pairwise_filterMap]
    refine List.Pairwise.imp_of_mem (fun {s s'} hs _ hapart b hb b' hb' => ?_) h.apart
    intro p x x' hx hx' hp hp' hstart
    rcases hapart with hinside | hdisjoint
    · have hlater := h.starts_later s hs s' hinside x ((Site.span?_of_block? hb).symm.trans hx)
        x' ((Site.span?_of_block? hb').symm.trans hx')
      rw [hstart] at hlater
      rcases Position.le_total x'.start x'.start with hle | hle <;> rw [hle] at hlater <;>
        cases hlater
    · exact hdisjoint p ⟨covers_of_block? hb hx hp, covers_of_block? hb' hx' hp'⟩
  -- the block of the whole file has no span
  · intro p x x' _ hx'
    rw [List.mem_singleton.mp hb'] at hx'
    cases hx'

/-- A block is the innermost one around a position if its object is. -/
theorem isInnermostIn_eq (h : d.Nests) (hs : s ∈ d.sites) (hb : s.block? path d.comments = some b)
    (p : Position) : b.isInnermostIn (d.bareBlocks path) p = d.isInnermost p s := by
  have hspan := Site.span?_of_block? hb
  rw [Bool.eq_iff_iff, Outline.isInnermostIn_iff, isInnermost_iff]
  constructor
  · rintro ⟨x, hx, hp, hall⟩
    have hcovers := covers_of_block? hb hx hp
    refine ⟨hcovers, fun s' hs' hp' => ?_⟩
    rcases h.eq_or_above hs hs' hcovers hp' with rfl | habove | habove
    · exact Nat.le_refl _
    -- what is below starts later, and so is further inside
    · obtain ⟨x', hx', hp'⟩ := Site.covers_iff.mp hp'
      obtain ⟨b', hb'⟩ := Site.exists_block?_of_covers path d.comments
        (Site.covers_iff.mpr ⟨x', hx', hp'⟩)
      have hinner := hall b' (mem_bareBlocks_of_block? hs' hb') x'
        ((Site.span?_of_block? hb').trans hx') hp'
      rw [Span.not_isInner_of_start (habove.starts_before x (hspan.symm.trans hx) x' hx')] at hinner
      cases hinner
    · exact Nat.le_of_lt habove.length_lt
  · intro hdeepest
    have hinner := isInnermost_iff.mpr hdeepest
    obtain ⟨x, hx, hp⟩ := Site.covers_iff.mp hdeepest.1
    refine ⟨x, hspan.trans hx, hp, fun b' hb' x' hx' hp' => ?_⟩
    obtain ⟨s', hs', hsb⟩ := exists_site_of_mem_bareBlocks hb' hx'
    rcases h.eq_or_above_of_isInnermost hs hs' hinner (covers_of_block? hsb hx' hp') with
      rfl | habove
    · obtain rfl := Option.some.inj (hx'.symm.trans ((Site.span?_of_block? hsb).trans hx))
      exact Span.isInner_refl _
    · exact Span.isInner_of_start
        (habove.starts_before x' ((Site.span?_of_block? hsb).symm.trans hx') x hx)

/-- The blocks of an outline are those of the objects, each with its own pragmas, and that of the
whole file, which has none. -/
theorem blocks_outline_perm (h : d.Nests) (path : SourcePath) :
    (d.outline path).blocks.Perm
      (d.sites.filterMap (fun s =>
          (s.block? path d.comments).map fun b => b.withPragmas (d.ownPragmas s)) ++
        [⟨[], Fragment.ofDocument path d⟩]) := by
  have hattached : (d.outline path).blocks = (d.bareBlocks path).map fun b => b.withPragmas
      ((d.pragmas.filter fun q => b.isInnermostIn (d.bareBlocks path) q.position).map
        Pragma.text) :=
    Outline.attachPragmas_eq h.startApart d.pragmas
  rw [hattached]
  refine ((bareBlocks_perm path d).map _).trans (.of_eq ?_)
  rw [List.map_append, List.map_filterMap, List.map_singleton]
  congr 1
  · refine List.filterMap_congr fun s hs => Option.map_congr fun b hb => ?_
    simp only [h.isInnermostIn_eq hs hb]
    rfl
  · have hfile : ∀ q : Pragma, (⟨[], Fragment.ofDocument path d⟩ : Block).isInnermostIn
        (d.bareBlocks path) q.position = false := fun _ => rfl
    simp only [hfile, List.filter_false]
    rfl

end Nests

/-- An outline keeps the pragmas around which there is no object. -/
theorem pragmas_outline (path : SourcePath) (d : Document) :
    (d.outline path).pragmas =
      d.pragmas.filter fun q => d.sites.all fun s => !s.covers q.position := by
  have houtline : (d.outline path).pragmas =
      ((Outline.homes (d.bareBlocks path) d.pragmas).filter fun h => h.2.isNone).map Prod.fst := rfl
  rw [houtline, Outline.homes, List.filter_map, List.map_map]
  refine (List.map_id _).trans (List.filter_congr fun q _ => ?_)
  rw [Function.comp_apply, Option.isNone_map, Bool.eq_iff_iff, Option.isNone_iff_eq_none,
    innermost?_eq_none_iff, List.all_eq_true]
  constructor
  · intro hnone s hs
    rw [Bool.not_eq_true', Bool.eq_false_iff]
    intro hcovers
    obtain ⟨b, hb⟩ := Site.exists_block?_of_covers path d.comments hcovers
    obtain ⟨k, hk⟩ := List.getElem?_of_mem (mem_bareBlocks_of_block? hs hb)
    obtain ⟨x, hx, hp⟩ := Site.covers_iff.mp hcovers
    have hspan := Outline.mem_spans_iff.mpr ⟨b, hk, (Site.span?_of_block? hb).trans hx⟩
    exact Bool.eq_false_iff.mp (hnone _ hspan) hp
  · rintro hall ⟨x, k⟩ hspan
    rw [Bool.eq_false_iff]
    intro hp
    obtain ⟨b, hk, hx⟩ := Outline.mem_spans_iff.mp hspan
    obtain ⟨s, hs, hb⟩ := exists_site_of_mem_bareBlocks (List.mem_of_getElem? hk) hx
    have hcovers := hall s hs
    rw [covers_of_block? hb hx hp] at hcovers
    cases hcovers

end Document

end SemanticIndex
