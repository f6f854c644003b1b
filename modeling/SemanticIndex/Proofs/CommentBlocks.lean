import Mathlib.Data.List.Forall2
import SemanticIndex.Index.DocBlock

/-!
# The Block Above a Position

The documentation above a position is the longest run of consecutive lines with doc comments that
ends on the line right above it (`docBefore?_spec`). It is specified apart from how it is found: a
line holds its doc comments by column and by the order listed (`IsDocLine`), a run consists of such
lines from the first line on (`IsRun`), and the run above a position is one that no other run ending
there goes beyond (`IsLongestRun`).

Only the doc comments on the lines that are looked at (`IsLookedAt`) matter, and of these only what
stands at each position, not how comments at different positions are listed.
-/

namespace SemanticIndex

variable {comments comments' : List Comment} {line first last n : Nat} {p q : Position}
  {cs cs' : List Comment} {text : String} {doc : Option String}

/-- The doc comments that stand at a position, in the order listed. -/
def docCommentsAt (comments : List Comment) (q : Position) : List Comment :=
  comments.filter fun c => c.doc && c.position == q

/-- A doc comment stands on the line. -/
def HasDoc (comments : List Comment) (line : Nat) : Prop :=
  ∃ c ∈ comments, c.doc ∧ c.position.line = line

/-- These are the doc comments of a line from left to right, those at one position in the order
listed. -/
structure IsDocLine (comments : List Comment) (line : Nat) (cs : List Comment) : Prop where
  on_line : ∀ c ∈ cs, c.position.line = line
  sorted : cs.Pairwise fun a b => a.position.column ≤ b.position.column
  at_position : ∀ q : Position, q.line = line →
    (cs.filter fun c => c.position == q) = docCommentsAt comments q

/-- The text of a line: its doc comments without the blanks around them, joined by spaces. -/
def IsLineText (comments : List Comment) (line : Nat) (text : String) : Prop :=
  ∃ cs, IsDocLine comments line cs ∧ text = " ".intercalate (cs.map fun c => Text.trim c.text)

/-- There is a doc comment on each of these lines. Lines count from one. -/
def IsRun (comments : List Comment) (first last : Nat) : Prop :=
  1 ≤ first ∧ first ≤ last ∧ ∀ line, first ≤ line → line ≤ last → HasDoc comments line

/-- No run that ends with the same line starts above this one. -/
def IsLongestRun (comments : List Comment) (first last : Nat) : Prop :=
  IsRun comments first last ∧ ∀ first', IsRun comments first' last → first ≤ first'

/-- What documents a position: nothing at the top of the file or below a line without doc comments,
and else the lines of the longest run that ends right above it, top to bottom. -/
inductive IsDocAbove (comments : List Comment) (p : Position) : Option String → Prop
  | none (h : p.line ≤ 1 ∨ ¬ HasDoc comments (p.line - 1)) : IsDocAbove comments p none
  | block {first : Nat} {texts : List String} (hp : 1 < p.line)
      (hrun : IsLongestRun comments first (p.line - 1))
      (htexts : List.Forall₂ (IsLineText comments) (List.range' first (p.line - first)) texts) :
      IsDocAbove comments p (some ("\n".intercalate texts))

/-- A line above a position with doc comments on all lines in between. -/
def IsLookedAt (comments : List Comment) (p : Position) (line : Nat) : Prop :=
  1 ≤ line ∧ line < p.line ∧ ∀ l, line < l → l < p.line → HasDoc comments l

/-! ### Lines -/

/-- Doc comments stand on a line exactly if there is documentation on it. -/
theorem hasDoc_iff : HasDoc comments line ↔ docLine? comments line ≠ none := by
  rw [Ne, docLine?_eq_none_iff]
  simp [HasDoc]

/-- There is one way to list the doc comments of a line. -/
theorem IsDocLine.unique (h : IsDocLine comments line cs) (h' : IsDocLine comments line cs') :
    cs = cs' := by
  refine eq_of_pairwise_of_filter_eq Nat.le_antisymm h.sorted h'.sorted fun column => ?_
  have hfilter : ∀ {ds : List Comment}, IsDocLine comments line ds →
      (ds.filter fun c => c.position.column == column) =
        docCommentsAt comments ⟨line, column⟩ := by
    intro ds hds
    rw [← hds.at_position ⟨line, column⟩ rfl]
    refine List.filter_congr fun c hc => ?_
    have hline := hds.on_line c hc
    obtain ⟨_, _, ⟨l, k⟩⟩ := c
    simp_all [beq_eq_decide]
  rw [hfilter h, hfilter h']

/-- The doc comments of a line, as they are found. -/
theorem isDocLine_docCommentsOn (comments : List Comment) (line : Nat) :
    IsDocLine comments line (docCommentsOn comments line) where
  on_line := by
    intro c hc
    simp only [docCommentsOn, mem_sort, List.mem_filter, Bool.and_eq_true, beq_iff_eq] at hc
    exact hc.2.2
  sorted := by
    refine (pairwise_sort ?_ ?_ _).imp of_decide_eq_true
    · intro a b
      simpa using Nat.le_total _ _
    · intro a b c hab hbc
      exact decide_eq_true (Nat.le_trans (of_decide_eq_true hab) (of_decide_eq_true hbc))
  at_position := by
    rintro q rfl
    rw [docCommentsOn, filter_sort, List.filter_filter, docCommentsAt]
    · refine List.filter_congr fun c _ => ?_
      rcases eq_or_ne c.position q with hq | hq
      · simp [hq]
      · simp [beq_false_of_ne hq]
    · intro x y hx hy
      rw [eq_of_beq hx, eq_of_beq hy]
      exact decide_eq_true (Nat.le_refl q.column)

/-- A line with doc comments has exactly one text. -/
theorem docLine?_eq_some_iff :
    docLine? comments line = some text ↔ HasDoc comments line ∧ IsLineText comments line text := by
  have hline := isDocLine_docCommentsOn comments line
  constructor
  · intro h
    refine ⟨hasDoc_iff.mpr (by simp [h]), _, hline, ?_⟩
    unfold docLine? at h
    split at h
    · cases h
    · exact (Option.some.inj h).symm
  · rintro ⟨hdoc, cs, hcs, rfl⟩
    obtain rfl := hcs.unique hline
    have hne := hasDoc_iff.mp hdoc
    unfold docLine? at hne ⊢
    split
    · rename_i hnil
      simp [hnil] at hne
    · rfl

/-- A line has one text. -/
theorem IsLineText.unique {text' : String} (h : IsLineText comments line text)
    (h' : IsLineText comments line text') : text = text' := by
  obtain ⟨cs, hcs, rfl⟩ := h
  obtain ⟨cs', hcs', rfl⟩ := h'
  rw [hcs.unique hcs']

/-! ### Runs -/

/-- A line is a run of its own exactly if there is a doc comment on it. -/
theorem isRun_self (hn : 1 ≤ n) : IsRun comments n n ↔ HasDoc comments n := by
  refine ⟨fun h => h.2.2 n (Nat.le_refl n) (Nat.le_refl n), fun h => ?_⟩
  refine ⟨hn, Nat.le_refl n, fun line hl hl' => ?_⟩
  rwa [Nat.le_antisymm hl' hl]

/-- A run goes on with the next line if there is a doc comment on it. -/
theorem IsRun.succ (h : IsRun comments first last) (hdoc : HasDoc comments (last + 1)) :
    IsRun comments first (last + 1) := by
  refine ⟨h.1, Nat.le_succ_of_le h.2.1, fun line hl hl' => ?_⟩
  rcases Nat.lt_or_eq_of_le hl' with hlt | rfl
  · exact h.2.2 line hl (Nat.lt_succ_iff.mp hlt)
  · exact hdoc

/-- A run of several lines is one without its last line. -/
theorem IsRun.pred (h : IsRun comments first (last + 1)) (hfirst : first ≤ last) :
    IsRun comments first last :=
  ⟨h.1, hfirst, fun line hl hl' => h.2.2 line hl (Nat.le_succ_of_le hl')⟩

/-- The run that ends with a line consists of it alone if there are no doc comments right above. -/
theorem isLongestRun_self (hdoc : HasDoc comments (last + 1))
    (habove : last = 0 ∨ ¬ HasDoc comments last) :
    IsLongestRun comments (last + 1) (last + 1) := by
  refine ⟨(isRun_self (Nat.succ_pos last)).mpr hdoc, fun first' h => ?_⟩
  by_contra hlt
  rcases habove with rfl | habove
  · exact absurd h.1 (by omega)
  · exact habove (h.2.2 last (by omega) (Nat.le_succ last))

/-- A longest run that goes on with one more line is still a longest run. -/
theorem IsLongestRun.succ (h : IsLongestRun comments first last)
    (hdoc : HasDoc comments (last + 1)) : IsLongestRun comments first (last + 1) := by
  refine ⟨h.1.succ hdoc, fun first' h' => ?_⟩
  rcases Nat.lt_or_ge last first' with hlt | hle
  · exact Nat.le_trans h.1.2.1 (Nat.le_of_lt hlt)
  · exact h.2 first' (h'.pred hle)

/-- The block that ends with a line holds the texts of the longest run ending there. -/
theorem blockEnding_spec (comments : List Comment) (last : Nat) :
    (blockEnding comments last = [] ∧ (last = 0 ∨ ¬ HasDoc comments last)) ∨
      ∃ first, IsLongestRun comments first last ∧
        List.Forall₂ (IsLineText comments) (List.range' first (last + 1 - first))
          (blockEnding comments last) := by
  induction last with
  | zero => exact .inl ⟨rfl, .inl rfl⟩
  | succ last ih =>
    rw [blockEnding_succ]
    cases htext : docLine? comments (last + 1) with
    | none => exact .inl ⟨rfl, .inr (mt hasDoc_iff.mp (not_not.mpr htext))⟩
    | some text =>
      obtain ⟨hdoc, hline⟩ := docLine?_eq_some_iff.mp htext
      right
      rcases ih with ⟨hnil, habove⟩ | ⟨first, hrun, hlines⟩
      · -- the run starts here
        refine ⟨last + 1, isLongestRun_self hdoc habove, ?_⟩
        rw [hnil, Nat.add_sub_cancel_left]
        exact .cons hline .nil
      · -- the run from above goes on
        have hlength : last + 1 + 1 - first = (last + 1 - first) + 1 := by
          have := hrun.1.2.1
          omega
        have hlast : first + (last + 1 - first) = last + 1 := by
          have := hrun.1.2.1
          omega
        refine ⟨first, hrun.succ hdoc, ?_⟩
        rw [hlength, List.range'_1_concat, hlast]
        exact List.rel_append hlines (.cons hline .nil)

/-! ### Blocks -/

/-- What is found above a position documents it. -/
theorem isDocAbove_docBefore? (comments : List Comment) (p : Position) :
    IsDocAbove comments p (docBefore? comments p) := by
  unfold docBefore?
  rcases blockEnding_spec comments (p.line - 1) with ⟨hnil, habove⟩ | ⟨first, hrun, hlines⟩
  · rw [hnil]
    exact .none (habove.imp_left (by omega))
  · have hp : 1 < p.line := by
      have := hrun.1
      unfold IsRun at this
      omega
    rw [Nat.sub_add_cancel (Nat.le_of_lt hp)] at hlines
    split
    · rename_i hnil
      rw [hnil] at hlines
      -- a run holds a line
      have hlength := hlines.length_eq
      rw [List.length_range', List.length_nil] at hlength
      have := hrun.1.2.1
      omega
    · exact .block hp hrun hlines

/-- Nothing but one text documents a position. -/
theorem IsDocAbove.unique {doc' : Option String} (h : IsDocAbove comments p doc)
    (h' : IsDocAbove comments p doc') : doc = doc' := by
  have hcontra : ∀ {first}, 1 < p.line → IsLongestRun comments first (p.line - 1) →
      ¬ (p.line ≤ 1 ∨ ¬ HasDoc comments (p.line - 1)) := by
    rintro first hp hrun (hle | hdoc)
    · omega
    · exact hdoc (hrun.1.2.2 _ hrun.1.2.1 (Nat.le_refl _))
  cases h with
  | none h =>
    cases h' with
    | none => rfl
    | block hp hrun _ => exact absurd h (hcontra hp hrun)
  | block hp hrun hlines =>
    cases h' with
    | none h' => exact absurd h' (hcontra hp hrun)
    | block _ hrun' hlines' =>
      obtain rfl := Nat.le_antisymm (hrun.2 _ hrun'.1) (hrun'.2 _ hrun.1)
      rw [List.right_unique_forall₂' (fun _ _ _ h h' => h.unique h') hlines hlines']

/-! ### What is looked at -/

/-- The text of a line depends on what stands at its positions. -/
theorem docLine?_congr
    (h : ∀ q : Position, q.line = line → docCommentsAt comments' q = docCommentsAt comments q) :
    docLine? comments' line = docLine? comments line := by
  have hline : docCommentsOn comments' line = docCommentsOn comments line := by
    have hcs := isDocLine_docCommentsOn comments' line
    have hcs' : IsDocLine comments line (docCommentsOn comments' line) :=
      ⟨hcs.on_line, hcs.sorted, fun q hq => (hcs.at_position q hq).trans (h q hq)⟩
    exact hcs'.unique (isDocLine_docCommentsOn comments line)
  rw [docLine?, docLine?, hline]

theorem blockEnding_congr (h : ∀ line, IsLookedAt comments ⟨n + 1, 1⟩ line →
    docLine? comments' line = docLine? comments line) :
    blockEnding comments' n = blockEnding comments n := by
  induction n with
  | zero => rfl
  | succ n ih =>
    rw [blockEnding_succ, blockEnding_succ, h (n + 1) ⟨by omega, Nat.lt_succ_self _, by
      intro l hl hl'
      simp only at hl'
      omega⟩]
    cases htext : docLine? comments (n + 1) with
    | none => rfl
    | some text =>
      have hdoc : HasDoc comments (n + 1) := hasDoc_iff.mpr (by simp [htext])
      -- the lines above are looked at because this one has doc comments
      rw [ih fun line hline => h line ⟨hline.1, Nat.lt_succ_of_lt hline.2.1, fun l hl hl' => ?_⟩]
      rcases Nat.lt_or_eq_of_le (Nat.lt_succ_iff.mp hl') with hlt | rfl
      · exact hline.2.2 l hl hlt
      · exact hdoc

/-- The block above a position: none at the top of the file or below a line without doc comments,
and else the longest run of lines with doc comments that ends right above it. It depends on the
lines looked at and, on these, on the doc comments that stand at each position. -/
theorem docBefore?_spec (comments : List Comment) (p : Position) :
    (∀ doc, docBefore? comments p = doc ↔ IsDocAbove comments p doc) ∧
      ∀ comments', (∀ q : Position, IsLookedAt comments p q.line →
          docCommentsAt comments' q = docCommentsAt comments q) →
        docBefore? comments' p = docBefore? comments p := by
  have hself := isDocAbove_docBefore? comments p
  refine ⟨fun doc => ⟨fun h => h ▸ hself, hself.unique⟩, fun comments' h => ?_⟩
  have hblock : blockEnding comments' (p.line - 1) = blockEnding comments (p.line - 1) := by
    refine blockEnding_congr fun line hline => docLine?_congr fun q hq => h q ?_
    rw [hq]
    obtain ⟨hpos, hlt, hdocs⟩ := hline
    simp only at hlt hdocs
    exact ⟨hpos, by omega, fun l hl hl' => hdocs l hl (by omega)⟩
  rw [docBefore?, docBefore?, hblock]

/-- The same block is found where its comments are listed in another order, among a comment that
documents nothing and one on a line farther up. -/
theorem docBefore?_spec_of_reordered :
    let comments : List Comment := [⟨" of the port ", true, ⟨4, 20⟩⟩, ⟨"The number", true, ⟨4, 1⟩⟩,
      ⟨"Where it listens.", true, ⟨3, 1⟩⟩]
    let comments' : List Comment := [⟨"Where it listens.", true, ⟨3, 1⟩⟩, ⟨"fixed", false, ⟨3, 30⟩⟩,
      ⟨"The number", true, ⟨4, 1⟩⟩, ⟨" of the port ", true, ⟨4, 20⟩⟩, ⟨"Settings", true, ⟨1, 1⟩⟩]
    (∀ q : Position, IsLookedAt comments ⟨5, 1⟩ q.line →
        docCommentsAt comments' q = docCommentsAt comments q) ∧
      docBefore? comments' ⟨5, 1⟩ = docBefore? comments ⟨5, 1⟩ ∧
      IsDocAbove comments ⟨5, 1⟩ (some "Where it listens.\nThe number of the port") := by
  intro comments comments'
  have hagree : ∀ q : Position, IsLookedAt comments ⟨5, 1⟩ q.line →
      docCommentsAt comments' q = docCommentsAt comments q := by
    intro q hq
    -- there is no documentation on the second line, so the first one is not looked at
    have hline : q.line ≠ 1 := by
      intro hq1
      have hdoc : HasDoc comments 2 := hq.2.2 2 (by omega) (by decide)
      simp [HasDoc, comments] at hdoc
    by_cases h1 : q = ⟨3, 1⟩
    · rw [h1]
      rfl
    by_cases h2 : q = ⟨4, 1⟩
    · rw [h2]
      rfl
    by_cases h3 : q = ⟨4, 20⟩
    · rw [h3]
      rfl
    have h4 : q ≠ ⟨1, 1⟩ := fun h => hline (by rw [h])
    simp [docCommentsAt, comments, comments', beq_false_of_ne (Ne.symm h1),
      beq_false_of_ne (Ne.symm h2), beq_false_of_ne (Ne.symm h3), beq_false_of_ne (Ne.symm h4)]
  obtain ⟨hspec, hsame⟩ := docBefore?_spec comments ⟨5, 1⟩
  exact ⟨hagree, hsame comments' hagree, (hspec _).mp (by decide)⟩

end SemanticIndex
