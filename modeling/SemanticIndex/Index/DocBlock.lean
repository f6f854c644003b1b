import SemanticIndex.Gather
import SemanticIndex.Sorting
import SemanticIndex.Source.Document

/-!
# Documentation Blocks

The documentation of a definition is the run of consecutive lines with doc comments that ends on
the line right above it. A line's doc comments are taken from left to right, without the blanks
around them.

The blocks of a file can be read off a table of its lines, which is made once (`docTable`).

The main statements, `docBefore?_eq_none_iff`, `blockEnding_succ` and `docBefore?_eq_docIn?`, say
when there is no block, how a block grows downwards, and that the table holds the same blocks.
-/

namespace SemanticIndex

/-- The doc comments on a line, from left to right, those in one column in the order listed. -/
def docCommentsOn (comments : List Comment) (line : Nat) : List Comment :=
  sort (fun a b => a.position.column ≤ b.position.column)
    (comments.filter fun c => c.doc && c.position.line == line)

/-- The documentation on a line; none if no doc comment stands there. -/
def docLine? (comments : List Comment) (line : Nat) : Option String :=
  match docCommentsOn comments line with
  | [] => none
  | cs => some (" ".intercalate (cs.map fun c => Text.trim c.text))

/-- The documentation on the consecutive lines that end with `line`, top to bottom. Lines count
from one. -/
def blockEnding (comments : List Comment) : Nat → List String
  | 0 => []
  | line + 1 =>
    match docLine? comments (line + 1) with
    | none => []
    | some text => blockEnding comments line ++ [text]

/-- The documentation block right above a position. -/
def docBefore? (comments : List Comment) (p : Position) : Option String :=
  match blockEnding comments (p.line - 1) with
  | [] => none
  | block => some ("\n".intercalate block)

/-- A block grows by a line if there are doc comments on it, and ends if there are none. -/
theorem blockEnding_succ (comments : List Comment) (line : Nat) :
    blockEnding comments (line + 1) =
      (docLine? comments (line + 1)).elim [] fun text => blockEnding comments line ++ [text] := by
  rw [blockEnding]
  cases docLine? comments (line + 1) <;> rfl

/-- There is no documentation on a line exactly if no doc comment stands there. -/
theorem docLine?_eq_none_iff {comments : List Comment} {line : Nat} :
    docLine? comments line = none ↔ ∀ c ∈ comments, c.doc → c.position.line ≠ line := by
  unfold docLine?
  split
  · rename_i h
    have hl := congrArg List.length h
    simp only [docCommentsOn, length_sort, List.length_nil, List.length_eq_zero_iff,
      List.filter_eq_nil_iff] at hl
    simpa using hl
  · rename_i h
    simp only [reduceCtorEq, false_iff]
    intro hall
    apply h
    apply List.eq_nil_of_length_eq_zero
    rw [docCommentsOn, length_sort, List.length_eq_zero_iff, List.filter_eq_nil_iff]
    simpa using hall

/-- There is no block above a position exactly if it is on the first line or no doc comment
stands on the line above. -/
theorem docBefore?_eq_none_iff {comments : List Comment} {p : Position} :
    docBefore? comments p = none ↔ p.line ≤ 1 ∨ docLine? comments (p.line - 1) = none := by
  unfold docBefore?
  rcases hl : p.line - 1 with _ | line
  · simp only [blockEnding, true_iff]
    exact Or.inl (by omega)
  · have hp : ¬ p.line ≤ 1 := by omega
    rw [blockEnding]
    cases docLine? comments (line + 1) with
    | none => simp
    | some text =>
      simp only [hp, reduceCtorEq, or_self, iff_false]
      split
      · simp_all
      · simp

/-! ### The table of a file -/

section

variable {comments : List Comment}

/-- The doc comments of a file in reading order. -/
def docComments (comments : List Comment) : List Comment :=
  sort (fun a b => a.position.le b.position) (comments.filter Comment.doc)

/-- The lines of the doc comments of a file and their texts, in reading order. -/
def docTexts (comments : List Comment) : List (Nat × String) :=
  (docComments comments).map fun c => (c.position.line, Text.trim c.text)

/-- The documentation of a file by line. -/
def docTable (comments : List Comment) : Std.ExtTreeMap Nat String :=
  (gather (docTexts comments)).map fun _ texts => " ".intercalate texts

/-- The lines of a table from `line` upwards, as far as there are any without a gap. -/
def linesUpwards (table : Std.ExtTreeMap Nat String) : Nat → List String
  | 0 => []
  | line + 1 =>
    match table[line + 1]? with
    | none => []
    | some text => text :: linesUpwards table line

/-- The documentation block right above a position, read off a table. -/
def docIn? (table : Std.ExtTreeMap Nat String) (p : Position) : Option String :=
  match (linesUpwards table (p.line - 1)).reverse with
  | [] => none
  | block => some ("\n".intercalate block)

/-- Doc comments in reading order are in the order of the columns on each line. -/
theorem pairwise_docComments_on (comments : List Comment) (line : Nat) :
    ((docComments comments).filter fun c => c.position.line = line).Pairwise fun a b =>
      a.position.column ≤ b.position.column := by
  have hsorted : (docComments comments).Pairwise fun a b => a.position.le b.position := by
    refine pairwise_sort ?_ ?_ _
    · exact fun a b => Bool.or_eq_true_iff.mpr (Position.le_total a.position b.position)
    · exact fun a b c => Position.le_trans
  refine (hsorted.filter _).imp_of_mem fun ha hb hle => ?_
  have hline := (of_decide_eq_true (List.mem_filter.mp ha).2).trans
    (of_decide_eq_true (List.mem_filter.mp hb).2).symm
  rcases Position.le_iff.mp hle with hlt | ⟨-, hle⟩
  · exact absurd hline (Nat.ne_of_lt hlt)
  · exact hle

/-- The doc comments on a line are those of the file in reading order that stand there. -/
theorem docCommentsOn_eq_filter (comments : List Comment) (line : Nat) :
    docCommentsOn comments line =
      (docComments comments).filter fun c => c.position.line = line := by
  refine sort_eq_of_filter_eq (fun c : Comment => c.position.column) (fun k k' => decide (k ≤ k'))
    (fun k k' => by simpa using Nat.le_total k k') (fun k k' k'' h h' => ?_)
    (fun h h' => Nat.le_antisymm (of_decide_eq_true h) (of_decide_eq_true h'))
    ((pairwise_docComments_on comments line).imp decide_eq_true) fun column => ?_
  · exact decide_eq_true (Nat.le_trans (of_decide_eq_true h) (of_decide_eq_true h'))
  · -- comments at one position are in the order listed, both ways
    rw [docComments, List.filter_filter, List.filter_filter, filter_sort, List.filter_filter]
    · refine List.filter_congr fun c _ => ?_
      by_cases hline : c.position.line = line
      · simp [hline, Bool.and_comm]
      · simp [hline]
    · intro x y hx hy
      simp only [Bool.and_eq_true, beq_iff_eq, decide_eq_true_eq] at hx hy
      exact Position.le_iff.mpr (.inr ⟨hx.2.trans hy.2.symm, Nat.le_of_eq (hx.1.trans hy.1.symm)⟩)

/-- The texts paired with a line are those of the doc comments on it, from left to right. -/
theorem values_docTexts (comments : List Comment) (line : Nat) :
    (((docTexts comments).filter fun e => e.1 = line).map Prod.snd) =
      (docCommentsOn comments line).map fun c => Text.trim c.text := by
  rw [docTexts, List.filter_map, List.map_map, Function.comp_def, Function.comp_def,
    docCommentsOn_eq_filter]

/-- Each line of the table holds the documentation on that line. -/
theorem getElem?_docTable (comments : List Comment) (line : Nat) :
    (docTable comments)[line]? = docLine? comments line := by
  have hvalues := getElem?_gather (docTexts comments) line
  rw [values_docTexts] at hvalues
  rw [docTable, Std.ExtTreeMap.getElem?_map, docLine?]
  cases htexts : (gather (docTexts comments))[line]? with
  | none =>
    rw [htexts, Option.getD_none, eq_comm, List.map_eq_nil_iff] at hvalues
    rw [hvalues]
    rfl
  | some texts =>
    -- a line in the table has texts
    have hne := ne_nil_of_getElem?_gather htexts
    rw [htexts, Option.getD_some] at hvalues
    split
    · rename_i hnil
      exact absurd (by rw [hvalues, hnil, List.map_nil]) hne
    · rw [Option.map_some, hvalues]

/-- The block that ends with a line holds the lines of the table, read upwards. -/
theorem blockEnding_eq_reverse (comments : List Comment) (line : Nat) :
    blockEnding comments line = (linesUpwards (docTable comments) line).reverse := by
  induction line with
  | zero => rfl
  | succ line ih =>
    rw [blockEnding, linesUpwards, getElem?_docTable]
    cases docLine? comments (line + 1) with
    | none => rfl
    | some text => rw [List.reverse_cons, ← ih]

/-- The block above a position is the one read off the table of the file. -/
theorem docBefore?_eq_docIn? (comments : List Comment) (p : Position) :
    docBefore? comments p = docIn? (docTable comments) p := by
  rw [docBefore?, docIn?, blockEnding_eq_reverse]

end

end SemanticIndex
