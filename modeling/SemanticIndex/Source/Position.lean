/-!
# Positions and Spans

Places in a source file, counted in lines and columns from one, and the stretches between two
places. A span holds both its ends. Columns are counted in 32 bits: past the last one the count
starts over, so a name that runs past it has a span that holds nothing (`Span.contains_ofWidth_iff`
says where a span of some width lies).
-/

namespace SemanticIndex

/-- A place in a source file. -/
structure Position where
  /-- Line, counted from one. -/
  line : Nat := 1
  /-- Column, counted from one in characters. -/
  column : Nat := 1
  deriving DecidableEq, Inhabited

namespace Position

/-- The first place of a file. -/
def start : Position := ⟨1, 1⟩

/-- Reading order: by line, then by column. -/
instance : Ord Position := ⟨fun p q => (compare p.line q.line).then (compare p.column q.column)⟩

/-- `p` comes before `q` in reading order, or is the same place. -/
def le (p q : Position) : Bool := (compare p q).isLE

/-- Line and column with a colon between them. -/
def text (p : Position) : String := toString p.line ++ ":" ++ toString p.column

/-- The place `n` columns further on the same line, in 32 bits. -/
def advance (p : Position) (n : Nat) : Position :=
  { p with column := (p.column + n) % UInt32.size }

theorem compare_eq (p q : Position) :
    compare p q = (compare p.line q.line).then (compare p.column q.column) := rfl

/-- A position comes before one further on in its line or on a later line. -/
theorem le_iff {p q : Position} :
    p.le q ↔ p.line < q.line ∨ p.line = q.line ∧ p.column ≤ q.column := by
  rw [le, compare_eq]
  rcases Nat.lt_trichotomy p.line q.line with h | h | h
  · simp [Nat.compare_eq_lt.2 h, h]
  · simp [h, Nat.isLE_compare]
  · have h1 : ¬ p.line < q.line := by omega
    have h2 : p.line ≠ q.line := by omega
    simp [Nat.compare_eq_gt.2 h, h1, h2]

theorem le_trans {p q r : Position} (h : p.le q = true) (h' : q.le r = true) : p.le r = true := by
  rw [le_iff] at h h' ⊢
  omega

/-- Of two positions one comes before the other. -/
theorem le_total (p q : Position) : p.le q = true ∨ q.le p = true := by
  rw [le_iff, le_iff]
  omega

end Position

/-- A stretch of source text, both ends included. -/
structure Span where
  /-- The first place. -/
  start : Position := .start
  /-- The last place. -/
  finish : Position := .start
  deriving DecidableEq, Inhabited

namespace Span

/-- The order of spans: by start, then by end. -/
instance : Ord Span := ⟨fun s t => (compare s.start t.start).then (compare s.finish t.finish)⟩

/-- Whether a place lies in the span. -/
def contains (s : Span) (p : Position) : Bool := s.start.le p && p.le s.finish

/-- Whether both ends of `t` lie in `s`. -/
def encloses (s t : Span) : Bool := s.contains t.start && s.contains t.finish

/-- The span of `width` characters on one line; a span covers at least its first place. -/
def ofWidth (p : Position) (width : Nat) : Span := ⟨p, p.advance (width - 1)⟩

/-- The span that a name covers where it is written. -/
def ofName (p : Position) (name : String) : Span := ofWidth p name.length

/-- `s` is at least as far inside as `t`: it starts later, or starts together with `t` and ends
no later. Of two spans that hold one place, this tells which is the inner one. -/
def isInner (s t : Span) : Bool :=
  ((compare t.start s.start).then (compare s.finish t.finish)).isLE

/-- A span of some width holds the columns from its first to its last one, counted in 32 bits. -/
theorem contains_ofWidth_iff {p q : Position} {width : Nat} :
    (ofWidth q width).contains p = true ↔ p.line = q.line ∧ q.column ≤ p.column ∧
      p.column ≤ (q.column + (width - 1)) % UInt32.size := by
  rw [contains, Bool.and_eq_true_iff, Position.le_iff, Position.le_iff]
  simp only [ofWidth, Position.advance]
  omega

end Span

end SemanticIndex
