import Mathlib.Data.List.Forall2
import SemanticIndex.Proofs.Normalization

/-!
# Grouping

The text of an expression has no brackets, so it does not show which operands belong together. A
reader without precedences takes operators as they come, from the left. `Value.leftGrouped` is the
expression so read: it has the same text (`Value.display_leftGrouped`), nothing but an operand right
of an operator or behind a sign (`Value.isLeftGrouped_leftGrouped`), and it is the expression itself
if that is so already (`Value.leftGrouped_eq_self`).
-/

namespace SemanticIndex

/-- Whether the character may stand in a name: it does not separate anything. -/
def isNameCharacter (c : Char) : Bool :=
  c != ' ' && c != ',' && c != '\x7b' && c != '\x7d'

/-- Whether the text reads as one name: it does not begin like a number or with an operator, and
nothing in it separates. -/
def isIdentifier (name : String) : Bool :=
  match name.toList with
  | [] => false
  | c :: cs => !c.isDigit && c != '-' && c != '!' && (c :: cs).all isNameCharacter

namespace Value

mutual

/-- Whether the value is made of numbers without a sign, bare names that are identifiers, arrays and
operators. -/
def isPlain : Value → Bool
  | int i _ => 0 ≤ i.toInt
  | reference name _ => isIdentifier name
  | binary _ l r _ => isPlain l && isPlain r
  | unary _ x _ => isPlain x
  | array xs _ => allPlain xs
  | string .. | float .. | bool .. | atReference .. => false

/-- Whether all values of a list are plain. -/
def allPlain : List Value → Bool
  | [] => true
  | x :: xs => isPlain x && allPlain xs

end

/-- Whether no binary operator stands in the value, except inside of arrays. -/
def isOperand : Value → Bool
  | binary .. => false
  | unary _ x _ => isOperand x
  | _ => true

mutual

/-- Whether nothing but an operand stands right of each binary operator and behind each unary
one. -/
def isLeftGrouped : Value → Bool
  | binary _ l r _ => isLeftGrouped l && isLeftGrouped r && r.isOperand
  | unary _ x _ => isLeftGrouped x && x.isOperand
  | array xs _ => allLeftGrouped xs
  | _ => true

/-- Whether all values of a list are grouped to the left. -/
def allLeftGrouped : List Value → Bool
  | [] => true
  | x :: xs => isLeftGrouped x && allLeftGrouped xs

end

/-- Applies an operator to `l` and the first operand of a value, and the operators of the value to
the result. -/
def join (o : BinaryOperator) (l : Value) (p : Position) : Value → Value
  | binary o' a b q => binary o' (join o l p a) b q
  | r => binary o l r p

/-- Applies an operator to the first operand of a value, and the operators of the value to the
result. -/
def joinSign (o : UnaryOperator) (p : Position) : Value → Value
  | binary o' a b q => binary o' (joinSign o p a) b q
  | x => unary o x p

mutual

/-- The value in which operators apply as they come, unary ones to the operand behind them and
binary ones from the left. -/
def leftGrouped : Value → Value
  | binary o l r p => join o (leftGrouped l) p (leftGrouped r)
  | unary o x p => joinSign o p (leftGrouped x)
  | array xs p => array (leftGroupedAll xs) p
  | v => v

/-- The values of a list, each grouped to the left. -/
def leftGroupedAll : List Value → List Value
  | [] => []
  | x :: xs => leftGrouped x :: leftGroupedAll xs

end

/-! ### Lists -/

theorem allPlain_eq_all (xs : List Value) : allPlain xs = xs.all isPlain := by
  induction xs with
  | nil => rw [allPlain, List.all_nil]
  | cons x xs ih => rw [allPlain, List.all_cons, ih]

theorem allLeftGrouped_eq_all (xs : List Value) : allLeftGrouped xs = xs.all isLeftGrouped := by
  induction xs with
  | nil => rw [allLeftGrouped, List.all_nil]
  | cons x xs ih => rw [allLeftGrouped, List.all_cons, ih]

theorem leftGroupedAll_eq_map (xs : List Value) : leftGroupedAll xs = xs.map leftGrouped := by
  induction xs with
  | nil => rw [leftGroupedAll, List.map_nil]
  | cons x xs ih => rw [leftGroupedAll, List.map_cons, ih]

/-- Lists are the same if their items are, one by one. -/
theorem sameAll_iff_forall₂ {xs ys : List Value} :
    sameAll xs ys = true ↔ List.Forall₂ (fun x y => same x y = true) xs ys := by
  induction xs generalizing ys with
  | nil => cases ys <;> simp [sameAll]
  | cons x xs ih => cases ys <;> simp [sameAll, ih]

/-! ### Regrouping -/

variable {v w : Value} {o : BinaryOperator} {s : UnaryOperator} {l r x : Value} {p : Position}

/-- A value that is grouped to the left is an operand or ends with one behind an operator. -/
theorem isOperand_or_eq_binary (h : v.isLeftGrouped = true) :
    v.isOperand = true ∨ ∃ o l r p, v = binary o l r p := by
  cases v with
  | binary o l r p => exact Or.inr ⟨o, l, r, p, rfl⟩
  | unary o x p =>
    rw [isLeftGrouped, Bool.and_eq_true] at h
    exact Or.inl h.2
  | string | int | float | bool | reference | atReference | array => exact Or.inl rfl

/-- An operand is joined as it stands. -/
theorem join_of_isOperand (h : r.isOperand = true) : join o l p r = binary o l r p := by
  cases r with
  | binary => cases h
  | string | int | float | bool | reference | atReference | unary | array => rfl

/-- A sign stands before an operand as it is. -/
theorem joinSign_of_isOperand (h : x.isOperand = true) : joinSign s p x = unary s x p := by
  cases x with
  | binary => cases h
  | string | int | float | bool | reference | atReference | unary | array => rfl

/-- Nothing is lost when an operator is applied to a part of what stands right of it. -/
theorem display_join (o : BinaryOperator) (l : Value) (p : Position) (r : Value) :
    (join o l p r).display = (binary o l r p).display := by
  induction r using Value.induction with
  | binary o' a b q ha _ =>
    rw [join, display, ha, display, display, display]
    simp only [String.append_assoc]
  | string | int | float | bool | reference | atReference | unary | array => rfl

/-- Moving a sign inwards does not change the text. -/
theorem display_joinSign (s : UnaryOperator) (p : Position) (x : Value) :
    (joinSign s p x).display = (unary s x p).display := by
  induction x using Value.induction with
  | binary o' a b q ha _ =>
    rw [joinSign, display, ha, display, display, display]
    simp only [String.append_assoc]
  | string | int | float | bool | reference | atReference | unary | array => rfl

/-- The text does not show how the value is grouped. -/
theorem display_leftGrouped (v : Value) : v.leftGrouped.display = v.display := by
  induction v using Value.induction with
  | string | int | float | bool | reference | atReference => rfl
  | binary o l r p hl hr => rw [leftGrouped, display_join, display, display, hl, hr]
  | unary s x p hx => rw [leftGrouped, display_joinSign, display, display, hx]
  | array xs p ih =>
    rw [leftGrouped, display, display, displayAll_eq_map, displayAll_eq_map, leftGroupedAll_eq_map,
      List.map_map]
    exact congrArg (fun items => _ ++ ", ".intercalate items ++ _) (List.map_congr_left ih)

/-- Joined expressions are grouped to the left if both sides are. -/
theorem isLeftGrouped_join (hl : l.isLeftGrouped = true) (hr : r.isLeftGrouped = true) :
    (join o l p r).isLeftGrouped = true := by
  induction r using Value.induction with
  | binary o' a b q ha _ =>
    simp only [join, isLeftGrouped, Bool.and_eq_true] at hr ⊢
    exact ⟨⟨ha hr.1.1, hr.1.2⟩, hr.2⟩
  | string | int | float | bool | reference | atReference | unary | array =>
    have hoperand := (isOperand_or_eq_binary hr).resolve_right (by simp)
    rw [join_of_isOperand hoperand, isLeftGrouped, hl, hr, hoperand]
    rfl

/-- An expression behind a sign is grouped to the left if it was without. -/
theorem isLeftGrouped_joinSign (hx : x.isLeftGrouped = true) :
    (joinSign s p x).isLeftGrouped = true := by
  induction x using Value.induction with
  | binary o' a b q ha _ =>
    simp only [joinSign, isLeftGrouped, Bool.and_eq_true] at hx ⊢
    exact ⟨⟨ha hx.1.1, hx.1.2⟩, hx.2⟩
  | string | int | float | bool | reference | atReference | unary | array =>
    have hoperand := (isOperand_or_eq_binary hx).resolve_right (by simp)
    rw [joinSign_of_isOperand hoperand, isLeftGrouped, hx, hoperand]
    rfl

/-- Only operands stand right of operators and behind signs. -/
theorem isLeftGrouped_leftGrouped (v : Value) : v.leftGrouped.isLeftGrouped = true := by
  induction v using Value.induction with
  | string | int | float | bool | reference | atReference => rfl
  | binary o l r p hl hr => exact isLeftGrouped_join hl hr
  | unary s x p hx => exact isLeftGrouped_joinSign hx
  | array xs p ih =>
    rw [leftGrouped, isLeftGrouped, allLeftGrouped_eq_all, leftGroupedAll_eq_map, List.all_map]
    exact List.all_eq_true.mpr ih

/-- Where only operands stand there, nothing is regrouped. -/
theorem leftGrouped_eq_self (h : v.isLeftGrouped = true) : v.leftGrouped = v := by
  induction v using Value.induction with
  | string | int | float | bool | reference | atReference => rfl
  | binary o l r p hl hr =>
    simp only [isLeftGrouped, Bool.and_eq_true] at h
    rw [leftGrouped, hl h.1.1, hr h.1.2, join_of_isOperand h.2]
  | unary s x p hx =>
    simp only [isLeftGrouped, Bool.and_eq_true] at h
    rw [leftGrouped, hx h.1, joinSign_of_isOperand h.2]
  | array xs p ih =>
    rw [isLeftGrouped, allLeftGrouped_eq_all, List.all_eq_true] at h
    rw [leftGrouped, leftGroupedAll_eq_map]
    exact congrArg (array · p) ((List.map_congr_left fun x hx => ih x hx (h x hx)).trans
      (List.map_id' xs))

/-! ### Plain values -/

/-- Joined expressions are plain if both sides are. -/
theorem isPlain_join (hl : l.isPlain = true) (hr : r.isPlain = true) :
    (join o l p r).isPlain = true := by
  induction r using Value.induction with
  | binary o' a b q ha _ =>
    simp only [join, isPlain, Bool.and_eq_true] at hr ⊢
    exact ⟨ha hr.1, hr.2⟩
  | string | int | float | bool | reference | atReference | unary | array =>
    exact Bool.and_eq_true_iff.mpr ⟨hl, hr⟩

/-- An expression behind a sign is plain if it was without. -/
theorem isPlain_joinSign (hx : x.isPlain = true) : (joinSign s p x).isPlain = true := by
  induction x using Value.induction with
  | binary o' a b q ha _ =>
    simp only [joinSign, isPlain, Bool.and_eq_true] at hx ⊢
    exact ⟨ha hx.1, hx.2⟩
  | string | int | float | bool | reference | atReference | unary | array => exact hx

/-- Grouping keeps a value plain. -/
theorem isPlain_leftGrouped (h : v.isPlain = true) : v.leftGrouped.isPlain = true := by
  induction v using Value.induction with
  | string | int | float | bool | reference | atReference => exact h
  | binary o l r p hl hr =>
    rw [isPlain, Bool.and_eq_true] at h
    exact isPlain_join (hl h.1) (hr h.2)
  | unary s x p hx => exact isPlain_joinSign (hx h)
  | array xs p ih =>
    rw [isPlain, allPlain_eq_all, List.all_eq_true] at h
    rw [leftGrouped, isPlain, allPlain_eq_all, leftGroupedAll_eq_map, List.all_map]
    exact List.all_eq_true.mpr fun x hx => ih x hx (h x hx)

/-- Plain values that are the same wherever they were written have the same text. -/
theorem display_eq_of_same (hv : v.isPlain = true) (h : v.same w = true) :
    v.display = w.display := by
  induction v using Value.induction generalizing w with
  | string | float | bool | atReference => cases hv
  | int i p =>
    cases w with
    | int j q =>
      have hij : i = j := eq_of_beq h
      rw [hij]
      rfl
    | string | float | bool | reference | atReference | binary | unary | array => cases h
  | reference name p =>
    cases w with
    | reference name' q => exact eq_of_beq h
    | string | int | float | bool | atReference | binary | unary | array => cases h
  | binary o l r p hl hr =>
    cases w with
    | binary o' l' r' q =>
      simp only [isPlain, same, Bool.and_eq_true] at hv h
      rw [display, display, eq_of_beq h.1.1, hl hv.1 h.1.2, hr hv.2 h.2]
    | string | int | float | bool | reference | atReference | unary | array => cases h
  | unary s x p hx =>
    cases w with
    | unary s' x' q =>
      simp only [isPlain, same, Bool.and_eq_true] at hv h
      rw [display, display, eq_of_beq h.1, hx hv h.2]
    | string | int | float | bool | reference | atReference | binary | array => cases h
  | array xs p ih =>
    cases w with
    | array ys q =>
      rw [isPlain, allPlain_eq_all, List.all_eq_true] at hv
      -- item by item, what is the same has the same text
      have hsame : List.Forall₂ (fun x y => (∀ w, same x w = true → x.display = w.display) ∧
          same x y = true) xs ys :=
        (List.forall₂_and_left xs ys).mpr
          ⟨fun x hx w => ih x hx (hv x hx), sameAll_iff_forall₂.mp h⟩
      have hitems : displayAll xs = displayAll ys := by
        rw [displayAll_eq_map, displayAll_eq_map, ← List.forall₂_eq_eq_eq,
          List.forall₂_map_left_iff, List.forall₂_map_right_iff]
        exact hsame.imp fun _ _ h => h.1 _ h.2
      rw [display, display, hitems]
    | string | int | float | bool | reference | atReference | binary | unary => cases h

end Value

end SemanticIndex
