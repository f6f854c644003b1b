import SemanticIndex.Text.GraphemeExtend
import SemanticIndex.Text.Printable

/-!
# Quoted Text

A text between double quotes, on one line and readable on any terminal: the quote, the backslash
and the four common control characters are written with a backslash and one letter, every other
character that does not show as itself by its code point in braces.

The main statement, `escape_eq_singleton_iff`, says which characters are written as themselves.
-/

namespace SemanticIndex.Text

/-- The letter that stands for a character after a backslash, if it has one. -/
def shortEscape? : Char → Option Char
  | '\x00' => some '0'
  | '\t' => some 't'
  | '\n' => some 'n'
  | '\r' => some 'r'
  | '\\' => some '\\'
  | '"' => some '"'
  | _ => none

/-- A code point in lower-case hexadecimal, between braces after a backslash and `u`. -/
def codePointEscape (c : Char) : List Char :=
  ['\\', 'u', '\x7b'] ++ Nat.toDigits 16 c.toNat ++ ['\x7d']

/-- What is written for one character. -/
def escape (c : Char) : List Char :=
  match shortEscape? c with
  | some letter => ['\\', letter]
  | none => if isPrintable c && !attaches c then [c] else codePointEscape c

/-- A text between double quotes, with each character escaped as `escape` says. -/
def quote (s : String) : String :=
  String.ofList (['"'] ++ s.toList.flatMap escape ++ ['"'])

/-- A character is written as itself exactly if it has no short escape, is printable and does
not attach to the character before it. -/
theorem escape_eq_singleton_iff {c : Char} :
    escape c = [c] ↔ shortEscape? c = none ∧ isPrintable c ∧ ¬ attaches c := by
  unfold escape
  cases h : shortEscape? c with
  | some letter => simp
  | none =>
    by_cases hp : isPrintable c && !attaches c
    · simp_all
    · simp only [hp, codePointEscape]
      simp_all

end SemanticIndex.Text
