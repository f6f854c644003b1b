import SemanticIndex.Decimal.Binary64

/-!
# Shortest Decimals

The fewest decimal digits that read back to a given double, and their positional layout.

A double stands for an interval of reals: those that round to it. Its ends lie half a unit of
the last binary place away, a quarter below a power of two, and belong to the interval exactly if
the significand is even. Of the decimals with one digit, two digits and so on, the first that
fall into the interval are taken; the two neighbours of the number on each decimal grid suffice,
since a grid that meets the interval meets it there.

Everything is exact: all quantities are natural numbers in units of `2 ^ -1076 * 10 ^ -400`,
which divides every double, every half and quarter unit and every grid step that is needed.
-/

namespace SemanticIndex.Decimal

/-- A power of ten. -/
def tenTo (n : Nat) : Nat := Nat.pow 10 n

/-- A positive number written as `digits * 10 ^ exponent`. -/
structure Digits where
  /-- The digits, as a whole number. -/
  digits : Nat
  /-- The power of ten that they count. -/
  exponent : Int
  deriving DecidableEq

/-- Number of decimal digits of a natural number; one for zero. -/
def digitCount (n : Nat) : Nat := (Nat.toDigits 10 n).length

/-- One power of ten below every decimal place that a double needs. -/
def decimalPlaces : Nat := 400

/-- One power of two below every half and quarter unit of a double's last place. -/
def binaryPlaces : Nat := 1076

/-- The whole number `1` in common units. -/
def unit : Nat := twoTo binaryPlaces * tenTo decimalPlaces

/-- The reals that round to a double, in common units. -/
structure Interval where
  /-- Lower end. -/
  low : Nat
  /-- The double itself. -/
  value : Nat
  /-- Upper end. -/
  high : Nat
  /-- Whether the ends belong to it. -/
  closed : Bool

namespace Interval

/-- The interval of `m * 2 ^ q`. Just above a power of two the doubles below lie twice as dense,
so the lower end is half as far away. -/
def ofBinary (m : Nat) (q : Int) : Interval :=
  let ulp := twoTo (q + binaryPlaces).toNat * tenTo decimalPlaces
  let value := m * ulp
  let below :=
    if m = twoTo Binary64.fractionBits ∧ Binary64.leastExponent < q then ulp / 4 else ulp / 2
  ⟨value - below, value, value + ulp / 2, m % 2 == 0⟩

/-- Whether a number rounds to the double. -/
def contains (i : Interval) (x : Nat) : Bool :=
  if i.closed then i.low ≤ x && x ≤ i.high else i.low < x && x < i.high

/-- The decimal of the grid with unit `10 ^ e` that falls into the interval; of two the nearer,
and the upper one if both are equally near. -/
def onGrid? (i : Interval) (e : Int) : Option Digits :=
  let step := twoTo binaryPlaces * tenTo (e + decimalPlaces).toNat
  let n := i.value / step
  let down := n * step
  let up := down + step
  if i.contains down && (!i.contains up || i.value - down < up - i.value) then
    some ⟨n, e⟩
  else if i.contains up then
    some ⟨n + 1, e⟩
  else
    none

/-- The decimal exponent of the value: it lies in `[10 ^ (k - 1), 10 ^ k)`. -/
def magnitude (i : Interval) : Int :=
  (digitCount (i.value / twoTo binaryPlaces) : Int) - decimalPlaces

/-- The shortest decimal in the interval. Seventeen digits always tell two doubles apart. -/
def shortest (i : Interval) : Digits :=
  let k := i.magnitude
  ((List.range 17).findSome? fun n => i.onGrid? (k - (n + 1 : Nat))).getD
    ⟨i.value / unit, 0⟩

end Interval

/-- A number without its trailing zeros, and how many there were. The second argument bounds
their number. -/
def dropZeros : Nat → Nat → Nat × Nat
  | 0, n => (n, 0)
  | fuel + 1, n =>
    if n ≠ 0 ∧ n % 10 = 0 then
      let (m, k) := dropZeros fuel (n / 10)
      (m, k + 1)
    else
      (n, 0)

/-- The same number with no trailing zero among its digits. -/
def Digits.normalize (d : Digits) : Digits :=
  let (m, k) := dropZeros (digitCount d.digits) d.digits
  ⟨m, d.exponent + k⟩

/-- Positional notation: whole part, then a point and the fraction if there is one. There is
never an exponent. -/
def Digits.positional (d : Digits) : String :=
  let cs := Nat.toDigits 10 d.digits
  match d.exponent with
  | .ofNat k => String.ofList (cs ++ List.replicate k '0')
  | .negSucc k =>
    let places := k + 1
    let padded := List.replicate (places + 1 - cs.length) '0' ++ cs
    let whole := padded.length - places
    String.ofList (padded.take whole ++ '.' :: padded.drop whole)

/-- The text of a double: the shortest decimal that reads back to it, in positional notation,
with a minus sign if its sign bit is set, a whole number without a point, and words for what is
no number. -/
def text (x : Float) : String :=
  match Binary64.ofFloat x with
  | .nan => "NaN"
  | .infinite negative => if negative then "-inf" else "inf"
  | .finite negative m q =>
    let magnitude := if m = 0 then "0" else (Interval.ofBinary m q).shortest.normalize.positional
    if negative then "-" ++ magnitude else magnitude

end SemanticIndex.Decimal
