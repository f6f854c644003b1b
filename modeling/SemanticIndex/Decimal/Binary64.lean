/-!
# Double-Precision Numbers

A double as its sign, significand and binary exponent, read off its sixty-four bits, and the way
back. A finite double is `significand * 2 ^ exponent` with `significand < 2 ^ 53` and
`-1074 ≤ exponent`. Every finite double has one such form only: the significand is at least
`2 ^ 52` unless the exponent is the least one.
-/

namespace SemanticIndex.Decimal

/-- A power of two. -/
def twoTo (n : Nat) : Nat := Nat.pow 2 n

/-- What the bits of a double mean. -/
inductive Binary64 where
  /-- Not a number. -/
  | nan
  /-- Beyond every finite number. -/
  | infinite (negative : Bool)
  /-- The number `significand * 2 ^ exponent`, with its sign kept apart. -/
  | finite (negative : Bool) (significand : Nat) (exponent : Int)
  deriving DecidableEq

namespace Binary64

/-- Number of bits of the stored fraction. -/
def fractionBits : Nat := 52

/-- The exponent of the least positive double. -/
def leastExponent : Int := -1074

/-- Reads sign, exponent field and fraction off the bits of a double. -/
def ofBits (bits : Nat) : Binary64 :=
  let negative := bits / twoTo 63 == 1
  let field := bits / twoTo fractionBits % twoTo 11
  let fraction := bits % twoTo fractionBits
  if field = twoTo 11 - 1 then
    if fraction = 0 then infinite negative else nan
  else if field = 0 then
    finite negative fraction leastExponent
  else
    finite negative (twoTo fractionBits + fraction) (leastExponent + (field - 1 : Nat))

/-- The meaning of a double. -/
def ofFloat (x : Float) : Binary64 := ofBits x.toBits.toNat

/-- The bits of `significand * 2 ^ exponent`, for a significand below `2 ^ 53` and an exponent
of a double: the significand is shifted up as far as its width and the least exponent let it. -/
def finiteBits (negative : Bool) (significand : Nat) (exponent : Int) : Nat :=
  let sign := if negative then twoTo 63 else 0
  if significand = 0 then
    sign
  else
    let shift := min (fractionBits - significand.log2) (exponent - leastExponent).toNat
    let m := significand * twoTo shift
    let e := (exponent - leastExponent).toNat - shift
    if m < twoTo fractionBits then sign + m
    else sign + (e + 1) * twoTo fractionBits + (m - twoTo fractionBits)

/-- The double with the given sign, significand and exponent. -/
def toFloat : Binary64 → Float
  | nan => 0.0 / 0.0
  | infinite negative => if negative then -1.0 / 0.0 else 1.0 / 0.0
  | finite negative significand exponent =>
    Float.ofBits (UInt64.ofNat (finiteBits negative significand exponent))

end Binary64

/-- Remainder of the division of `x` by `y` truncated toward zero, which is exact: it has the
sign of `x` and is smaller than `y` in magnitude. An infinite `x`, a zero `y` and a NaN on either
side have no remainder. -/
def remainder (x y : Float) : Float :=
  match Binary64.ofFloat x, Binary64.ofFloat y with
  | .finite negative m p, .finite _ n q =>
    if n = 0 then
      Binary64.nan.toFloat
    else
      let low := min p q
      let r := (m * twoTo (p - low).toNat) % (n * twoTo (q - low).toNat)
      (Binary64.finite negative r low).toFloat
  | .finite .., .infinite _ => x
  | _, _ => Binary64.nan.toFloat

end SemanticIndex.Decimal
