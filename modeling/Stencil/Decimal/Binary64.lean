/-!
# Double-precision numbers by their bits

A double is kept as its 64 bits, so that equality tells `0.0` from `-0.0` and one NaN from another.
A finite magnitude is read as `m * 2 ^ q`, and a quotient of natural numbers is rounded to the
nearest double with halves going to the even neighbour; all of it is exact arithmetic on `Nat`.
-/

namespace Stencil

/-- A double-precision number, given by its bits. -/
@[ext]
structure Binary64 where
  bits : UInt64
deriving DecidableEq, Repr, Inhabited

namespace Binary64

/-- The bits of positive infinity; smaller magnitudes are finite, greater ones are NaN. -/
def infinityBits : Nat := 0x7ff0000000000000

/-- The bit that is set in a number with a minus sign. -/
def signBit : Nat := 0x8000000000000000

/-- How many doubles lie between two neighbouring powers of two. -/
def binadeSize : Nat := 0x10000000000000

/-- Whether the number has a minus sign. -/
def isNegative (x : Binary64) : Bool := signBit ≤ x.bits.toNat

/-- The bits without the sign. -/
def magnitude (x : Binary64) : Nat := x.bits.toNat % signBit

/-- Whether the number is no number. -/
def isNaN (x : Binary64) : Bool := infinityBits < x.magnitude

/-- Whether the number is one of the two infinities. -/
def isInfinite (x : Binary64) : Bool := x.magnitude = infinityBits

/-- Whether the number is neither infinite nor NaN. -/
def isFinite (x : Binary64) : Bool := x.magnitude < infinityBits

/-- The number with the given sign and magnitude bits. -/
def ofMagnitude (negative : Bool) (magnitude : Nat) : Binary64 :=
  ⟨UInt64.ofNat (if negative then signBit + magnitude else magnitude)⟩

/-- The factor `m` of a finite magnitude `m * 2 ^ q`. -/
def significand (magnitude : Nat) : Nat :=
  if magnitude < binadeSize then magnitude else magnitude % binadeSize + binadeSize

/-- The exponent `q` of a finite magnitude `m * 2 ^ q`. -/
def exponent (magnitude : Nat) : Int :=
  if magnitude < binadeSize then -1074 else (magnitude / binadeSize : Nat) - 1075

/-- A finite magnitude as a numerator and a denominator. -/
def ratio (magnitude : Nat) : Nat × Nat :=
  let q := exponent magnitude
  (significand magnitude * Nat.pow 2 q.toNat, Nat.pow 2 (-q).toNat)

/-- The integer nearest to `num / den`; of two, the even one. -/
def roundHalfEven (num den : Nat) : Nat :=
  let quotient := num / den
  let twice := 2 * (num % den)
  if twice < den then quotient
  else if den < twice then quotient + 1
  else quotient + quotient % 2

/-- The magnitude bits of the double nearest to `num / den`, of two the even one. A quotient beyond
the greatest double becomes infinity. -/
def roundRatio (num den : Nat) : Nat :=
  if num = 0 then 0
  else
    let estimate : Int := (num.log2 : Int) - den.log2
    let isBelow := num * Nat.pow 2 (-estimate).toNat < den * Nat.pow 2 estimate.toNat
    let binade := if isBelow then estimate - 1 else estimate
    let q := max (binade - 52) (-1074)
    let m := roundHalfEven (num * Nat.pow 2 (-q).toNat) (den * Nat.pow 2 q.toNat)
    min ((q + 1074).toNat * binadeSize + m) infinityBits

/-- The double nearest to an integer. -/
def ofInt (n : Int) : Binary64 := ofMagnitude (n < 0) (roundRatio n.natAbs 1)

/-- The magnitude of the product of two finite magnitudes. -/
def mul (a b : Nat) : Nat :=
  let (na, da) := ratio a
  let (nb, db) := ratio b
  roundRatio (na * nb) (da * db)

/-- The magnitude of the quotient of two finite magnitudes, of which the second is not zero. -/
def div (a b : Nat) : Nat :=
  let (na, da) := ratio a
  let (nb, db) := ratio b
  roundRatio (na * db) (da * nb)

/-- Sixteen lower-case hexadecimal digits of the bits. -/
def hex (x : Binary64) : String :=
  let digits := String.ofList (Nat.toDigits 16 x.bits.toNat)
  "".pushn '0' (16 - digits.length) ++ digits

end Binary64

end Stencil
