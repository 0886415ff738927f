import Stencil.Decimal.Binary64

/-!
# Reading a decimal into a double

Digits are gathered into a 64-bit significand for as long as they fit. The significand is rounded
to a double, which is then multiplied or divided by the double of a power of ten. Short decimals
are read exactly; a long one may be off by a unit in the last place.
-/

namespace Stencil

namespace Decimal

/-- Digits gathered into a significand, with the power of ten that is still to be applied. -/
structure Gathered where
  significand : Nat
  exponent : Int
  full : Bool

/-- Whether another digit still fits into 64 bits. -/
def fits (significand digit : Nat) : Bool := significand * 10 + digit < UInt64.size

/-- Takes one digit before the point. A digit that does not fit only counts. -/
def Gathered.whole (g : Gathered) (digit : Nat) : Gathered :=
  if g.full || !fits g.significand digit then { g with exponent := g.exponent + 1, full := true }
  else { g with significand := g.significand * 10 + digit }

/-- Takes one digit after the point. A digit that does not fit is dropped, with all after it. -/
def Gathered.fraction (g : Gathered) (digit : Nat) : Gathered :=
  if g.full || !fits g.significand digit then { g with full := true }
  else { g with significand := g.significand * 10 + digit, exponent := g.exponent - 1 }

/-- Gathers the digits before the point. -/
def gatherWhole (digits : List Nat) : Gathered :=
  digits.foldl Gathered.whole ⟨0, 0, false⟩

/-- Gathers the digits on both sides of the point. -/
def gather (whole fraction : List Nat) : Gathered :=
  fraction.foldl Gathered.fraction { gatherWhole whole with full := false }

/-- The magnitude of the double of `10 ^ n`. -/
def power (n : Nat) : Nat := Binary64.roundRatio (Nat.pow 10 n) 1

/-- Scales a finite magnitude by a power of ten; `none` when it leaves the range of doubles. -/
def scale (magnitude : Nat) (exponent : Int) : Option Nat :=
  if magnitude = 0 then some 0
  else if 308 < exponent then none
  else if 0 ≤ exponent then
    let product := Binary64.mul magnitude (power exponent.toNat)
    if product = Binary64.infinityBits then none else some product
  else if -308 ≤ exponent then some (Binary64.div magnitude (power (-exponent).toNat))
  else scale (Binary64.div magnitude (power 308)) (exponent + 308)
termination_by exponent.natAbs
decreasing_by omega

/-- The magnitude of the double that the gathered digits and a written exponent stand for. -/
def Gathered.magnitude? (g : Gathered) (exponent : Int) : Option Nat :=
  scale (Binary64.roundRatio g.significand 1) (g.exponent + exponent)

end Decimal

end Stencil
