import Stencil.Decimal.Shortest

/-!
# How a double is written

A layout says which of two equally near decimals is taken, which exponents are written positionally,
and whether an exponent that is not negative has a sign. A positional number always has a point with
a digit after it.
-/

namespace Stencil

/-- The choices of a number format. -/
structure NumberLayout where
  tie : Tie
  /-- The least exponent of the first digit that is written positionally. -/
  least : Int
  /-- The greatest exponent of the first digit that is written positionally. -/
  greatest : Int
  /-- Whether an exponent that is not negative is written with a plus. -/
  plus : Bool

namespace NumberLayout

/-- The digits of a decimal with a point among them. -/
def positional (d : Decimal) : String :=
  let digits := toString d.digits
  let lead := d.leading
  if lead < 0 then "0." ++ "".pushn '0' (-lead - 1).toNat ++ digits
  else
    let whole := (lead + 1).toNat
    if digits.length ≤ whole then digits ++ "".pushn '0' (whole - digits.length) ++ ".0"
    else (digits.take whole).toString ++ "." ++ (digits.drop whole).toString

/-- One digit, a point and the other digits, and the exponent. -/
def scientific (layout : NumberLayout) (d : Decimal) : String :=
  let digits := toString d.digits
  let fraction := (digits.drop 1).toString
  let point := if fraction.isEmpty then "" else "." ++ fraction
  let sign := if layout.plus ∧ 0 ≤ d.leading then "+" else ""
  (digits.take 1).toString ++ point ++ "e" ++ sign ++ toString d.leading

/-- The text of a magnitude of a finite number. -/
def magnitudeText (layout : NumberLayout) (magnitude : Nat) : String :=
  if magnitude = 0 then "0.0"
  else
    let d := Decimal.shortest layout.tie magnitude
    if layout.least ≤ d.leading ∧ d.leading ≤ layout.greatest then positional d
    else layout.scientific d

/-- The text of a finite number. -/
def text (layout : NumberLayout) (x : Binary64) : String :=
  (if x.isNegative then "-" else "") ++ layout.magnitudeText x.magnitude

end NumberLayout

end Stencil
