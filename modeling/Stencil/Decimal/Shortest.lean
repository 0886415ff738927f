import Stencil.Decimal.Binary64

/-!
# The shortest decimal of a double

Among the decimals that round to a given double, the one with the fewest digits, and of those the
one nearest to it. A grid of `n` digits is tested through the two points around the value: if any
point of the grid rounds to the double, one of these two does.
-/

namespace Stencil

/-- The number `digits * 10 ^ exponent`. -/
structure Decimal where
  digits : Nat
  exponent : Int
deriving DecidableEq, Repr

/-- Which of two equally near decimals is taken. -/
inductive Tie where
  | up
  | toEven
deriving DecidableEq, Repr

namespace Decimal

/-- The number of decimal digits of a natural number. -/
def width (n : Nat) : Nat := (Nat.toDigits 10 n).length

/-- The exponent of the first digit. -/
def leading (d : Decimal) : Int := d.exponent + width d.digits - 1

/-- The exponent `e` with `10 ^ e ≤ num / den < 10 ^ (e + 1)`. -/
def floorLog10 (num den : Nat) : Int :=
  if den ≤ num then (width (num / den) : Int) - 1
  else
    let w := width (den / num)
    if den ≤ num * Nat.pow 10 (w - 1) then 1 - (w : Int) else -(w : Int)

/-- The reals that round to a double, scaled to integers: the value lies between the two bounds, and
the bounds belong to it when they are inclusive. -/
structure Interval where
  value : Nat
  low : Nat
  high : Nat
  scale : Nat
  inclusive : Bool

/-- The interval of the finite magnitude with the given bits. Below a power of two the doubles lie
twice as close. -/
def interval (magnitude : Nat) : Interval :=
  let m := Binary64.significand magnitude
  let q := Binary64.exponent magnitude - 2
  let below := if m = Binary64.binadeSize ∧ -1074 < q + 2 then 1 else 2
  let up := Nat.pow 2 q.toNat
  { value := 4 * m * up, low := (4 * m - below) * up, high := (4 * m + 2) * up
    scale := Nat.pow 2 (-q).toNat, inclusive := m % 2 = 0 }

/-- Whether `c * 10 ^ p` rounds to the double of the interval. -/
def Interval.contains (i : Interval) (c : Nat) (p : Int) : Bool :=
  let point := c * Nat.pow 10 p.toNat * i.scale
  let low := i.low * Nat.pow 10 (-p).toNat
  let high := i.high * Nat.pow 10 (-p).toNat
  if i.inclusive then low ≤ point && point ≤ high else low < point && point < high

/-- The best point of the grid `10 ^ p` that rounds to the double. -/
def onGrid (tie : Tie) (i : Interval) (p : Int) : Option Nat :=
  let value := i.value * Nat.pow 10 (-p).toNat
  let unit := Nat.pow 10 p.toNat * i.scale
  let c := value / unit
  match i.contains c p, i.contains (c + 1) p with
  | false, false => none
  | true, false => some c
  | false, true => some (c + 1)
  | true, true =>
    let rest := 2 * (value % unit)
    if rest < unit then some c
    else if unit < rest then some (c + 1)
    else match tie with
      | .up => some (c + 1)
      | .toEven => some (c + c % 2)

/-- Drops zeros from the end of the digits. -/
def trim : Nat → Decimal → Decimal
  | 0, d => d
  | fuel + 1, d =>
    if d.digits % 10 = 0 then trim fuel ⟨d.digits / 10, d.exponent + 1⟩ else d

/-- The shortest decimal of a finite magnitude other than zero. Seventeen digits always suffice. -/
def shortest (tie : Tie) (magnitude : Nat) : Decimal :=
  let i := interval magnitude
  let e := floorLog10 i.value i.scale
  let grids := (List.range 17).map fun n : Nat => e - n
  match grids.findSome? fun p => (onGrid tie i p).map (Decimal.mk · p) with
  | some d => trim 17 d
  | none => ⟨0, 0⟩

end Decimal

end Stencil
