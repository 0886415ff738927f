import Stencil.Decimal.Reading
import Stencil.Json

/-!
# Numbers in JSON text

A number without fraction and exponent is an integer if it fits into 64 bits, signed or unsigned.
Every other number is a double, and so is `-0`. A number beyond the range of doubles is unreadable.
-/

namespace Stencil.Json.Number

/-- The value of a decimal digit. -/
def digitValue (c : Char) : Nat := c.toNat - '0'.toNat

/-- The digits at the start of a text, and the rest of it. -/
def digits (cs : List Char) : List Nat × List Char :=
  ((cs.takeWhile Char.isDigit).map digitValue, cs.dropWhile Char.isDigit)

/-- The digits before the point: a zero alone, or digits that do not start with a zero. -/
def whole? (cs : List Char) : Option (List Nat × List Char) :=
  match digits cs with
  | ([], _) => none
  | (0 :: _ :: _, _) => none
  | (ds, rest) => some (ds, rest)

/-- The digits after the point, if there is one. -/
def fraction? : List Char → Option (Option (List Nat) × List Char)
  | '.' :: cs =>
    match digits cs with
    | ([], _) => none
    | (ds, rest) => some (some ds, rest)
  | cs => some (none, cs)

/-- The natural number with the given digits. -/
def ofDigits (ds : List Nat) : Nat := ds.foldl (fun n d => n * 10 + d) 0

/-- Digits of an exponent that end the text. -/
def exponentDigits? (negative : Bool) (cs : List Char) : Option Int :=
  match digits cs with
  | ([], _) => none
  | (ds, []) => some (if negative then -(ofDigits ds : Int) else ofDigits ds)
  | _ => none

/-- The exponent, if there is one; it ends the text. -/
def exponent? : List Char → Option (Option Int)
  | [] => some none
  | c :: cs =>
    if c == 'e' || c == 'E' then
      match cs with
      | '-' :: cs => (exponentDigits? true cs).map some
      | '+' :: cs => (exponentDigits? false cs).map some
      | cs => (exponentDigits? false cs).map some
    else none

/-- A double from its written parts. -/
def double (negative : Bool) (g : Decimal.Gathered) (exponent : Int) : Json :=
  match g.magnitude? exponent with
  | some magnitude => .number (.float (.ofMagnitude negative magnitude))
  | none => .unreadable

/-- Reads a number without its sign. -/
def unsigned? (negative : Bool) (cs : List Char) : Option Json := do
  let (wholeDigits, cs) ← whole? cs
  let (fraction, cs) ← fraction? cs
  let exponent ← exponent? cs
  match fraction, exponent with
  | none, none =>
    let n := ofDigits wholeDigits
    if negative then
      if 0 < n ∧ 2 * n ≤ UInt64.size then return .int (-n)
      else return double negative (Decimal.gatherWhole wholeDigits) 0
    else if n < UInt64.size then return .int n
    else return double negative (Decimal.gatherWhole wholeDigits) 0
  | none, some e => return double negative (Decimal.gatherWhole wholeDigits) e
  | some ds, e => return double negative (Decimal.gather wholeDigits ds) (e.getD 0)

/-- Reads a number. -/
def parse? : List Char → Option Json
  | '-' :: cs => unsigned? true cs
  | cs => unsigned? false cs

end Stencil.Json.Number
