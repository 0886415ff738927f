import Stencil.Computation.Text
import Stencil.Digest.Blake3

/-!
# Names of aliases

An alias is a local variable that holds the value of a computation. Its preferred name depends on
the computation alone, so that two branches that compute the same thing choose the same name. When
the name is taken, numbered candidates are tried in turn.
-/

namespace Stencil

/-- The first characters of the alias of a placeholder. -/
def Alias.placeholderMark : String := "_rph_"

/-- The first characters of the alias of any other computation. -/
def Alias.computationMark : String := "_fph"

/-- A byte as two upper-case hexadecimal digits. -/
def Alias.hexByte (b : UInt8) : String :=
  String.ofList [(Nat.digitChar (b.toNat / 16)).toUpper, (Nat.digitChar (b.toNat % 16)).toUpper]

/-- The first eight hexadecimal digits of the digest of a text. -/
def Alias.digest (s : String) : String :=
  String.join (((Digest.Blake3.hash s.toUTF8.data.toList).take 4).map hexByte)

/-- The name that the alias of a computation has unless it is taken. -/
def Computation.preferredAlias : Computation → String
  | .placeholder name => Alias.placeholderMark ++ name
  | c => Alias.computationMark ++ Alias.digest c.text

namespace Alias

/-- The candidate with a given number; number zero is the preferred name itself. -/
def candidate (base : String) : Nat → String
  | 0 => base
  | n + 1 => base ++ "_" ++ toString (n + 1)

/-- The first candidate from a given number on that is not taken, among as many as the bound
allows. -/
def search (taken : String → Bool) (base : String) : Nat → Nat → String
  | 0, number => candidate base number
  | bound + 1, number =>
    if taken (candidate base number) then search taken base bound (number + 1)
    else candidate base number

/-- The first candidate that is not taken. The bound is the number of names that can be taken, so
that the search always ends on a free one. -/
def freshName (taken : String → Bool) (bound : Nat) (base : String) : String :=
  search taken base bound 0

end Alias

end Stencil
