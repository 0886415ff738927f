import Stencil.Computation
import Stencil.Ordered.Map
import Stencil.Ordered.Set

/-!
# Scopes

The names that a block declares, and the computations that it keeps in aliases. An alias is
declared like any other name, and is also listed among the aliases.
-/

namespace Stencil

/-- Aliases by the computation they hold. -/
abbrev AliasMap := OrderedMap Computation String

/-- The names and the cached computations of one block. -/
@[ext]
structure Scope where
  /-- The names that the block declares. -/
  locals : OrderedSet String
  /-- The alias of each cached computation, in order of introduction. -/
  aliases : AliasMap
  /-- The names that are aliases. -/
  aliasNames : OrderedSet String
deriving DecidableEq

namespace Scope

/-- The scope that declares nothing. -/
def empty : Scope := ⟨∅, ∅, ∅⟩

instance : EmptyCollection Scope := ⟨empty⟩

instance : Inhabited Scope := ⟨∅⟩

/-- Declares an alias for a computation. A computation that has an alias already keeps it. -/
def register (scope : Scope) (c : Computation) (name : String) : Scope :=
  { locals := scope.locals.insert name
    aliases := scope.aliases.insertIfNew c name
    aliasNames := scope.aliasNames.insert name }

/-- The alias of a computation. -/
def aliasFor? (scope : Scope) (c : Computation) : Option String := scope.aliases.get? c

/-- Drops the alias of a computation. -/
def forget (scope : Scope) (c : Computation) : Scope :=
  match scope.aliasFor? c with
  | none => scope
  | some name =>
    { locals := scope.locals.erase name
      aliases := scope.aliases.erase c
      aliasNames := scope.aliasNames.erase name }

/-- Whether the scope declares a name. -/
def declares (scope : Scope) (name : String) : Bool := name ∈ scope.locals

/-- The names that the scope declares or lists as aliases, without those that hold one of its
cached computations. -/
def plainNames (scope : Scope) : List String :=
  (scope.locals.toList ++ scope.aliasNames.toList).filter (· ∉ scope.aliases.values)

end Scope

end Stencil
