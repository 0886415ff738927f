import Stencil.Literal
import Stencil.Operator

/-!
# Computations

A computation is what an expression computes, free of where it stands and of what the optimiser
noted on it. Two expressions are the same computation exactly when they are built alike: `1` and
`1.0` are different computations although their values agree.

Main statement: `Computation.same_iff`, that the structural comparison decides equality.
-/

namespace Stencil

/-- The shape of an expression without locations and annotations. -/
inductive Computation where
  | placeholder (name : String)
  | identifier (name : String)
  | literal (value : Literal)
  | binary (op : Operator) (left right : Computation)
  | filter (name : Option String) (operand : Computation)
  | call (callee : Computation) (arguments : List Computation)
  | list (items : List Computation)
deriving Repr, Inhabited

namespace Computation

mutual

/-- Compares two computations. -/
def same : Computation → Computation → Bool
  | .placeholder a, .placeholder b => a = b
  | .identifier a, .identifier b => a = b
  | .literal a, .literal b => a = b
  | .binary op l r, .binary op' l' r' => op = op' && same l l' && same r r'
  | .filter f e, .filter f' e' => f = f' && same e e'
  | .call c as, .call c' as' => same c c' && sameAll as as'
  | .list as, .list as' => sameAll as as'
  | _, _ => false
termination_by structural c => c

/-- Compares two lists of computations, member by member. -/
def sameAll : List Computation → List Computation → Bool
  | [], [] => true
  | a :: as, b :: bs => same a b && sameAll as bs
  | _, _ => false
termination_by structural cs => cs

end

mutual

theorem same_iff (a b : Computation) : same a b = true ↔ a = b := by
  cases a with
  | placeholder | identifier | literal => cases b <;> simp [same]
  | binary op l r =>
    cases b <;> simp [same]
    rw [same_iff l, same_iff r, and_assoc]
  | filter f e =>
    cases b <;> simp [same]
    rw [same_iff e]
    exact fun _ => Iff.rfl
  | call c as =>
    cases b <;> simp [same]
    rw [same_iff c, sameAll_iff as]
  | list as =>
    cases b <;> simp [same]
    rw [sameAll_iff as]
termination_by structural a

theorem sameAll_iff (as bs : List Computation) : sameAll as bs = true ↔ as = bs := by
  cases as with
  | nil => cases bs <;> simp [sameAll]
  | cons a as =>
    cases bs <;> simp [sameAll]
    rw [same_iff a, sameAll_iff as]
termination_by structural as

end

instance : DecidableEq Computation := fun a b =>
  decidable_of_iff (same a b = true) (same_iff a b)

mutual

/-- The names of the variables that a computation reads as identifiers, from left to right. -/
def identifiers : Computation → List String
  | .identifier name => [name]
  | .placeholder _ | .literal _ => []
  | .binary _ left right => left.identifiers ++ right.identifiers
  | .filter _ operand => operand.identifiers
  | .call callee arguments => callee.identifiers ++ identifiersOf arguments
  | .list items => identifiersOf items
termination_by structural c => c

/-- The identifiers of a list of computations. -/
def identifiersOf : List Computation → List String
  | [] => []
  | c :: rest => c.identifiers ++ identifiersOf rest
termination_by structural cs => cs

end

end Computation

end Stencil
