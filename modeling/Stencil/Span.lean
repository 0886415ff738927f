/-!
# Source locations

A span is the piece of template text that a node was read from. Nodes that the optimiser makes
itself carry the zero span, which is written `<generated>`.
-/

namespace Stencil

/-- Byte offsets of a piece of template text, and the line and column at which it starts. -/
@[ext]
structure Span where
  start : UInt32
  stop : UInt32
  line : UInt32
  column : UInt32
deriving DecidableEq, Repr

namespace Span

/-- The span of nodes that come from no template text. -/
def generated : Span := ⟨0, 0, 0, 0⟩

instance : Inhabited Span := ⟨generated⟩

/-- Whether the span belongs to a node that comes from no template text. -/
def isGenerated (span : Span) : Bool := span = generated

/-- The location as messages show it. -/
def text (span : Span) : String :=
  if span.isGenerated then "<generated>"
  else toString span.line.toNat ++ ":" ++ toString span.column.toNat

end Span

end Stencil
