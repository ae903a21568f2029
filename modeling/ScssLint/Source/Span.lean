/-!
# Spans

A span is a half-open range of byte offsets into a text.
-/

namespace ScssLint

/-- A half-open range of byte offsets. -/
structure Span where
  /-- The first byte of the range. -/
  start : Nat
  /-- The first byte behind the range. -/
  stop : Nat
deriving DecidableEq, Repr, Inhabited

namespace Span

/-- The length of the range in bytes. -/
def length (span : Span) : Nat :=
  span.stop - span.start

/-- Whether the range holds no byte. -/
def isEmpty (span : Span) : Bool :=
  span.start == span.stop

/-- The range moved towards the end of the text. -/
def shift (span : Span) (distance : Nat) : Span :=
  ⟨span.start + distance, span.stop + distance⟩

end Span

end ScssLint
