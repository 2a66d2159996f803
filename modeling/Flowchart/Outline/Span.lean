/-!
Ranges of bytes in a text.
-/

namespace Flowchart

/-- The bytes from `start` up to, and without, `finish`. -/
structure Span where
  start : Nat
  finish : Nat
  start_le_finish : start ≤ finish
deriving DecidableEq, Repr

namespace Span

/-- The range between two positions; one that would end before its start is
empty. -/
def between (start finish : Nat) : Span :=
  ⟨start, max finish start, Nat.le_max_right finish start⟩

def length (span : Span) : Nat := span.finish - span.start

def isEmpty (span : Span) : Bool := span.start = span.finish

/-- The smallest range that covers both. -/
def union (left right : Span) : Span :=
  between (min left.start right.start) (max left.finish right.finish)

end Span

end Flowchart
