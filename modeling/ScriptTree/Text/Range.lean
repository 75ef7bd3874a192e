/-!
Places in a source text. A position is the number of UTF-8 bytes before it. Diagnostics carry a
`Span` (a start and a length), tree nodes carry a `Range` (a start and an end).
-/
namespace ScriptTree

/-- A stretch of `length` bytes from `start` on. -/
structure Span where
  start : Nat
  length : Nat
  deriving DecidableEq, Repr

namespace Span

/-- The first position after the span. -/
def stop (s : Span) : Nat := s.start + s.length

def isEmpty (s : Span) : Bool := s.length == 0

def contains (s : Span) (pos : Nat) : Bool := decide (s.start ≤ pos ∧ pos < s.stop)

/-- The span in interval form: the end is left out. -/
def interval (s : Span) : String := s!"[{s.start}, {s.stop})"

/-- The two ends of the span joined by two dots. -/
def dotted (s : Span) : String := s!"{s.start}..{s.stop}"

end Span

/-- The positions from `start` up to `stop`, the latter left out. -/
structure Range where
  start : Nat
  stop : Nat
  deriving DecidableEq, Repr

namespace Range

/-- The range without content at `pos`. -/
def empty (pos : Nat) : Range := ⟨pos, pos⟩

/-- The range of `length` bytes from `start` on. -/
def ofLength (start length : Nat) : Range := ⟨start, start + length⟩

/-- The range from `start` to `stop`, or the empty range at `start` when `stop` lies before it. -/
def between (start stop : Nat) : Range := ⟨start, max stop start⟩

def length (r : Range) : Nat := r.stop - r.start

def isEmpty (r : Range) : Bool := r.start == r.stop

def contains (r : Range) (pos : Nat) : Bool := decide (r.start ≤ pos ∧ pos < r.stop)

/-- Whether `pos` lies in the range or at its end. -/
def holds (r : Range) (pos : Nat) : Bool := decide (r.start ≤ pos ∧ pos ≤ r.stop)

/-- Whether `inner` lies within `r`. -/
def covers (r inner : Range) : Bool := decide (r.start ≤ inner.start ∧ inner.stop ≤ r.stop)

/-- Whether the range, its end included, meets the closed interval from `left` to `right`. -/
def touches (r : Range) (left right : Nat) : Bool := !decide (r.stop < left ∨ right < r.start)

/-- The two ends of the range joined by two dots. -/
def dotted (r : Range) : String := s!"{r.start}..{r.stop}"

end Range
end ScriptTree
