import Restyle.Text.Width

/-! Spans: half-open ranges of byte offsets into a text. -/

namespace Restyle

/-- The bytes from `start` up to, not including, `stop`. -/
structure Span where
  start : Nat
  stop : Nat
  deriving Repr, DecidableEq, Inhabited

namespace Span

/-- Offsets are stored in 32 bits; wider ones keep their low bits. -/
def ofOffsets (start stop : Nat) : Span := ⟨start % 0x100000000, stop % 0x100000000⟩

def point (offset : Nat) : Span := ⟨offset, offset⟩

def size (s : Span) : Nat := s.stop - s.start

def isEmpty (s : Span) : Bool := s.start == s.stop

def contains (s : Span) (offset : Nat) : Bool := s.start ≤ offset && offset < s.stop

/-- The offset lies between two bytes of the span. -/
def strictlyContains (s : Span) (offset : Nat) : Bool := s.start < offset && offset < s.stop

/-- The two spans share at least one byte. -/
def overlaps (s t : Span) : Bool := s.start < t.stop && t.start < s.stop

/-- The text of the span; `none` out of bounds, inverted, or inside a character. -/
def slice? (s : Span) (text : String) : Option String :=
  (Text.slice? text.toList s.start s.stop).map String.ofList

end Span

end Restyle
