import Restyle.Source.Row
import Restyle.Text.Width

/-! Lines of a text. A line starts at offset zero and after every line feed. `Place` counts lines
from zero and columns in bytes; `Location` is the form shown to people, with lines counted from one
and columns from zero, the columns in bytes or in UTF-16 units. -/

namespace Restyle

open Text

/-- A line counted from zero and a byte column. -/
structure Place where
  line : Nat
  column : Nat
  deriving Repr, DecidableEq, Inhabited

/-- A line counted from one and a column counted from zero. -/
structure Location where
  line : Nat
  column : Nat
  deriving Repr, DecidableEq

/-- The location that stands for an unknown one. -/
instance : Inhabited Location := ⟨⟨0, 0⟩⟩

def Place.toLocation (p : Place) : Location := ⟨p.line + 1, p.column⟩

def Location.render (l : Location) : String := s!"{l.line}:{l.column}"

/-- The offsets at which the lines of a text start, and the length of the text. -/
structure LineTable where
  starts : List Nat
  length : Nat
  deriving Repr, DecidableEq

namespace LineTable

/-- The offsets after the line feeds of a text that itself begins at `offset`. -/
def breaks (offset : Nat) : List Char → List Nat
  | [] => []
  | c :: cs =>
    let next := offset + c.utf8Size
    if c = '\n' then next :: breaks next cs else breaks next cs

def ofText (text : String) : LineTable := ⟨0 :: breaks 0 text.toList, width text.toList⟩

def count (t : LineTable) : Nat := t.starts.length

def lineStart? (t : LineTable) (line : Nat) : Option Nat := t.starts[line]?

/-- The last line that starts at or before an offset, the first line if none does. -/
def lineOf (t : LineTable) (offset : Nat) : Nat := (Row.last? id t.starts.toArray offset).getD 0

/-- The place of an offset that is not past the end. -/
def place? (t : LineTable) (offset : Nat) : Option Place :=
  if offset ≤ t.length then do
    let line := t.lineOf offset
    let start ← t.lineStart? line
    some ⟨line, offset - start⟩
  else none

def location? (t : LineTable) (offset : Nat) : Option Location :=
  (t.place? offset).map Place.toLocation

/-- Like `location?`, with the column in UTF-16 units; `none` also inside a character. -/
def location16? (t : LineTable) (text : String) (offset : Nat) : Option Location := do
  let place ← t.place? offset
  let start ← t.lineStart? place.line
  let line ← slice? text.toList start offset
  some ⟨place.line + 1, width16 line⟩

/-- The offset of a place; its column is not checked against the line. -/
def offset? (t : LineTable) (p : Place) : Option Nat :=
  (t.lineStart? p.line).map (· + p.column)

end LineTable

end Restyle
