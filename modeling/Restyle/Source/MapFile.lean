import Restyle.Source.Lines
import Restyle.Source.Mapping
import Restyle.Json.Writer

/-! Source map files of revision 3. The mappings are a list of segments, each the place of a
generated text and the place of the source it comes from; they are written line by line, as
differences to the segment before, in base-64 digits of five bits with a continuation bit. -/

namespace Restyle

open Text

/-- A generated place and the source place it comes from. -/
structure Segment where
  generated : Place
  source : Place
  deriving Repr, DecidableEq

namespace SourceMap

/-- The distances of the line starts inside a text, other than the one at its end. -/
def innerBreaks (text : List Char) : List Nat :=
  (LineTable.breaks 0 text).filter (· < width text)

/-- A mapping has a segment at its start, and a copy also one at each line that starts inside it. -/
def segmentsOf (source generated : LineTable) (text : List Char) (m : Mapping) : List Segment :=
  let at? (distance : Nat) : Option Segment := do
    some ⟨← generated.place? (m.generated.start + distance),
      ← source.place? (m.source.start + distance)⟩
  match at? 0 with
  | none => []
  | some first =>
    let inner := if m.isVerbatim then
        innerBreaks ((slice? text m.generated.start m.generated.stop).getD [])
      else []
    first :: inner.filterMap at?

def segments (m : SourceMap) (source generated : String) : List Segment :=
  let sourceLines := LineTable.ofText source
  let generatedLines := LineTable.ofText generated
  m.mappings.flatMap (segmentsOf sourceLines generatedLines generated.toList)

end SourceMap

/-! ### Base-64 numbers -/

namespace Vlq

/-- The base-64 digit of a number below 64. -/
def digit (n : Nat) : Char :=
  if n < 26 then Char.ofNat (65 + n)
  else if n < 52 then Char.ofNat (71 + n)
  else if n < 62 then Char.ofNat (n - 4)
  else if n = 62 then '+'
  else '/'

/-- Five bits a digit, the lowest first; every digit but the last has the bit of value 32. -/
def encodeNat (n : Nat) : List Char :=
  if n < 32 then [digit n] else digit (n % 32 + 32) :: encodeNat (n / 32)
termination_by n

/-- The sign is the lowest bit. -/
def encode (z : Int) : List Char :=
  encodeNat (if z < 0 then 2 * z.natAbs + 1 else 2 * z.natAbs)

end Vlq

/-! ### Segments -/

namespace Segment

/-- What the next segment is written relative to. -/
structure Pen where
  line : Nat
  /-- The current line has a segment already. -/
  started : Bool
  column : Nat
  source : Place

def Pen.origin : Pen := ⟨0, false, 0, ⟨0, 0⟩⟩

def difference (a b : Nat) : List Char := Vlq.encode (Int.ofNat a - Int.ofNat b)

/-- A semicolon for every line that ends, and a comma between segments of one line. The generated
column starts again from zero on every line. -/
def encodeFrom (pen : Pen) : List Segment → List Char
  | [] => []
  | s :: rest =>
    let ended := s.generated.line - pen.line
    let (started, column) := if ended = 0 then (pen.started, pen.column) else (false, 0)
    List.replicate ended ';' ++ (if started then [','] else [])
      ++ difference s.generated.column column ++ Vlq.encode 0
      ++ difference s.source.line pen.source.line
      ++ difference s.source.column pen.source.column
      ++ encodeFrom ⟨pen.line + ended, true, s.generated.column, s.source⟩ rest

def encode (segments : List Segment) : String := String.ofList (encodeFrom .origin segments)

end Segment

/-- A source map file for one source, with the text of that source. -/
structure MapFile where
  sourceName : String
  source : String
  mappings : String
  deriving Repr, DecidableEq

namespace MapFile

def ofMap (m : SourceMap) (source generated sourceName : String) : MapFile :=
  ⟨sourceName, source, Segment.encode (m.segments source generated)⟩

def render (f : MapFile) : String :=
  Json.compactObject [
    ("version", "3"),
    ("sources", Json.compactArray [Json.quote f.sourceName]),
    ("sourcesContent", Json.compactArray [Json.quote f.source]),
    ("names", "[]"),
    ("mappings", Json.quote f.mappings)]

end MapFile

end Restyle
