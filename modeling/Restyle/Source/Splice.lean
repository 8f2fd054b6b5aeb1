import Restyle.Source.Lines
import Restyle.Source.Mapping
import Restyle.Source.OffsetTable

/-! Splicing a text. A buffer holds replacements of spans and insertions at offsets, all given in
offsets of the untouched source, so that no edit has to account for another. Insertions at an offset
belong to the text that ends there (left) or that starts there (right) and stand in that order. Each
byte is replaced at most once, and no insertion lies inside a replaced span. -/

namespace Restyle

open Text

/-- Why an edit is refused. -/
inductive SpliceError where
  | outOfBounds (offset length : Nat)
  | insideCharacter (offset : Nat)
  | emptyRange (span : Span)
  | overlap (span existing : Span)
  | insideEdit (offset : Nat) (edit : Span)
  deriving Repr, DecidableEq

namespace SpliceError

def rangeText (s : Span) : String := s!"{s.start}..{s.stop}"

def message : SpliceError → String
  | outOfBounds offset length => s!"offset {offset} is out of bounds (length {length})"
  | insideCharacter offset => s!"offset {offset} is not on a character boundary"
  | emptyRange span => s!"cannot replace an empty or inverted range " ++ rangeText span
  | overlap span existing =>
    "range " ++ rangeText span ++ " overlaps the edited range " ++ rangeText existing
  | insideEdit offset edit => s!"offset {offset} falls inside the edited range " ++ rangeText edit

end SpliceError

/-- The new text of a span, which ends at `stop`. -/
structure Replacement where
  stop : Nat
  text : String
  deriving Repr, DecidableEq

/-- The texts inserted at one offset. -/
structure Insertion where
  left : String
  right : String
  deriving Repr, DecidableEq, Inhabited

/-- A source text and its edits. -/
structure SpliceBuffer where
  source : String
  intro : String := ""
  outro : String := ""
  replacements : OffsetTable Replacement := []
  insertions : OffsetTable Insertion := []
  deriving Repr, DecidableEq

/-- The side of an offset on which a text is inserted, and the end of the texts there. -/
inductive Side where
  | prependLeft | appendLeft | prependRight | appendRight
  deriving Repr, DecidableEq

/-- One edit. -/
inductive Splice where
  | update (span : Span) (text : String)
  | remove (span : Span)
  | insert (side : Side) (offset : Nat) (text : String)
  | prepend (text : String)
  | append (text : String)
  deriving Repr, DecidableEq

def Insertion.add (text : String) (i : Insertion) : Side → Insertion
  | .prependLeft => { i with left := text ++ i.left }
  | .appendLeft => { i with left := i.left ++ text }
  | .prependRight => { i with right := text ++ i.right }
  | .appendRight => { i with right := i.right ++ text }

def Insertion.isEmpty (i : Insertion) : Bool := i.left == "" && i.right == ""

namespace SpliceBuffer

def ofSource (source : String) : SpliceBuffer := { source }

/-- The spans replaced so far, in order. -/
def edited (b : SpliceBuffer) : List Span := b.replacements.map fun (start, r) => ⟨start, r.stop⟩

def checkOffset (b : SpliceBuffer) (offset : Nat) : Except SpliceError Unit :=
  let text := b.source.toList
  let length := width text
  if length < offset then .error (.outOfBounds offset length)
  else if isBoundary text offset then .ok ()
  else .error (.insideCharacter offset)

/-- Replaces a span that is not empty and shares nothing with the edits before. -/
def update (b : SpliceBuffer) (span : Span) (text : String) : Except SpliceError SpliceBuffer := do
  if span.stop ≤ span.start then .error (.emptyRange span)
  b.checkOffset span.start
  b.checkOffset span.stop
  match b.edited.find? (·.overlaps span) with
  | some existing => .error (.overlap span existing)
  | none =>
    match b.insertions.offsets.find? span.strictlyContains with
    | some offset => .error (.insideEdit offset span)
    | none =>
      .ok { b with replacements := b.replacements.alter (fun _ => ⟨span.stop, text⟩) span.start }

/-- Deletes a span; deleting an empty one changes nothing. -/
def remove (b : SpliceBuffer) (span : Span) : Except SpliceError SpliceBuffer := do
  if span.isEmpty then
    b.checkOffset span.start
    .ok b
  else b.update span ""

def prepend (b : SpliceBuffer) (text : String) : SpliceBuffer := { b with intro := text ++ b.intro }

def append (b : SpliceBuffer) (text : String) : SpliceBuffer := { b with outro := b.outro ++ text }

/-- The last of the replaced spans that start before an offset. -/
def lastBefore? (b : SpliceBuffer) (offset : Nat) : Option Span :=
  (b.edited.filter (·.start < offset)).getLast?

/-- Inserts a text at an offset that is not inside a replaced span. Replaced spans are apart, so only the
last one that starts before the offset can have it inside. -/
def insert (b : SpliceBuffer) (side : Side) (offset : Nat) (text : String) :
    Except SpliceError SpliceBuffer := do
  b.checkOffset offset
  match (b.lastBefore? offset).filter (·.strictlyContains offset) with
  | some edit => .error (.insideEdit offset edit)
  | none =>
    .ok { b with insertions := b.insertions.alter (fun i => (i.getD default).add text side) offset }

def splice (b : SpliceBuffer) : Splice → Except SpliceError SpliceBuffer
  | .update span text => b.update span text
  | .remove span => b.remove span
  | .insert side offset text => b.insert side offset text
  | .prepend text => .ok (b.prepend text)
  | .append text => .ok (b.append text)

/-- Some edit holds text, or some span is replaced. -/
def hasChanged (b : SpliceBuffer) : Bool :=
  b.intro != "" || b.outro != "" || !b.replacements.isEmpty
    || b.insertions.any fun (_, i) => !i.isEmpty

/-! ### Rendering -/

/-- The longest first part of a text that is at most `n` bytes wide, and what follows it. -/
def splitWidth : Nat → List Char → List Char × List Char
  | _, [] => ([], [])
  | n, c :: cs =>
    if c.utf8Size ≤ n then
      let (a, b) := splitWidth (n - c.utf8Size) cs
      (c :: a, b)
    else ([], c :: cs)

/-- The new text that stands at a point: what is inserted there, and the replacement that starts
there. -/
def editsAt (b : SpliceBuffer) (point : Nat) : List Piece :=
  let inserted := match b.insertions.find? point with
    | some i => [Piece.inserted i.left, Piece.inserted i.right]
    | none => []
  inserted ++ ((b.replacements.find? point).map fun r => .replaced ⟨point, r.stop⟩ r.text).toList

/-- Where the source goes on after the edits at a point: behind the span replaced there, if any. -/
def resume (b : SpliceBuffer) (point : Nat) : Nat :=
  ((b.replacements.find? point).map (·.stop)).getD point

/-- The pieces from `cursor` on, where `rest` is the source there and `points` are the offsets of the
edits still to come. -/
def piecesFrom (b : SpliceBuffer) (cursor : Nat) (rest : List Char) : List Nat → List Piece
  | [] => [.copied cursor (String.ofList rest)]
  | point :: points =>
    if point < cursor then b.piecesFrom cursor rest points
    else
      let (before, rest) := splitWidth (point - cursor) rest
      let rest := (splitWidth (b.resume point - point) rest).2
      .copied cursor (String.ofList before)
        :: (b.editsAt point ++ b.piecesFrom (b.resume point) rest points)

/-- The offsets at which something is edited. -/
def points (b : SpliceBuffer) : List Nat :=
  OffsetTable.mergeOffsets b.insertions.offsets b.replacements.offsets

/-- The edited text in pieces. -/
def pieces (b : SpliceBuffer) : List Piece :=
  .inserted b.intro :: b.piecesFrom 0 b.source.toList b.points ++ [.inserted b.outro]

/-- The edited text. -/
def code (b : SpliceBuffer) : String := SourceMap.textOf b.pieces

/-- The positions of the edited text in the source. -/
def map (b : SpliceBuffer) : SourceMap := SourceMap.ofPieces b.pieces

end SpliceBuffer

end Restyle
