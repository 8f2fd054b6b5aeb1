import Restyle.Source.Row
import Restyle.Source.Span

/-! Position mappings from a generated text to its source. A text is generated piece by piece; each
non-empty piece that comes from the source leaves one mapping, so the mappings are ordered by their
place in the generated text and do not overlap there. -/

namespace Restyle

open Text

/-- A span of the generated text and the span of the source that it stands for. -/
structure Mapping where
  generated : Span
  source : Span
  deriving Repr, DecidableEq

namespace Mapping

/-- Copies have the length of their source. -/
def isVerbatim (m : Mapping) : Bool := m.generated.size == m.source.size

end Mapping

/-- One piece of a generated text. -/
inductive Piece where
  /-- Source text from the given offset on, unchanged. -/
  | copied (start : Nat) (text : String)
  /-- The replacement of a span of the source. -/
  | replaced (span : Span) (text : String)
  /-- Text that stands for nothing in the source. -/
  | inserted (text : String)
  deriving Repr, DecidableEq

namespace Piece

def text : Piece → String
  | copied _ t | replaced _ t | inserted t => t

def size (p : Piece) : Nat := width p.text.toList

/-- The span of the source that the piece stands for. -/
def source? : Piece → Option Span
  | copied start t => some ⟨start, start + width t.toList⟩
  | replaced span _ => some span
  | inserted _ => none

end Piece

/-- The mappings of a generated text, in its order. -/
structure SourceMap where
  mappings : List Mapping
  deriving Repr, DecidableEq, Inhabited

namespace SourceMap

/-- The mapping of a piece that begins at `offset`; empty pieces and insertions have none. -/
def mappingOf (offset : Nat) (p : Piece) : Option Mapping :=
  if p.size = 0 then none
  else p.source?.map fun span => ⟨⟨offset, offset + p.size⟩, span⟩

def mappingsFrom (offset : Nat) : List Piece → List Mapping
  | [] => []
  | p :: ps => (mappingOf offset p).toList ++ mappingsFrom (offset + p.size) ps

def ofPieces (ps : List Piece) : SourceMap := ⟨mappingsFrom 0 ps⟩

/-- The text that the pieces generate. -/
def textOf (ps : List Piece) : String := String.join (ps.map Piece.text)

theorem textOf_append (ps qs : List Piece) : textOf (ps ++ qs) = textOf ps ++ textOf qs := by
  simp [textOf]

theorem textOf_cons (p : Piece) (ps : List Piece) : textOf (p :: ps) = p.text ++ textOf ps := by
  simp [textOf]

/-- The last mapping that starts at or before the offset, if it covers it. -/
def mappingAt? (m : SourceMap) (generated : Nat) : Option Mapping :=
  let ms := m.mappings.toArray
  ((Row.last? (·.generated.start) ms generated).bind (ms[·]?)).filter (·.generated.contains generated)

/-- The source offset of an offset of the generated text. Inside a replaced piece it is clamped to
the last byte of the source span, but only after the sum was stored in 32 bits; insertions have none. -/
def sourceOf? (m : SourceMap) (generated : Nat) : Option Nat :=
  (m.mappingAt? generated).map fun m =>
    if m.source.isEmpty then m.source.start
    else min ((m.source.start + (generated - m.generated.start)) % 0x100000000) (m.source.stop - 1)

/-- The offset in the generated text of an offset of the source. Only copies resolve exactly; inside
a replaced span it is the start of the replacement. -/
def generatedOf? (m : SourceMap) (offset : Nat) : Option Nat :=
  (m.mappings.find? (·.source.contains offset)).map fun m =>
    if m.isVerbatim then m.generated.start + (offset - m.source.start) else m.generated.start

end SourceMap

end Restyle
