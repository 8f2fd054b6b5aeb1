import Restyle.Source.Splice

/-! Edits in place. An edit changes the buffer where it is, and may be refused on the way; what it had
changed by then would stay changed. -/

namespace Restyle

open Text

/-- Programs that edit a buffer. The buffer is still there when one is refused. -/
abbrev Editing := ExceptT SpliceError (StateM SpliceBuffer)

namespace Editing

def checkOffset (offset : Nat) : Editing Unit := do
  let text := (← get).source.toList
  let length := width text
  if length < offset then throw (.outOfBounds offset length)
  if !isBoundary text offset then throw (.insideCharacter offset)

/-- Replaces a span that is not empty and shares nothing with the edits before. -/
def update (span : Span) (text : String) : Editing Unit := do
  if span.stop ≤ span.start then throw (.emptyRange span)
  checkOffset span.start
  checkOffset span.stop
  if let some existing := (← get).edited.find? (·.overlaps span) then throw (.overlap span existing)
  if let some offset := (← get).insertions.offsets.find? span.strictlyContains then
    throw (.insideEdit offset span)
  modify fun b => { b with replacements := b.replacements.alter (fun _ => ⟨span.stop, text⟩) span.start }

/-- Deletes a span; deleting an empty one changes nothing. -/
def remove (span : Span) : Editing Unit :=
  if span.isEmpty then checkOffset span.start else update span ""

def prepend (text : String) : Editing Unit := modify fun b => { b with intro := text ++ b.intro }

def append (text : String) : Editing Unit := modify fun b => { b with outro := b.outro ++ text }

/-- Makes an entry for an offset that is not inside a replaced span, unless there is one. -/
def enter (offset : Nat) : Editing Unit := do
  checkOffset offset
  if let some edit := ((← get).lastBefore? offset).filter (·.strictlyContains offset) then
    throw (.insideEdit offset edit)
  modify fun b => { b with insertions := b.insertions.alter (·.getD default) offset }

/-- Inserts a text at an offset: the entry for the offset is made before the text is added to it. -/
def insert (side : Side) (offset : Nat) (text : String) : Editing Unit := do
  enter offset
  modify fun b =>
    { b with insertions := b.insertions.alter (fun i => (i.getD default).add text side) offset }

def splice : Splice → Editing Unit
  | .update span text => update span text
  | .remove span => remove span
  | .insert side offset text => insert side offset text
  | .prepend text => prepend text
  | .append text => append text

end Editing

end Restyle
