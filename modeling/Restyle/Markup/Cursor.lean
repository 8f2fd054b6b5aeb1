import Restyle.Text.Blank
import Restyle.Text.Search
import Restyle.Text.Width
import Restyle.Markup.Embedded
import Restyle.Markup.Fault
import Restyle.Markup.Tree

/-! The cursor of the markup reader: the text still to be read, its offset, and the faults found so
far. Every operation only reads on (`Reaches`), the offset counts what was read, and no fault is
forgotten. -/

namespace Restyle.Markup

open Text

structure Cursor where
  offset : Nat
  rest : List Char
  /-- Newest first. -/
  faults : List Fault

namespace Cursor

def ofText (text : List Char) : Cursor := ⟨0, text, []⟩

/-- The second cursor stands where some text was read on from the first, with more faults at most. -/
def Reaches (r r' : Cursor) : Prop :=
  ∃ read, r.rest = read ++ r'.rest ∧ r'.offset = r.offset + width read ∧ r.faults <:+ r'.faults

theorem Reaches.refl (r : Cursor) : r.Reaches r := ⟨[], by simp, by simp, List.suffix_refl _⟩

theorem Reaches.trans {r₁ r₂ r₃ : Cursor} (h : r₁.Reaches r₂) (h' : r₂.Reaches r₃) :
    r₁.Reaches r₃ := by
  obtain ⟨a, ha, oa, fa⟩ := h
  obtain ⟨b, hb, ob, fb⟩ := h'
  exact ⟨a ++ b, by simp [ha, hb], by simp only [ob, oa, width_append]; omega, fa.trans fb⟩

theorem Reaches.length_le {r r' : Cursor} (h : r.Reaches r') : r'.rest.length ≤ r.rest.length := by
  obtain ⟨a, ha, -⟩ := h
  simp [ha]

/-! ### Moving -/

/-- Past `read`, where the text is `read ++ rest`. -/
def moved (r : Cursor) (read rest : List Char) : Cursor :=
  { r with offset := r.offset + width read, rest }

theorem reaches_moved {r : Cursor} {read rest : List Char} (h : r.rest = read ++ rest) :
    r.Reaches (r.moved read rest) := ⟨read, h, rfl, List.suffix_refl _⟩

theorem reaches_moved_one {r : Cursor} {c : Char} {cs : List Char} (h : r.rest = c :: cs) :
    r.Reaches (r.moved [c] cs) := reaches_moved h

@[simp] theorem rest_moved (r : Cursor) (read rest : List Char) : (r.moved read rest).rest = rest :=
  rfl

def fault (r : Cursor) (kind : FaultKind) (span : Span) : Cursor :=
  { r with faults := ⟨kind, span⟩ :: r.faults }

theorem reaches_fault {r r' : Cursor} {kind : FaultKind} {span : Span} (h : r.Reaches r') :
    r.Reaches (r'.fault kind span) := by
  obtain ⟨read, hrest, hoffset, hfaults⟩ := h
  exact ⟨read, hrest, hoffset, hfaults.trans (List.suffix_cons _ _)⟩

@[simp] theorem rest_fault (r : Cursor) (kind : FaultKind) (span : Span) :
    (r.fault kind span).rest = r.rest := rfl

def spanFrom (r : Cursor) (start : Nat) : Span := ⟨start, r.offset⟩

/-- At the end of the text. -/
def toEnd (r : Cursor) : Cursor := r.moved r.rest []

theorem reaches_toEnd (r : Cursor) : r.Reaches r.toEnd := reaches_moved (by simp)

def atEnd (r : Cursor) : Bool := r.rest.isEmpty

def startsWith (r : Cursor) (piece : List Char) : Bool := Text.startsWith piece r.rest

/-- Past a piece that stands at the cursor. -/
def eat? (r : Cursor) (piece : List Char) : Option Cursor := (strip? piece r.rest).map (r.moved piece)

theorem reaches_eat? {r r' : Cursor} {piece : List Char} (h : r.eat? piece = some r') :
    r.Reaches r' ∧ r'.rest.length + piece.length = r.rest.length := by
  obtain ⟨rest, hrest, rfl⟩ := Option.map_eq_some_iff.1 h
  have hr := strip?_eq_some_iff.1 hrest
  exact ⟨reaches_moved hr, by simp [hr, moved]; omega⟩

/-- Past the characters at the head that satisfy the test. -/
def takeWhile (r : Cursor) (test : Char → Bool) : List Char × Cursor :=
  let read := r.rest.takeWhile test
  (read, r.moved read (r.rest.dropWhile test))

theorem reaches_takeWhile (r : Cursor) (test : Char → Bool) : r.Reaches (r.takeWhile test).2 :=
  reaches_moved List.takeWhile_append_dropWhile.symm

/-- Up to the first place where the test holds. -/
def breakWhere (r : Cursor) (test : List Char → Bool) : List Char × Cursor :=
  let (read, rest) := Text.breakWhere test r.rest
  (read, r.moved read rest)

theorem reaches_breakWhere (r : Cursor) (test : List Char → Bool) :
    r.Reaches (r.breakWhere test).2 := reaches_moved (breakWhere_append test r.rest).symm

theorem length_breakWhere {r : Cursor} {test : List Char → Bool} {c : Char} {cs : List Char}
    (hr : r.rest = c :: cs) (h : test (c :: cs) = false) :
    (r.breakWhere test).2.rest.length < r.rest.length := by
  have happ := breakWhere_append test r.rest
  have hne := breakWhere_ne_nil h
  rw [← hr] at hne
  have := List.length_pos_iff.2 hne
  rw [← congrArg List.length happ, List.length_append]
  show (Text.breakWhere test r.rest).2.length < _
  omega

def skipBlanks (r : Cursor) : Cursor := (r.takeWhile isBlank).2

theorem reaches_skipBlanks (r : Cursor) : r.Reaches r.skipBlanks := reaches_takeWhile r _

/-- A keyword: the letters at the head. -/
def word (r : Cursor) : List Char × Cursor := r.takeWhile Char.isAlpha

/-- Past a piece that has to stand at the cursor; a fault if it does not. -/
def expect (r : Cursor) (piece : List Char) : Cursor :=
  match r.eat? piece with
  | some r' => r'
  | none =>
    let expected := "`" ++ String.ofList piece ++ "`"
    match r.rest with
    | c :: _ => r.fault (.unexpectedChar expected c) (.point r.offset)
    | [] => r.fault (.unexpectedEnd expected) (.point r.offset)

theorem reaches_expect (r : Cursor) (piece : List Char) : r.Reaches (r.expect piece) := by
  unfold expect
  split
  · next h => exact (reaches_eat? h).1
  · split <;> exact reaches_fault (.refl r)

/-! ### Embedded expressions -/

end Cursor

/-- The expression in a raw text that begins at an offset. -/
def Expression.ofRaw (offset : Nat) (raw : List Char) : Expression :=
  let start := offset + width (raw.takeWhile isSpace)
  let text := trim raw
  ⟨⟨start, start + width text⟩, String.ofList text⟩

namespace Cursor

/-- An expression after its opening brace, and past the brace that closes it. Without one the fault
spans from the opening brace on and the cursor moves to the end. -/
def braced (r : Cursor) : Option Expression × Cursor :=
  match Embedded.split? r.rest with
  | some (raw, rest) => (some (.ofRaw r.offset raw), { r with offset := r.offset + width raw + 1, rest })
  | none => (none, r.toEnd.fault .unclosedExpression ⟨r.offset - 1, r.toEnd.offset⟩)

theorem reaches_braced (r : Cursor) : r.Reaches r.braced.2 := by
  unfold braced
  split
  · next raw rest h =>
    refine ⟨raw ++ ['}'], by simp [Embedded.eq_of_split? h], ?_, List.suffix_refl _⟩
    have : Char.utf8Size '}' = 1 := by decide
    simp [this, Nat.add_assoc]
  · exact reaches_fault (reaches_toEnd r)

/-- Past a stray tag: up to and including its closing character, or to the end. -/
def skipStray (r : Cursor) (closing : Char) : List Char × Cursor :=
  match r.rest with
  | [] => ([], r)
  | c :: cs =>
    match cs.dropWhile (· ≠ closing) with
    | d :: after =>
      let read := c :: cs.takeWhile (· ≠ closing) ++ [d]
      (read, r.moved read after)
    | [] => (r.rest, r.toEnd)

theorem reaches_skipStray (r : Cursor) (closing : Char) : r.Reaches (r.skipStray closing).2 := by
  unfold skipStray
  split
  · exact .refl r
  · next c cs hr =>
    split
    · next d after h =>
      refine reaches_moved ?_
      have hcs := List.takeWhile_append_dropWhile (p := fun x => decide (x ≠ closing)) (l := cs)
      rw [h] at hcs
      rw [hr]
      simp only [List.cons_append, List.append_assoc, List.nil_append, hcs]
    · exact reaches_toEnd r

theorem length_skipStray {r : Cursor} {closing : Char} (h : r.rest ≠ []) :
    (r.skipStray closing).2.rest.length < r.rest.length := by
  unfold skipStray
  split
  · next hr => exact absurd hr h
  · next c cs hr =>
    split
    · next d after hd =>
      have := (List.dropWhile_sublist (fun x => decide (x ≠ closing)) (l := cs)).length_le
      rw [hd] at this
      simp only [rest_moved, hr, List.length_cons] at *
      omega
    · simp [toEnd, hr]

end Cursor

end Restyle.Markup
