import Restyle.Text.Blank
import Restyle.Text.Search
import Restyle.Text.Width

/-! Gaps between the tokens of a script: spaces, line breaks and comments. -/

namespace Restyle.Script

open Text

def isLineBreak (c : Char) : Bool := c == '\n' || c == '\r' || c == '\u2028' || c == '\u2029'

/-- Spaces between tokens; two characters without a width count as such. -/
def isGap (c : Char) : Bool := isSpace c || c == '\u200b' || c == '\ufeff'

/-- What a character between two tokens is part of. -/
inductive GapMode where
  | space | lineComment | blockOpening | blockComment (afterStar : Bool)
  deriving DecidableEq

/-- What stands between two tokens. -/
structure Gap where
  hasLineBreak : Bool
  /-- The number of bytes. -/
  width : Nat
  /-- A comment at its end does not end. -/
  unterminated : Bool
  /-- The text after it. -/
  rest : List Char

/-- Marks of markup comments begin a line comment: the opening one, and after a line break the closing
one. -/
def beginsMarkupComment (lineBreak : Bool) (cs : List Char) : Bool :=
  startsWith "<!--".toList cs || (lineBreak && startsWith "-->".toList cs)

/-- The gap at the head of a text, after a part of it that has been read. -/
def Gap.skip (mode : GapMode) (lineBreak : Bool) (skipped : Nat) : List Char → Gap
  | [] => ⟨lineBreak, skipped, mode != .space && mode != .lineComment, []⟩
  | c :: cs =>
    let next (mode : GapMode) := Gap.skip mode (lineBreak || isLineBreak c) (skipped + c.utf8Size) cs
    match mode with
    | .space =>
      if isGap c then next .space
      else if c = '/' && cs.head? = some '/' then next .lineComment
      else if c = '/' && cs.head? = some '*' then next .blockOpening
      else if beginsMarkupComment lineBreak (c :: cs) then next .lineComment
      else ⟨lineBreak, skipped, false, c :: cs⟩
    | .lineComment => next (if isLineBreak c then .space else .lineComment)
    | .blockOpening => next (.blockComment false)
    | .blockComment afterStar =>
      next (if afterStar && c = '/' then .space else .blockComment (c = '*'))

/-- The gap at the head of a text. -/
def Gap.ofText (cs : List Char) : Gap := Gap.skip .space false 0 cs

/-- A character is skipped, or the gap ends before it. -/
theorem Gap.skip_cons (mode : GapMode) (lineBreak : Bool) (skipped : Nat) (c : Char) (cs : List Char) :
    (∃ mode', Gap.skip mode lineBreak skipped (c :: cs) =
      Gap.skip mode' (lineBreak || isLineBreak c) (skipped + c.utf8Size) cs) ∨
    Gap.skip mode lineBreak skipped (c :: cs) = ⟨lineBreak, skipped, false, c :: cs⟩ := by
  cases mode with
  | space =>
    simp only [Gap.skip]
    split
    · exact .inl ⟨_, rfl⟩
    · split
      · exact .inl ⟨_, rfl⟩
      · split
        · exact .inl ⟨_, rfl⟩
        · split
          · exact .inl ⟨_, rfl⟩
          · exact .inr rfl
  | lineComment => exact .inl ⟨_, rfl⟩
  | blockOpening => exact .inl ⟨_, rfl⟩
  | blockComment afterStar => exact .inl ⟨_, rfl⟩

theorem Gap.exists_skipped_of_skip (mode : GapMode) (lineBreak : Bool) (skipped : Nat) (cs : List Char) :
    ∃ more, cs = more ++ (Gap.skip mode lineBreak skipped cs).rest ∧
      (Gap.skip mode lineBreak skipped cs).width = skipped + Text.width more := by
  induction cs generalizing mode lineBreak skipped with
  | nil => exact ⟨[], rfl, rfl⟩
  | cons c cs ih =>
    obtain ⟨mode', h⟩ | h := Gap.skip_cons mode lineBreak skipped c cs
    · obtain ⟨more, hmore, hwidth⟩ := ih mode' (lineBreak || isLineBreak c) (skipped + c.utf8Size)
      rw [h]
      exact ⟨c :: more, congrArg (c :: ·) hmore, by rw [hwidth, Text.width_cons, Nat.add_assoc]⟩
    · rw [h]
      exact ⟨[], rfl, rfl⟩

/-- A gap is what stands before the text after it. -/
theorem Gap.exists_skipped (cs : List Char) :
    ∃ skipped, cs = skipped ++ (Gap.ofText cs).rest ∧ (Gap.ofText cs).width = Text.width skipped := by
  obtain ⟨skipped, hskipped, hwidth⟩ := exists_skipped_of_skip .space false 0 cs
  exact ⟨skipped, hskipped, hwidth.trans (Nat.zero_add _)⟩

end Restyle.Script
