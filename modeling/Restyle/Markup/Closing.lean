import Restyle.Markup.Cursor
import Restyle.Markup.Names

/-! The tags that end a fragment: closing tags of elements and blocks, and tags that go on to the next
branch of a block. -/

namespace Restyle.Markup

open Text

namespace Cursor

/-- The closing tag of the element that starts at an offset. -/
def closeTag (c : Cursor) (name : String) (start : Nat) : Cursor :=
  match c.eat? ['<', '/'] with
  | none => c.fault (.unclosedTag name) (c.spanFrom start)
  | some c' =>
    let found := c'.takeWhile (!endsTagName ·)
    let c'' := found.2.skipBlanks.expect ['>']
    if String.ofList found.1 = name then c''
    else c''.fault (.mismatchedClosingTag name (String.ofList found.1)) (c''.spanFrom c.offset)

/-- The closing tag of the block that starts at an offset. -/
def closeBlock (c : Cursor) (keyword : String) (start : Nat) : Cursor :=
  match c.eat? ['{', '/'] with
  | none => c.fault (.unclosedBlock keyword) (c.spanFrom start)
  | some c' =>
    let found := c'.word
    let c'' := found.2.skipBlanks.expect ['}']
    if String.ofList found.1 = keyword then c''
    else
      let reason := "expected `\x7b/" ++ keyword ++ "\x7d`, found `\x7b/" ++ String.ofList found.1 ++ "\x7d`"
      c''.fault (.invalidBlock reason) (c''.spanFrom c.offset)

/-- A tag that continues a block: its keyword and the text after it. -/
def continuation? (c : Cursor) : Option (String × Expression) × Cursor :=
  match c.eat? ['{', ':'] with
  | none => (none, c)
  | some c' =>
    let keyword := c'.word
    let rest := keyword.2.braced
    (rest.1.map fun e => (String.ofList keyword.1, e), rest.2)

def atContinuation (c : Cursor) : Bool := c.startsWith ['{', ':']

/-- A tag that ends the fragment being read, or the end of the text. -/
def endsFragment (c : Cursor) : Bool :=
  c.atEnd || c.startsWith ['<', '/'] || c.atContinuation || c.startsWith ['{', '/']

def unexpectedContinuation (c : Cursor) (block keyword : String) (span : Span) : Cursor :=
  c.fault (.invalidBlock ("unexpected `\x7b:" ++ keyword ++ "\x7d` in \x7b#" ++ block ++ "\x7d block")) span

theorem reaches_closeTag (c : Cursor) (name : String) (start : Nat) :
    c.Reaches (c.closeTag name start) := by
  unfold closeTag
  split
  · exact reaches_fault (.refl c)
  · next c' h =>
    have read : ∀ r, c'.Reaches r → c.Reaches (r.skipBlanks.expect ['>']) := fun r hr =>
      (reaches_eat? h).1.trans (hr.trans ((reaches_skipBlanks r).trans (reaches_expect _ _)))
    dsimp only
    split
    · exact read _ (reaches_takeWhile c' _)
    · exact reaches_fault (read _ (reaches_takeWhile c' _))

theorem reaches_closeBlock (c : Cursor) (keyword : String) (start : Nat) :
    c.Reaches (c.closeBlock keyword start) := by
  unfold closeBlock
  split
  · exact reaches_fault (.refl c)
  · next c' h =>
    have read : ∀ r, c'.Reaches r → c.Reaches (r.skipBlanks.expect ['}']) := fun r hr =>
      (reaches_eat? h).1.trans (hr.trans ((reaches_skipBlanks r).trans (reaches_expect _ _)))
    dsimp only
    split
    · exact read _ (reaches_takeWhile c' _)
    · exact reaches_fault (read _ (reaches_takeWhile c' _))

theorem reaches_continuation? (c : Cursor) : c.Reaches c.continuation?.2 := by
  unfold continuation?
  split
  · exact .refl c
  · next c' h => exact (reaches_eat? h).1.trans ((reaches_takeWhile c' _).trans (reaches_braced _))

/-- A continuation that is found moves the cursor by two characters at least. -/
theorem length_continuation? {c : Cursor} {k : String × Expression}
    (h : c.continuation?.1 = some k) : c.continuation?.2.rest.length + 2 ≤ c.rest.length := by
  unfold continuation? at h ⊢
  split
  · next he => simp [he] at h
  · next c' he =>
    have := (reaches_eat? he).2
    have := ((reaches_takeWhile c' Char.isAlpha).trans (reaches_braced _)).length_le
    simp only [List.length_cons, List.length_nil] at *
    exact Nat.le_trans (Nat.add_le_add_right this 2) (by omega)

end Cursor

end Restyle.Markup
