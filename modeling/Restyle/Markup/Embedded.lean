import Restyle.Text.Blank

/-! Embedded expressions. The markup does not read them, it only looks for the brace that closes
one: an automaton over the characters that knows strings, templates, comments, regular expressions
and brackets, so that braces inside those do not count. -/

namespace Restyle.Markup.Embedded

open Text

/-- What is open at a place of an expression. -/
inductive Nest where
  | brace | paren | bracket
  /-- The text of a template. -/
  | template
  /-- A substitution inside a template. -/
  | substitution
  deriving Repr, DecidableEq

/-- What the next character is part of. In `plain` that is the code, or the template text if that is
open innermost. -/
inductive Mode where
  | plain
  | quoted (quote : Char)
  | lineComment
  /-- After the slash of a block comment. -/
  | blockOpening
  | blockComment (afterStar : Bool)
  | regex (inClass : Bool)
  deriving Repr, DecidableEq

structure Scanner where
  mode : Mode := .plain
  /-- The next character stands after a backslash. -/
  escaped : Bool := false
  /-- A dollar sign stands before, in a template. -/
  dollar : Bool := false
  /-- What is open, innermost first. -/
  nests : List Nest := []
  /-- The last significant character of the code. At the start an expression may begin. -/
  last : Char := '('
  deriving Repr, DecidableEq

/-- A slash after one of these begins a regular expression; elsewhere it divides. -/
def startsRegex (last : Char) : Bool := "=!+-*%<>&|^~?:([\x7b,;".toList.contains last

namespace Scanner

/-- A character of the text of a template. -/
def stepTemplate (s : Scanner) (c : Char) : Scanner :=
  if c = '\\' then { s with escaped := true, dollar := false }
  else if c = '`' then { s with nests := s.nests.tail, last := '`', dollar := false }
  else if c = '{' && s.dollar then
    { s with nests := .substitution :: s.nests, last := '{', dollar := false }
  else { s with dollar := c = '$' }

/-- A significant character of the code was read, unless it is blank. -/
def seen (s : Scanner) (c : Char) : Scanner := if isBlank c then s else { s with last := c }

/-- A character of the code other than a closing brace, with the one after it. -/
def stepCode (s : Scanner) (c : Char) (next : Option Char) : Scanner :=
  if c = '\'' || c = '"' then { s.seen c with mode := .quoted c }
  else if c = '`' then { s.seen c with nests := .template :: s.nests }
  else if c = '/' && next = some '/' then { s with mode := .lineComment }
  else if c = '/' && next = some '*' then { s with mode := .blockOpening }
  else if c = '/' && startsRegex s.last then { s.seen c with mode := .regex false }
  else if c = '{' then { s.seen c with nests := .brace :: s.nests }
  else if c = '(' then { s.seen c with nests := .paren :: s.nests }
  else if c = '[' then { s.seen c with nests := .bracket :: s.nests }
  else if c = ')' || c = ']' then { s.seen c with nests := s.nests.tail }
  else s.seen c

/-- A closing brace in the code; `none` if it closes the expression. After a substitution the template
goes on. -/
def stepBrace (s : Scanner) : Option Scanner :=
  match s.nests with
  | [] => none
  | .substitution :: nests => some { s with nests }
  | _ :: nests => some { s.seen '}' with nests }

/-- One character, with the one after it; `none` for the closing brace. -/
def step (s : Scanner) (c : Char) (next : Option Char) : Option Scanner :=
  if s.escaped then some { s with escaped := false }
  else match s.mode with
    | .plain =>
      if s.nests.head? = some .template then some (s.stepTemplate c)
      else if c = '}' then s.stepBrace
      else some (s.stepCode c next)
    | .quoted quote =>
      if c = '\\' then some { s with escaped := true }
      else if c = quote then some { s with mode := .plain }
      else some s
    | .lineComment => some (if c = '\n' then { s with mode := .plain } else s)
    | .blockOpening => some { s with mode := .blockComment false }
    | .blockComment afterStar =>
      some { s with mode := if afterStar && c = '/' then .plain else .blockComment (c = '*') }
    | .regex inClass =>
      if c = '\\' then some { s with escaped := true }
      else if c = '\n' || (c = '/' && !inClass) then some { s with mode := .plain }
      else if c = '[' then some { s with mode := .regex true }
      else if c = ']' then some { s with mode := .regex false }
      else some s

/-- The text before the closing brace and the text after it. -/
def split? (s : Scanner) : List Char → Option (List Char × List Char)
  | [] => none
  | c :: cs =>
    match s.step c cs.head? with
    | none => some ([], cs)
    | some s => (s.split? cs).map fun (a, b) => (c :: a, b)

end Scanner

/-- The text of an expression up to the brace that closes it, and the text after that brace. -/
def split? (cs : List Char) : Option (List Char × List Char) := ({} : Scanner).split? cs

/-- Only a closing brace closes. -/
theorem Scanner.step_eq_none {s : Scanner} {c : Char} {next : Option Char}
    (h : s.step c next = none) : c = '}' := by
  apply Decidable.byContradiction
  intro hc
  rw [Scanner.step] at h
  split at h
  · cases h
  · split at h
    · split at h <;> cases h
    · split at h
      · cases h
      · split at h <;> cases h
    · cases h
    · cases h
    · cases h
    · repeat' split at h
      all_goals cases h

theorem Scanner.eq_of_split? {s : Scanner} {cs inside rest : List Char}
    (h : s.split? cs = some (inside, rest)) : cs = inside ++ '}' :: rest := by
  induction cs generalizing s inside with
  | nil => simp [Scanner.split?] at h
  | cons c cs ih =>
    rw [Scanner.split?] at h
    split at h
    · next hs =>
      simp only [Option.some.injEq, Prod.mk.injEq] at h
      obtain ⟨rfl, rfl⟩ := h
      rw [Scanner.step_eq_none hs, List.nil_append]
    · obtain ⟨⟨a, b⟩, hsplit, heq⟩ := Option.map_eq_some_iff.1 h
      obtain ⟨rfl, rfl⟩ := Prod.mk.inj heq
      rw [ih hsplit, List.cons_append]

/-- Nothing is lost but the closing brace. -/
theorem eq_of_split? {cs inside rest : List Char} (h : split? cs = some (inside, rest)) :
    cs = inside ++ '}' :: rest := Scanner.eq_of_split? h

end Restyle.Markup.Embedded
