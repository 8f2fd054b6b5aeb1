import Restyle.Script.Grammar

/-! The shape of an expression that stands alone in a text: the few kinds that decide how an attribute
is expanded. -/

namespace Restyle.Script

open Text

inductive Shape where
  | identifier (name : String)
  /-- A number; `none` is one out of range. -/
  | number (value : Option Decimal.Binary64)
  /-- The items of an array, the dots of a spread included; `none` marks a hole. -/
  | array (items : List (Option Span))
  | other
  deriving Repr, DecidableEq

def Term.shape (t : Term) : Shape :=
  match t.inner with
  | .identifier name => .identifier name
  | .number value => .number value
  | .array items => .array (items.map (·.map Prod.fst))
  | _ => .other

/-- A comment begins here. -/
def beginsComment (cs : List Char) : Bool := startsWith "//".toList cs || startsWith "/*".toList cs

/-- The text without a mark of its byte order. Offsets into a script count from after the mark. -/
def withoutByteOrderMark (cs : List Char) : List Char :=
  if cs.head? = some '\ufeff' then cs.tail else cs

/-- What a text must not go on with after an expression in it that ends at an offset: all but spaces
and what a comment begins. An offset inside a character has nothing after it. -/
def trailing (cs : List Char) (stop : Nat) : List Char :=
  let rest := trimLeft ((after? cs stop).getD [])
  if beginsComment rest then [] else rest

/-- What becomes of a text that is read as an expression, types being part of the language. -/
def Shape.outcome (script : List Char) : Outcome Term :=
  let context : Context := { types := true, module := false, limit := script.length + 2 }
  (Parse.expression (Grammar.ofText script)).run context (State.ofText script)

/-- A reader of scripts: the expression at the head of a text with the offset at which it ends, or the fault that is
reported. What is expanded depends on scripts only through a reader. -/
class ExpressionReader where
  read : List Char → Except Fault (Term × Nat)

/-- The reader by the grammar. Faults that stop it come before those that did not. -/
instance grammarReader : ExpressionReader where
  read script :=
    match Shape.outcome script with
    | .error fault _ => .error fault
    | .ok term s =>
      match s.faults.getLast? with
      | some fault => .error fault
      | none => .ok (term, s.lastStop)

/-- The shape of the expression in a text, or the fault in it. What follows the expression must be
empty or begin with a comment. The end of the expression is taken for an offset into the whole text. -/
def Shape.ofText? [ExpressionReader] (text : String) : Except Fault Shape :=
  let cs := text.toList
  match ExpressionReader.read (withoutByteOrderMark cs) with
  | .error fault => .error fault
  | .ok (term, stop) =>
    let rest := trailing cs stop
    if rest.isEmpty then .ok term.shape
    else .error ⟨.trailingText, width cs - width rest⟩

end Restyle.Script
