import Restyle.Markup.Elements
import Restyle.Script.Shape
import Restyle.Expansion.Convention
import Restyle.Expansion.Outcome

/-! Plans: what is to be done with each element. A plan holds the last attribute of each meaning; no
text is changed yet. -/

namespace Restyle

open Markup

/-- Where a hoisted definition goes among the arguments. -/
inductive ArgumentPosition where
  | index (n : Nat)
  | last
  deriving Repr, DecidableEq

namespace ArgumentPosition

/-- The index in a list of arguments. One past the end is the end. -/
def resolve (length : Nat) : ArgumentPosition → Nat
  | index n => min n length
  | last => length

/-- The position that a shape names: a number rounded down, held in 64 bits, or the last position for
infinity. -/
def ofShape? : Script.Shape → Option ArgumentPosition
  | .identifier "Infinity" => some last
  | .number (some value) => some (index (min value.floor 0xffffffffffffffff))
  | _ => none

def render : ArgumentPosition → String
  | index n => s!"Index({n})"
  | last => "End"

end ArgumentPosition

/-- An attribute and the expression that is its value. -/
structure Anchor where
  name : String
  span : Span
  value : Expression
  deriving Repr, DecidableEq

/-- What is to be done with an element. -/
structure ElementPlan where
  /-- The name of the element. -/
  tag : String
  /-- The attribute that becomes a call of the runtime. -/
  attrs : Option Anchor := none
  /-- The attribute whose value is hoisted. -/
  create : Option Anchor := none
  position : Option ArgumentPosition := none
  /-- The attributes that are dropped. -/
  removals : List Span := []
  deriving Repr, DecidableEq

namespace ElementPlan

/-- The element gets a call of the runtime. -/
def expands (p : ElementPlan) : Bool := p.attrs.isSome || p.create.isSome

/-- Something of the element changes. -/
def edits (p : ElementPlan) : Bool := p.expands || !p.removals.isEmpty

/-- The plan in one line, for the log. -/
def describe (p : ElementPlan) : String :=
  let position := p.position.elim "None" fun at_ => "Some(" ++ at_.render ++ ")"
  s!"<{p.tag}> attrs={p.attrs.isSome} create={p.create.isSome} at=" ++ position

end ElementPlan

/-- The place of a part of a text that begins at an offset. -/
def Span.shifted (start : Nat) (part : Span) : Span := ⟨start + part.start, start + part.stop⟩

/-- The text of a part of an expression that begins at an offset of the file. -/
def SourceFile.textIn (f : SourceFile) (start : Nat) (part : Span) : Remarking String :=
  match (part.shifted start).slice? f.text with
  | some text => pure text
  | none => throw (.trap (part.shifted start))

section Reading

variable [Script.ExpressionReader]

/-- The shape of an expression in a file. -/
def SourceFile.shape (f : SourceFile) (attr : String) (e : Expression) : Remarking Script.Shape :=
  match Script.Shape.ofText? e.text with
  | .ok shape => pure shape
  | .error fault =>
    throw (.expression f.shownName (f.location (e.span.start + fault.offset)) attr fault.kind)

namespace ElementPlan

/-- Adds a meaning to a plan. A later one of its kind takes the place of an earlier one, but a value
that names no position leaves the position. -/
def add (f : SourceFile) (p : ElementPlan) : Convention → Remarking ElementPlan
  | .attrs name span value => pure { p with attrs := some ⟨name, span, value⟩ }
  | .create name span value => do
    Remarking.remark (.advice .inlineCreate name (f.location span.start))
    pure { p with create := some ⟨name, span, value⟩ }
  | .position name span value => do
    Remarking.remark (.advice .createPosition name (f.location span.start))
    let p := { p with removals := p.removals ++ [span] }
    match value with
    | none => pure p
    | some e =>
      let position := ArgumentPosition.ofShape? (← f.shape name e)
      pure { p with position := position <|> p.position }

/-- The plan for an element. -/
def ofElement (o : Options) (f : SourceFile) (e : ElementView) : Remarking ElementPlan :=
  (o.conventions e.attributes).foldlM (add f) { tag := e.name }

/-- The plans that are not empty, in the order of their elements. -/
def ofElements (o : Options) (f : SourceFile) : List ElementView → Remarking (List ElementPlan)
  | [] => pure []
  | e :: rest => do
    let plan ← ofElement o f e
    if plan.edits then
      Remarking.remark
        (.debug (s!"{f.shownName}:{(f.location e.span.start).render}: " ++ plan.describe))
      return plan :: (← ofElements o f rest)
    ofElements o f rest

end ElementPlan

end Reading

end Restyle
