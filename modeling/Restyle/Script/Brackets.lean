import Restyle.Script.Operators

/-! Round brackets: an expression in them, the arguments of a call, or the parameters of an arrow
function. Which of these they are shows only after them, so their items are read as expressions as far
as they are ones. -/

namespace Restyle.Script.Parse

variable (go : Grammar)

/-- Expressions with commas between them. -/
def expression : Parse Term := do
  let first ← go .assignment
  unless ← isMark "," do return first
  loop do
    unless ← eatMark "," do return false
    discard (go .assignment)
    return true
  return .other

/-- An expression where `in` is an operator. -/
def wholeExpression : Parse Term := within (fun c => { c with allowIn := true }) (expression go)

/-- An argument or an item, which may be spread. -/
def spreadable : Parse Term := do
  if ← eatMark "..." then return .spread (← go .assignment)
  go .assignment

/-- The arguments of a call. -/
def arguments : Parse Unit := do
  expectMark "("
  within Context.bracketed do listed (discard (spreadable go)) ")"

/-! ### Items -/

/-- What stands between two commas. -/
inductive BracketItem where
  | expression (value : Term)
  /-- A parameter with a type, or one that may be left out; it may be a name alone. -/
  | parameter (isName : Bool)
  deriving Inhabited

namespace BracketItem

def isParameter : BracketItem → Bool
  | parameter _ => true
  | _ => false

def isSpread : BracketItem → Bool
  | expression (.spread _) => true
  | _ => false

/-- A name, be it spread. -/
def isName : BracketItem → Bool
  | expression t => (t.spreadless matches .identifier _)
  | parameter isName => isName

end BracketItem

/-- An item up to the mark that decides what it is. In the language with types a name may be followed by
a question mark that begins no conditional. -/
def itemHead : Parse Term := do
  let c ← read
  let first ← token
  if c.types && c.isName first then
    let start := (← get).start
    return ← assigned go start (← binary go)
  if c.types && first = .mark "..." && c.isName (← following).1 then
    advance
    return .spread (← binary go)
  spreadable go

/-- The question mark after an item: whether it says that the parameter may be left out, or else the
item with the conditional that it begins. -/
def itemQuestion (t : Term) : Parse (Bool × Term) := do
  unless (← read).types && (← isMark "?") do return (false, t)
  match (← following).1 with
  | .mark "," | .mark "=" | .mark ":" | .mark ")" =>
    advance
    match t.spreadless with
    | .identifier _ => return (true, t)
    | _ => fail (.misplaced "?")
  | _ =>
    if let .spread _ := t then return (false, t)
    advance
    branches go
    return (false, .conditional)

/-- An item in round brackets. -/
def bracketItem : Parse BracketItem := do
  allowArrow true
  eatFieldModifier
  let (optional, t) ← itemQuestion go (← itemHead go)
  if optional || ((← read).types && (← isMark ":")) then
    checkPattern t
    match t with
    | .spread _ | .identifier _ | .array _ | .object _ => colonType go
    | .assignment =>
      note (.misplaced ":") (← get).start
      colonType go
    | _ => pure ()
    let valued ← eatMark "="
    if valued then discard (go .assignment)
    return .parameter (t matches .identifier _ && !valued)
  return .expression t

/-- Stops at an item that can be no parameter. -/
def checkParameter : BracketItem → Parse Unit
  | .expression t => checkPattern t
  | .parameter _ => return

/-- One more item in front of those before it, latest first. An arrow after it makes them parameters of
an arrow function if the first of them is a name, and is let go if not. -/
def oneMoreItem (items : List BracketItem) : Parse (Option (List BracketItem)) := do
  let s ← get
  if s.token = .finish || s.token = .mark ")" then return none
  let items := (← bracketItem go) :: items
  let isArrow ← eatMark "=>"
  let items ← if isArrow && items.getLast?.any (·.isName) then do
      items.reverse.forM checkParameter
      discard (arrowBody go false)
      pure (.expression .arrow :: items)
    else pure items
  unless ← isMark ")" do expectMark ","
  return some items

/-- The items in round brackets. -/
def bracketItems : Parse (List BracketItem) := do
  expectMark "("
  let items ← within Context.bracketed (grow (oneMoreItem go) [])
  expectMark ")"
  return items.reverse

/-! ### Arrow functions -/

/-- The rest of an arrow function from its arrow on. Tells whether its body has braces. -/
def arrowRest (isAsync : Bool) (items : List BracketItem) : Parse Bool := do
  expectMark "=>"
  items.forM checkParameter
  arrowBody go isAsync

/-- In a branch of a conditional, an arrow function with a type of its result: where a colon must follow
the branch, it does. -/
def typedArrowInBranch (isAsync : Bool) (items : List BracketItem) : Parse Unit := do
  resultTypeAfter go ":"
  discard (arrowRest go isAsync items)
  if (← read).beforeColon && !(← isMark ":") then fail (.misplaced "arrow")

/-- The type of the result of an arrow function. -/
def arrowResult : Parse Unit := do
  resultTypeAfter go ":"
  unless ← isMark "=>" do fail (.misplaced "type")

/-- What round brackets are that no arrow follows: arguments of a call to `async`, or an expression in
them, which must not be empty. -/
def bracketed (start : Nat) (isAsync : Bool) (items : List BracketItem) : Parse Term := do
  if isAsync then return .other
  if items.any (·.isSpread) then fail (.misplaced "...")
  match items with
  | [] => failAt .emptyParentheses start
  | [.expression t] => return .parenthesized t
  | _ => return .parenthesized .other

/-- Round brackets at the head of an operand, with the arrow function that they begin if they do. They
follow the word `async` if it stands at the start. -/
def bracketsOrArrow (start : Nat) (mayBeArrow isAsync : Bool) : Parse Term := do
  let items ← bracketItems go
  let c ← read
  if c.types && c.inBranch && (← isMark ":") then
    if (← attempt (typedArrowInBranch go isAsync items)).isSome then return .arrow
  let typed ← if c.types && !c.beforeColon && (← isMark ":")
    then pure (← attempt (arrowResult go)).isSome else pure false
  unless typed || items.any (·.isParameter) || (← isMark "=>") do
    return ← bracketed start isAsync items
  if !mayBeArrow || (← get).afterBreak then failAt (.misplaced "=>") start
  let hasBraces ← arrowRest go isAsync items
  let s ← get
  if hasBraces && isOperatorMark s.token then
    note (.missing "," s.token.describe) s.start
    return ← operations go start 0 .arrow
  return .arrow

/-- An arrow function with one parameter that is a name, from the arrow on. -/
def nameArrow (isAsync : Bool) : Parse Term := do
  expectMark "=>"
  discard (arrowBody go isAsync)
  return .arrow

/-- The parameters of an arrow function that follow parameters of types, and its result. -/
def genericArrowHead : Parse Unit := do
  typeParameters go
  expectMark "("
  discard (parameters go)
  expectMark ")"
  colonResult go
  expectMark "=>"

end Restyle.Script.Parse
