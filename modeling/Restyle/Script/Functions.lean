import Restyle.Script.Types

/-! Functions and the members of objects: everything that has parameters and a body. -/

namespace Restyle.Script

/-- The inside of a function, parameters included. -/
def Context.ofFunction (isAsync isGenerator : Bool) (c : Context) : Context :=
  { c with inAsync := isAsync, inGenerator := isGenerator }

/-- The body of a function. -/
def Context.ofBody (c : Context) : Context :=
  { c with topLevel := false, inParameters := false, inStaticBlock := false }

/-- The place of statements. -/
def Context.ofStatements (c : Context) : Context :=
  { c with
    topLevel := false
    allowIn := false
    inBranch := false
    beforeColon := false
    inLoopHead := false }

namespace Parse

variable (go : Grammar)

/-- Statements up to a closing brace. At the end of the text the brace may be missing. -/
def block : Parse Unit := do
  expectMark "\x7b"
  within Context.ofStatements do
    loop do
      let s ← get
      if s.token = .finish || s.token = .mark "\x7d" then return false
      discard (go .statement)
      return true
  unless ← eatMark "\x7d" do note (.missing "\x7d" "<eof>") (← get).here

/-- The first text in the braces here asks for the stricter rules. -/
def asksForStrictness : Parse Bool := do
  let body := (← get).next.source
  return Text.startsWith "\"use strict\"".toList body || Text.startsWith "'use strict'".toList body

/-- The body of a function, and whether it is there. Where types are part of the language it can be left
out. -/
def functionBody : Parse Bool := do
  if (← read).types && !(← isMark "\x7b") then
    if ← eatStatementEnd then return false
  let asked ← asksForStrictness
  within (fun c => { c.ofBody with allowIn := true, strict := c.strict || asked }) (block go)
  return true

/-- The parameters of a function, the type of its result and its body. Tells whether the body is
there. -/
def functionRest (parameters : Parse Unit) (isAsync isGenerator : Bool) : Parse Bool := do
  within (Context.ofFunction isAsync isGenerator) do
    eatTypeParameters go
    expectMark "("
    within (fun c => { c with inParameters := true }) parameters
    expectMark ")"
    colonResult go
    functionBody go

/-- A member of an object or a class that is a function. -/
def method (isAsync isGenerator : Bool) : Parse Unit :=
  within (fun c => { c with allowParent := true }) do
    discard (functionRest go (discard (parameters go)) isAsync isGenerator)

/-- A name that may be left out. -/
def eatBindingName : Parse Unit := do
  if (← atName) || ((← read).types && (← isWord "this")) then discard bindingName

/-- Where a function stands that begins with its word. -/
inductive FunctionPlace where
  /-- A declaration, which has a name. -/
  | declaration
  /-- The default of a module, which may have a name. -/
  | default
  /-- An expression, which may have a name that counts inside the function, and has a body. -/
  | expression
  deriving DecidableEq

/-- A function from its first word on. -/
def function (isAsync : Bool) (place : FunctionPlace) : Parse Unit := do
  expectWord "function"
  let isGenerator ← eatMark "*"
  match place with
  | .declaration => discard bindingName
  | .default => eatBindingName
  | .expression => within (Context.ofFunction isAsync isGenerator) eatBindingName
  let hasBody ← within (fun c => { c with allowParent := false }) do
    functionRest go (discard (parameters go)) isAsync isGenerator
  if place = .expression && !hasBody then fail (.missing "\x7b" (← token).describe)

/-- The body of an arrow function: statements in braces, or an expression. Tells whether there are
braces. -/
def arrowBody (isAsync : Bool) : Parse Bool := do
  within (fun c => (c.ofFunction isAsync false).ofBody) do
    if ← isMark "\x7b" then
      block go
      return true
    discard (go .assignment)
    return false

/-! ### Objects -/

/-- A token that can follow the key of a member. -/
def followsKey : Token → Bool
  | .word .. | .text _ | .number _ => true
  | .mark m => ["(", "[", ":", ",", "?", "=", "*", "<"].contains m
  | _ => false

/-- A member of an object that has a word before its key. -/
def markedMember (word : String) : Parse Unit := do
  match word with
  | "get" | "set" =>
    discard (memberKey go)
    method go false false
  | "async" =>
    let isGenerator ← eatMark "*"
    discard (memberKey go)
    method go true isGenerator
  | _ => fail (.misplaced (← token).describe)

/-- A member of an object: a name or a text with a value, a function, or a name alone. -/
def objectMember : Parse (Option String × Term) := do
  if ← eatMark "..." then
    return (none, .spread (← within Context.bracketed (go .assignment)))
  if ← eatMark "*" then
    discard (memberKey go)
    method go false true
    return (none, .method)
  eatFieldModifier
  let key ← memberKey go
  let types := (← read).types
  let next ← token
  if types && !followsKey next && !(next = .mark "\x7d" && key.isName) then
    note (.missing "," next.describe) (← get).here
    return (none, .invalid)
  if ← eatMark ":" then
    return (key.spelled?, ← within Context.bracketed (go .assignment))
  if (← isMark "(") || (types && (← isMark "<")) then
    method go false false
    return (none, .method)
  match key with
  | .name word =>
    discard (eatMark "?")
    if ← eatMark "=" then
      discard (within Context.bracketed (go .assignment))
      return (none, .other)
    if (← isMark ",") || (← isMark "\x7d") then return (none, .identifier word)
    markedMember go word
    return (none, .method)
  | _ => fail (.misplaced next.describe)

/-- Members in braces. -/
def object : Parse Term := do
  expectMark "\x7b"
  let members ← within Context.bracketed do
    collect do
      if ← isMark "\x7d" then return none
      let member ← objectMember go
      unless ← isMark "\x7d" do expectMark ","
      return some member
  expectMark "\x7d"
  return .object members

end Parse

end Restyle.Script
