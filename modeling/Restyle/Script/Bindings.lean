import Restyle.Script.Parse

/-! Names that a construct introduces: patterns, parameters and the keys of members. Of a pattern is
kept whether it is a name, an array or an object. -/

namespace Restyle.Script.Parse

variable (go : Grammar)

/-! ### Words in front of a construct -/

/-- A token before which a word may stand that says more about it. -/
def followsModifier : Token → Bool
  | .word .. | .text _ | .number _ => true
  | .mark m => ["[", "\x7b", "*", "...", "#"].contains m
  | _ => false

/-- One of some words, where a construct that it can belong to follows on the line. -/
def modifier? (words : List String) : Parse (Option String) := do
  match ← token with
  | .word w false =>
    let (after, breakBefore) ← following
    if words.contains w && !breakBefore && followsModifier after then
      advance
      return some w
    return none
  | _ => return none

/-- Past a word that makes a parameter a field. -/
def eatFieldModifier : Parse Unit := do
  unless (← read).types do return
  match (← following).1 with
  | .word .. | .mark "\x7b" | .mark "[" =>
    discard (modifier? ["public", "protected", "private", "readonly"])
  | _ => return

/-! ### Keys -/

/-- The key of a member. -/
inductive Key where
  | name (text : String)
  /-- A text; `none` is one that no text can hold. -/
  | text (value : Option String)
  /-- A number, or an expression in brackets. -/
  | other

namespace Key

def isName : Key → Bool
  | name _ => true
  | _ => false

/-- The key as a name, written as one or as a text. -/
def spelled? : Key → Option String
  | name w => some w
  | text t => t
  | other => none

end Key

def memberKey : Parse Key := do
  match ← token with
  | .word w _ =>
    advance
    return .name w
  | .text t =>
    advance
    return .text t
  | .number _ | .bigint =>
    advance
    return .other
  | .mark "[" =>
    advance
    let key : Parse Unit := discard (within Context.bracketed (go .assignment))
    key
    if (← read).types then
      loop do
        unless ← eatMark "," do return false
        key
        return true
    expectMark "]"
    return .other
  | t => fail (.misplaced t.describe)

/-- A type after a colon, where types are part of the language. -/
def colonType : Parse Unit := do
  if (← read).types then
    if ← eatMark ":" then discard (go .type)

/-! ### Patterns -/

/-- A name that is introduced. -/
def bindingName : Parse String := do
  let c ← read
  let start := (← get).start
  let w ← name
  if w == "await" && (c.inAsync || c.inStaticBlock) then note .nameExpected start
  return w

/-- Past a value after an equals sign, and whether there is one. -/
def eatInitial : Parse Bool := do
  unless ← eatMark "=" do return false
  discard (within Context.bracketed (go .assignment))
  return true

def bindingElement : Parse Unit := do
  discard (go .binding)
  discard (eatInitial go)

def arrayPattern : Parse Unit := do
  expectMark "["
  loop do
    if ← isMark "]" then return false
    if ← eatMark "," then return true
    if ← eatMark "..." then discard (go .binding)
    else bindingElement go
    unless ← isMark "]" do expectMark ","
    return true
  expectMark "]"

def patternMember : Parse Unit := do
  if ← eatMark "..." then
    discard (go .binding)
  else
    let key ← memberKey go
    if ← eatMark ":" then bindingElement go
    else
      unless key.isName do fail (.misplaced (← token).describe)
      discard (eatInitial go)

/-- A name, or a pattern that takes a value apart. -/
def binding : Parse Term := do
  match ← token with
  | .word .. => return .identifier (← bindingName)
  | .mark "[" =>
    arrayPattern go
    if (← read).ambient then discard (eatMark "?")
    return .array []
  | .mark "\x7b" =>
    advance
    listed (patternMember go) "\x7d"
    if (← read).ambient then discard (eatMark "?")
    return .object []
  | .bad _ =>
    failIfBad
    return .other
  | t => fail (.misplaced t.describe)

/-! ### Parameters -/

/-- A parameter, and whether it has a value of its own. -/
def parameter : Parse Bool := do
  if ← eatMark "..." then
    discard (go .binding)
    discard (eatInitial go)
    colonType go
    if (← read).types then discard (eatMark "?")
    return false
  eatFieldModifier
  discard (go .binding)
  if (← read).types then discard (eatMark "?")
  colonType go
  eatInitial go

/-- Parameters up to a closing bracket, which is not read, and whether one of them has a value of its
own. -/
def parameters : Parse Bool := do
  let valued ← collect do
    if ← isMark ")" then return none
    let valued ← parameter go
    unless ← isMark ")" do expectMark ","
    return some valued
  return valued.any id

end Restyle.Script.Parse
