import Restyle.Script.Declarations

/-! Statements. -/

namespace Restyle.Script.Parse

variable (go : Grammar)

/-- A condition in round brackets. -/
def condition : Parse Unit := do
  expectMark "("
  discard (wholeExpression go)
  expectMark ")"

/-- A statement that is a part of another one. -/
def substatement : Parse Unit := do
  discard (within (fun c => { c with topLevel := false }) (go .substatement))

/-! ### Loops -/

/-- What a loop `for` goes through. -/
inductive LoopHead where
  | counting
  | keys
  | items

/-- A loop that counts, from the test on. -/
def countingHead : Parse LoopHead := do
  unless ← eatMark ";" do
    discard (wholeExpression go)
    expectMark ";"
  unless ← isMark ")" do discard (wholeExpression go)
  return .counting

/-- A loop through a collection, from the word in front of it on, if that stands here. -/
def collectionHead? : Parse (Option LoopHead) := do
  if ← eatWord "of" then
    discard (within (fun c => { c with allowIn := true }) (go .assignment))
    return some .items
  if ← eatWord "in" then
    discard (wholeExpression go)
    return some .keys
  return none

/-- A variable that is given back after each round of a loop: the expression before it is its word. -/
def beginsUsing (first : Term) : Parse Bool := do
  let (after, _) ← following
  let begins := match first with
    | .identifier "using" | .awaited (.identifier "using") => true
    | _ => false
  return (← read).types && begins && !(← isWord "of")
    && (after.isTheWord "of" || after.isTheWord "in")

/-- The head of a loop `for` after its opening bracket. -/
def loopHead : Parse LoopHead := do
  if let some kind ← variableKind? then
    advance
    declarators go kind true
    if let some head ← collectionHead? go then return head
    expectMark ";"
    return ← countingHead go
  if ← eatMark ";" then return ← countingHead go
  let start := (← get).start
  let first ← within (fun c => { c with allowIn := false, inLoopHead := true }) (expression go)
  if ← beginsUsing first then
    discard bindingName
    match ← collectionHead? go with
    | some head => return head
    | none => fail (.misplaced "using")
  if (← isWord "of") || (← isWord "in") then
    match first with
    | .array _ | .object _ => checkPattern first
    | _ => checkTarget first start
    if let some head ← collectionHead? go then return head
  expectMark ";"
  countingHead go

/-- A loop `for` after its first word. -/
def forLoop : Parse Unit := do
  let start := (← get).start
  let waits ← eatWord "await"
  expectMark "("
  let head ← loopHead go
  expectMark ")"
  substatement go
  match head with
  | .items => return
  | _ => if waits then failAt (.misplaced "await") start

/-! ### Branches -/

/-- The cases of a choice. -/
def cases : Parse Unit := do
  let hasDefault ← collect do
    let isDefault ← isWord "default"
    unless isDefault || (← isWord "case") do return none
    advance
    unless isDefault do discard (wholeExpression go)
    let colon ← get
    expectMark ":"
    loop do
      if (← isWord "case") || (← isWord "default") || (← isMark "\x7d") then return false
      discard (within (fun c => { c with topLevel := false }) (go .statement))
      return true
    return some (isDefault, colon.lastStop)
  match (hasDefault.filter (·.1)).drop 1 with
  | [] => return
  | (_, offset) :: _ => failAt (.misplaced "default") offset

/-- What is done with a thrown value, if anything. -/
def catchBlock : Parse Unit := do
  unless ← eatWord "catch" do return
  if ← eatMark "(" then
    discard (go .binding)
    colonType go
    expectMark ")"
  block go

/-- What is done in any case, if anything. -/
def finallyBlock : Parse Unit := do
  if ← eatWord "finally" then block go

/-! ### Expressions -/

/-- What is left of a statement whose expression has been read. -/
def endExpression (start : Nat) (t : Term) : Parse Unit := do
  if ← eatStatementEnd then return
  let s ← get
  unless isOperatorMark s.token do fail (.missing ";" s.token.describe)
  note (.missing ";" s.token.describe) s.start
  discard (operations go start 0 t)

/-- A statement that begins with an expression: an expression alone, a statement with a label, or a
declaration whose first word is a name elsewhere. -/
def expressionStatement : Parse Unit := do
  let start := (← get).start
  let t ← wholeExpression go
  if let .identifier word := t then
    if ← eatMark ":" then
      if ← isWord "function" then function go false .declaration else substatement go
      return
    if word == "interface" && (← get).afterBreak then
      discard eatStatementEnd
      return
    if ← declaration? go word then return
    if (← read).types && ["public", "static", "abstract"].contains word then
      if ← eatWord "interface" then return ← interfaceRest go
  endExpression go start t

/-- A statement that begins by waiting, after its first word. -/
def awaitStatement (start : Nat) : Parse Unit := do
  if ← eatUsing go then return
  let t ← awaited go (some start)
  discard (within (fun c => { c with allowIn := true }) (operations go start 0 t))
  discard eatStatementEnd

/-! ### All of them -/

/-- A declaration of a type whose first word is a name elsewhere, if a name follows on its line. -/
def namedType? : Parse Bool := do
  let c ← read
  let (after, breakBefore) ← following
  unless c.types && c.isName after && !breakBefore do return false
  match ← token with
  | .word "interface" false =>
    advance
    interfaceRest go
  | .word "type" false =>
    advance
    typeAlias go
  | .word "enum" false =>
    advance
    enumRest go
  | _ => return false
  return true

/-- A statement with a word of its own, if one stands here. -/
def wordStatement? (word : String) : Parse Bool := do
  match word with
  | "if" =>
    advance
    condition go
    substatement go
    if ← eatWord "else" then substatement go
  | "for" =>
    advance
    forLoop go
  | "while" | "with" =>
    advance
    condition go
    substatement go
  | "do" =>
    advance
    substatement go
    expectWord "while"
    condition go
    discard eatStatementEnd
  | "switch" =>
    advance
    condition go
    expectMark "\x7b"
    cases go
    expectMark "\x7d"
  | "try" =>
    advance
    block go
    catchBlock go
    finallyBlock go
  | "catch" | "finally" =>
    note (.misplaced word) (← get).start
    discard (orElse (do catchBlock go; finallyBlock go) fun _ => return)
  | "return" =>
    advance
    unless ← atStatementEnd do discard (wholeExpression go)
    expectStatementEnd
  | "throw" =>
    advance
    if (← get).afterBreak then fail (.misplaced "line break")
    discard (wholeExpression go)
    expectStatementEnd
  | "break" | "continue" =>
    advance
    unless ← eatStatementEnd do
      discard name
      expectStatementEnd
  | "debugger" =>
    advance
    expectStatementEnd
  | "function" => function go false .declaration
  | "class" => classRest go true
  | "var" =>
    advance
    variableStatement go .var
  | _ => return false
  return true

/-- A declaration that only stands in a list of statements, if one stands here. -/
def listedDeclaration? : Parse Bool := do
  if let some kind ← variableKind? then
    advance
    variableStatement go kind
    return true
  eatUsing go

/-- A statement. In a list of them it can declare something for the rest of the list. -/
def statement (inList : Bool) : Parse Term := do
  let s ← get
  let c ← read
  let (after, breakBefore) ← following
  let isWord (w : String) : Bool := s.token.isTheWord w
  if isWord "import" && (after = .mark "(" || after = .mark ".") then
    discard (wholeExpression go)
    discard eatStatementEnd
  else if isWord "import" || isWord "export" then fail (.misplaced "module item")
  else if c.types && isWord "const" && after.isTheWord "enum" then
    advance
    advance
    enumRest go
  else if isWord "await" && (inList || c.topLevel) then
    advance
    awaitStatement go s.start
  else if s.token = .mark "\x7b" then block go
  else if s.token = .mark ";" then advance
  else if isWord "async" && after.isTheWord "function" && !breakBefore then
    advance
    function go true .declaration
  else
    let word := match s.token with
      | .word w false => w
      | _ => ""
    if ← wordStatement? go word then return .other
    if inList then
      if ← listedDeclaration? go then return .other
    unless ← namedType? go do expressionStatement go
  return .other

end Restyle.Script.Parse
