import Restyle.Script.Operands

/-! Declarations of variables, and those that only the language with types has. -/

namespace Restyle.Script.Parse

variable (go : Grammar)

/-! ### Variables -/

/-- A word that declares variables. -/
inductive VariableKind where
  | var | let | const
  deriving DecidableEq

/-- A name or a pattern with its type and value. In the head of a loop a value can be missing before the
words that go through a collection. -/
def declarator (kind : VariableKind) (inHead : Bool) : Parse Unit := do
  let c ← read
  if kind ≠ .var && (← isWord "let") then fail (.misplaced "let")
  let start := (← get).start
  let target ← go .binding
  let isName := target matches .identifier _
  if c.types && isName then discard (eatMark "!")
  colonType go
  let t ← token
  if inHead && (t.isTheWord "in" || t.isTheWord "of") then return
  if ← eatMark "=" then
    discard (go .assignment)
    return
  if c.ambient || isName then return
  if kind = .const && !inHead then return ← note (.misplaced "declaration") start
  failAt (.misplaced "pattern") start

/-- In the head of a loop, the words that go through a collection follow and no variables. -/
def lacksVariables (inHead : Bool) : Parse Bool := do
  unless inHead && (← read).types do return false
  lookAhead do
    unless (← eatWord "of") || (← eatWord "in") do return false
    discard (go .assignment)
    isMark ")"

/-- Variables after the word that declares them. -/
def declarators (kind : VariableKind) (inHead : Bool) : Parse Unit := do
  if ← lacksVariables go inHead then return ← note (.missing "name" "of") (← get).lastStop
  let allowIn := kind ≠ .var || !inHead
  within (fun c => { c with allowIn, beforeColon := false }) do
    loop do
      if ← isMark ";" then
        note (.missing "name" ";") (← get).here
        return false
      declarator go kind inHead
      eatMark ","

/-- After variables that no end of a statement follows: past the end of the line, or up to a token that
cannot be used. -/
def skipLine : Parse Unit := do
  note (.missing ";" (← token).describe) (← get).here
  discard (orElse (expression go) fun _ => return .other)
  loop do
    if ← eatStatementEnd then return false
    advance
    return !(← token).isBad

/-- A statement that declares variables, after its first word. -/
def variableStatement (kind : VariableKind) : Parse Unit := do
  declarators go kind false
  unless ← eatStatementEnd do skipLine go

/-- A token that can follow the word `let` where it declares variables. -/
def followsLet : Token → Bool
  | .word w escaped => escaped || !isReserved w
  | .mark m => m == "\x7b" || m == "["
  | _ => false

/-- The word here that declares variables, if it does. -/
def variableKind? : Parse (Option VariableKind) := do
  match ← token with
  | .word "var" false => return some .var
  | .word "const" false => return some .const
  | .word "let" false => return if followsLet (← following).1 then some .let else none
  | _ => return none

/-- Variables that are given back at the end of a block, from the word that declares them on, if it
does. -/
def eatUsing : Parse Bool := do
  unless ← isWord "using" do return false
  let (after, breakBefore) ← following
  unless !breakBefore && (← read).isName after do return false
  advance
  loop do
    if ← isMark ";" then return false
    declarator go .var false
    eatMark ","
  expectStatementEnd
  return true

/-! ### Types -/

/-- A type with a name, after the first word. -/
def typeAlias : Parse Unit := do
  discard anyWord
  eatTypeParameters go
  expectMark "="
  discard (go .type)
  expectStatementEnd

/-- An interface after its first word. -/
def interfaceRest : Parse Unit := do
  discard anyWord
  eatTypeParameters go
  if ← eatWord "extends" then heritage go
  if ← isWord "extends" then
    note (.misplaced "extends") (← get).start
    loop do
      let s ← get
      if s.token = .finish || s.token = .mark "\x7b" then return false
      advance
      return true
  typeMembers go

/-- An enumeration after its first word. -/
def enumRest : Parse Unit := do
  discard anyWord
  expectMark "\x7b"
  loop do
    if ← isMark "\x7d" then return false
    discard (memberKey go)
    if ← eatMark "=" then discard (go .assignment)
    else unless (← isMark ",") || (← isMark "\x7d") do
      -- Any other token stands for a comma.
      note (.missing "," (← token).describe) (← get).start
      advance
      return true
    if ← isMark "\x7d" then return false
    expectMark ","
    return true
  expectMark "\x7d"

/-- Items of a module in braces. -/
def moduleBlock : Parse Unit := do
  expectMark "\x7b"
  within Context.ofStatements do
    loop do
      let s ← get
      if s.token = .finish || s.token = .mark "\x7d" then return false
      discard (go .item)
      return true
  unless ← eatMark "\x7d" do note (.missing "\x7d" "<eof>") (← get).here

/-- A namespace after its first word. -/
def namespaceRest : Parse Unit := do
  discard anyWord
  loop do
    unless ← eatMark "." do return false
    discard anyWord
    return true
  moduleBlock go

/-- What is known of a module that stands elsewhere, after the first word. -/
def outerModule : Parse Unit := do
  if ← isMark "\x7b" then moduleBlock go else expectStatementEnd

/-- A declaration that a word begins which has been passed. -/
def declared? (word : String) : Parse Bool := do
  let s ← get
  let named ← atName
  match word with
  | "abstract" =>
    unless s.token.isTheWord "class" && !s.afterBreak do return false
    classRest go true
  | "enum" =>
    unless named do return false
    enumRest go
  | "interface" =>
    unless named do return false
    interfaceRest go
  | "module" =>
    if s.afterBreak then return false
    if s.token.isText then
      advance
      outerModule go
    else if named then namespaceRest go
    else return false
  | "namespace" =>
    unless named do return false
    namespaceRest go
  | "type" =>
    unless named && !s.afterBreak do return false
    typeAlias go
  | _ => return false
  return true

/-- A declaration that the word here must begin, or nothing. -/
def mustDeclare? (word : String) : Parse Bool := do
  match word with
  | "abstract" =>
    advance
    classRest go true
  | "enum" =>
    advance
    enumRest go
  | "interface" =>
    advance
    interfaceRest go
  | "module" =>
    if (← get).afterBreak then return false
    advance
    if (← token).isText then
      advance
      outerModule go
    else namespaceRest go
  | "namespace" =>
    advance
    namespaceRest go
  | "type" =>
    advance
    typeAlias go
  | _ => return false
  return true

/-- A declaration after the word that says it stands elsewhere, or nothing. -/
def ambient? : Parse Bool := within (fun c => { c with ambient := true }) do
  let (after, _) ← following
  match ← token with
  | .word "function" false =>
    function go false .declaration
    return true
  | .word "class" false =>
    classRest go true
    return true
  | .word "const" false =>
    advance
    if after.isTheWord "enum" then
      advance
      enumRest go
    else variableStatement go .const
    return true
  | .word "var" false =>
    advance
    variableStatement go .var
    return true
  | .word "let" false =>
    advance
    variableStatement go .let
    return true
  | .word "global" false =>
    advance
    outerModule go
    return true
  | .word w false => mustDeclare? go w
  | _ => return false

/-- A declaration that a name begins which has been read as an expression. -/
def declaration? (word : String) : Parse Bool := do
  unless (← read).types do return false
  match word with
  | "declare" => ambient? go
  | "global" =>
    unless ← isMark "\x7b" do return false
    moduleBlock go
    return true
  | _ => declared? go word

end Restyle.Script.Parse
