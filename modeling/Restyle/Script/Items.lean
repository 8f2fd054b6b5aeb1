import Restyle.Script.Statements

/-! The items of a module: statements, imports and exports. Of a module the expressions that it exports
as its default are kept. -/

namespace Restyle.Script.Parse

variable (go : Grammar)

/-! ### Imports -/

/-- Where a module is taken from. -/
def moduleSource : Parse Unit := do
  unless (← token).isText do fail (.missing "string literal" (← token).describe)
  advance
  unless (← get).afterBreak do
    if (← eatWord "assert") || (← eatWord "with") then discard (object go)
  discard eatStatementEnd

/-- The name of something in a module. -/
def exportedName : Parse Bool := do
  if (← token).isText then
    advance
    return true
  discard anyWord
  return false

/-- Something imported in braces, with the name that it gets. -/
def importedItem : Parse Unit := do
  let c ← read
  let mut s ← get
  let mut isText ← exportedName
  if c.types && s.token matches .word "type" _ && (← token).isWord then
    if ← eatWord "as" then
      unless (← token).isWord do return
      if (← bindingName) == "as" && (← token).isWord then discard bindingName
      return
    s ← get
    isText ← exportedName
  if ← eatWord "as" then discard bindingName
  else if isText || !c.isName s.token then failAt .nameExpected s.start

/-- A name for what stands in another module, after its equals sign. -/
def importedAlias : Parse Unit := do
  expectMark "="
  if (← isWord "require") && (← following).1 = .mark "(" then
    advance
    advance
    unless (← token).isText do fail (.missing "string literal" (← token).describe)
    advance
    expectMark ")"
  else dottedName
  expectStatementEnd

/-- What an import begins with. -/
inductive ImportHead where
  /-- A star or names in braces can follow. -/
  | names (star braces : Bool)
  /-- The name of the default has been passed. -/
  | default (star braces : Bool)
  /-- An alias has been read. -/
  | alias

/-- An import with a name at its head, or with a word that says how it is imported. -/
def importHead : Parse ImportHead := do
  let c ← read
  unless ← atName do return .names true true
  let word ← bindingName
  let atNames : Parse Bool := do return (← isMark "\x7b") || (← isMark "*")
  let nameFollows : Parse Bool := do
    return (← atName) && (!(← isWord "from") || (← following).1.isTheWord "from")
  if c.types && word == "type" then
    if ← atNames then return .names true true
    if ← nameFollows then discard bindingName
    else if (← isWord "from") && (← following).1 = .mark "=" then discard anyWord
  if c.types && (← isMark "=") then
    importedAlias
    return .alias
  if word == "source" || word == "defer" then
    if ← atNames then return .names (word == "defer") false
    if ← nameFollows then
      discard bindingName
      return .default (word == "defer") false
  return .default true true

/-- An import from its first word on. -/
def importItem : Parse Unit := do
  advance
  if (← token).isText then return ← moduleSource go
  let names (star braces : Bool) : Parse Unit := do
    if star && (← isMark "*") then
      advance
      expectWord "as"
      discard bindingName
    else if braces && (← isMark "\x7b") then
      advance
      listed importedItem "\x7d"
    expectWord "from"
    moduleSource go
  match ← importHead with
  | .alias => return
  | .names star braces => names star braces
  | .default star braces =>
    unless ← isWord "from" do expectMark ","
    names star braces

/-! ### Exports -/

/-- Something exported in braces, with the name that it gets. -/
def exportedItem : Parse Unit := do
  let s ← get
  discard exportedName
  if (← read).types && s.token matches .word "type" _ && (← token).isWord then
    if ← eatWord "as" then
      unless (← token).isWord do return
      if (← anyWord) == "as" && (← token).isWord then discard anyWord
      return
    discard anyWord
  if ← eatWord "as" then discard exportedName

/-- The module that exported things come from. -/
def fromModule : Parse Unit := do
  expectWord "from"
  moduleSource go

/-- Names that are exported, or all names of another module. -/
def exportedNames : Parse Unit := do
  if ← eatMark "*" then
    if ← eatWord "as" then discard exportedName
    return ← fromModule go
  expectMark "\x7b"
  listed exportedItem "\x7d"
  if ← isWord "from" then fromModule go
  else discard eatStatementEnd

/-- What a module exports as its default: an expression, or a declaration that is none. -/
def defaultExport : Parse (Option Term) := do
  let types := (← read).types
  let (after, breakBefore) ← following
  if ← isWord "class" then
    classRest go false
    return none
  if ← isWord "function" then
    function go false .default
    return none
  if (← isWord "async") && after.isTheWord "function" && !breakBefore then
    advance
    function go true .default
    return none
  if types then
    if (← isWord "abstract") && after.isTheWord "class" && !breakBefore then
      advance
      classRest go false
      return none
    if (← isWord "abstract") && after.isTheWord "interface" then advance
    if ← eatWord "interface" then
      interfaceRest go
      return none
  let value ← within (fun c => { c with allowIn := true }) (go .assignment)
  expectStatementEnd
  return some value

/-- A declaration that is exported, if one stands here. -/
def exportedDeclaration? : Parse Bool := do
  let types := (← read).types
  let (after, breakBefore) ← following
  if ← isWord "class" then classRest go true
  else if ← isWord "function" then function go false .declaration
  else if (← isWord "async") && after.isTheWord "function" && !breakBefore then
    advance
    function go true .declaration
  else if types && (← isWord "const") && after.isTheWord "enum" then
    advance
    advance
    enumRest go
  else match ← variableKind? with
    | some kind =>
      advance
      variableStatement go kind
    | none => return false
  return true

/-- An export that only the language with types has, if one stands here. -/
def typedExport? : Parse Bool := do
  let declares ← eatWord "declare"
  if declares then
    if ← ambient? go then return true
  if let .word w false ← token then
    let declared : Parse Unit := do
      unless ← mustDeclare? go w do fail (.misplaced w)
    if (← attempt declared).isSome then return true
  if ← eatWord "import" then
    let (after, _) ← following
    if (← isWord "type") && after.isWord then advance
    discard anyWord
    importedAlias
  else if ← eatMark "=" then
    discard (expression go)
    expectStatementEnd
  else if ← eatWord "as" then
    expectWord "namespace"
    discard name
    expectStatementEnd
  else return false
  return true

/-- An export from its first word on. -/
def exportItem : Parse (Option Term) := do
  advance
  if (← read).types then
    if ← typedExport? go then return none
    if ← eatWord "type" then
      exportedNames go
      return none
  if ← eatWord "default" then return ← defaultExport go
  unless ← exportedDeclaration? go do exportedNames go
  return none

/-! ### Items -/

/-- An item of a module, with the expression that it exports as its default if it does. -/
def item : Parse (Option Term) := do
  let s ← get
  if s.token.isTheWord "export" && (← read).module then return ← exportItem go
  if s.token.isTheWord "import" && (← read).module then
    match (← following).1 with
    | .mark "(" | .mark "." => pure ()
    | _ =>
      importItem go
      return none
  discard (go .statement)
  return none

/-- The items of a module up to its end, with the expressions it exports as its default. -/
def items : Parse (List Term) := do
  let found ← collect do
    if (← token) = .finish then return none
    return some (← item go)
  return found.filterMap id

end Restyle.Script.Parse
