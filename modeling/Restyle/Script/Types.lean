import Restyle.Script.Bindings

/-! Types of values. Nothing of them is kept: a reader has to know only where they end. -/

namespace Restyle.Script.Parse

variable (go : Grammar)

/-! ### Arguments and parameters -/

/-- Pieces up to a closing angle bracket, which is not read; commas stand between. -/
def angleListed (item : Parse Unit) : Parse Unit := do
  loop do
    if ← atCloseAngle then return false
    item
    if ← eatMark "," then return true
    unless ← atCloseAngle do fail (.missing "," (← token).describe)
    return false

/-- Types in angle brackets. -/
def typeArguments : Parse Unit := do
  unless ← atOpenAngle do fail (.missing "<" (← token).describe)
  splitToken
  angleListed (discard (go .type))
  expectCloseAngle

def typeParameter : Parse Unit := do
  loop do
    let word ← modifier? ["public", "protected", "private", "readonly", "abstract", "const", "override",
      "in", "out"]
    return word.isSome
  discard anyWord
  if ← eatWord "extends" then discard (go .type)
  if ← eatMark "=" then discard (go .type)

/-- Parameters of types in angle brackets. -/
def typeParameters : Parse Unit := do
  expectMark "<"
  angleListed (typeParameter go)
  expectCloseAngle

/-- Parameters of types, where types are part of the language and an angle bracket stands. -/
def eatTypeParameters : Parse Unit := do
  if (← read).types then
    if ← isMark "<" then typeParameters go

/-! ### Signatures -/

/-- A type of a result, which may be a test of a parameter. -/
def resultType : Parse Unit := do
  let c ← read
  let asserts := (← isWord "asserts") && c.isName (← following).1
  if asserts then advance
  let (after, breakBefore) ← following
  if (← atName) && after.isTheWord "is" && !breakBefore then
    advance
    advance
    discard (go .type)
  else if asserts then discard anyWord
  else discard (go .type)

/-- A type of a result after a mark. -/
def resultTypeAfter (m : String) : Parse Unit := do
  expectMark m
  resultType go

/-- The type of a result after a colon, where types are part of the language and there is one. -/
def colonResult : Parse Unit := do
  if (← read).types then
    if ← isMark ":" then resultTypeAfter go ":"

/-- Parameters up to a closing round bracket, none of them with a value of its own. -/
def signatureParametersRest : Parse Unit := do
  if ← parameters go then fail (.misplaced "value")
  expectMark ")"

/-- Parameters in round brackets, none of them with a value of its own. -/
def signatureParameters : Parse Unit := do
  expectMark "("
  signatureParametersRest go

/-- The parameters and the result of a member that is a function. -/
def signature : Parse Unit := do
  eatTypeParameters go
  signatureParameters go
  colonResult go

/-- The end of a member of a type. -/
def expectMemberEnd : Parse Unit := do
  unless ← eatMark "," do expectStatementEnd

/-! ### Members of object types -/

/-- An index with its type, and not a computed key, stands in the square brackets here. -/
def beginsIndex : Parse Bool := lookAhead do
  expectMark "["
  unless ← atName do return false
  advance
  return (← isMark ":") || (← isMark ",")

/-- An index with its type in square brackets, and the type of what stands there. -/
def indexSignature : Parse Unit := do
  expectMark "["
  discard anyWord
  unless ← eatMark "," do expectMark ":"
  discard (go .type)
  expectMark "]"
  colonType go
  expectMemberEnd

/-- The key of a member of a type. -/
def typeKey : Parse Unit := do
  if ← eatMark "[" then
    discard (go .assignment)
    expectMark "]"
  else
    match ← token with
    | .number _ | .bigint | .text _ => advance
    | _ => memberName

/-- A member that is computed when it is asked for or set. -/
def typeAccessor : Parse Unit := do
  let gets ← eatWord "get"
  unless gets do expectWord "set"
  typeKey go
  if gets then
    expectMark "("
    expectMark ")"
    colonType go
  else
    expectMark "("
    if ← isMark ")" then fail (.missing "name" ")")
    signatureParametersRest go
  expectMemberEnd

/-- A member of an object type. -/
def typeMember : Parse Unit := do
  if (← isMark "(") || (← isMark "<") then
    signature go
    return ← expectMemberEnd
  if ← isWord "new" then
    match (← following).1 with
    | .mark "(" | .mark "<" =>
      advance
      signature go
      return ← expectMemberEnd
    | _ => pure ()
  let readOnly := (← modifier? ["readonly"]).isSome
  if ← beginsIndex then return ← indexSignature go
  unless readOnly do
    if (← attempt (typeAccessor go)).isSome then return
  typeKey go
  discard (eatMark "?")
  if (← isMark "(") || (← isMark "<") then
    if readOnly then fail (.misplaced "readonly")
    signature go
  else colonType go
  expectMemberEnd

/-- An object type. -/
def typeMembers : Parse Unit := do
  expectMark "\x7b"
  loop do
    if ← isMark "\x7d" then return false
    typeMember go
    return true
  expectMark "\x7d"

/-- The braces here hold one member for each name of a type. -/
def beginsMappedType : Parse Bool := lookAhead do
  expectMark "\x7b"
  if (← eatMark "+") || (← eatMark "-") then return ← isWord "readonly"
  discard (eatWord "readonly")
  unless ← eatMark "[" do return false
  unless ← atName do return false
  advance
  isWord "in"

def mappedType : Parse Unit := do
  expectMark "\x7b"
  if (← eatMark "+") || (← eatMark "-") then expectWord "readonly"
  else discard (eatWord "readonly")
  expectMark "["
  discard anyWord
  expectWord "in"
  discard (go .type)
  if ← eatWord "as" then discard (go .type)
  expectMark "]"
  if (← eatMark "+") || (← eatMark "-") then expectMark "?"
  else discard (eatMark "?")
  colonType go
  expectStatementEnd
  expectMark "\x7d"

/-! ### Simple types -/

/-- An item of a tuple type, which may have a name. -/
def tupleItem : Parse Unit := do
  discard (attempt do
    discard (eatMark "...")
    discard anyWord
    discard (eatMark "?")
    expectMark ":")
  if ← eatMark "..." then discard (go .type)
  else
    discard (go .type)
    discard (eatMark "?")

/-- Names with points between them. A point at the end is let go. -/
def dottedName : Parse Unit := do
  discard anyWord
  loop do
    let stop := (← get).stop
    unless ← eatMark "." do return false
    if (← token).isWord then
      advance
      return true
    if ← isMark "#" then fail .nameExpected
    note (.missing "identifier" ".") stop
    return false

/-- Type arguments on the line of what they belong to. -/
def eatTypeArguments : Parse Unit := do
  if (← atOpenAngle) && !(← get).afterBreak then typeArguments go

/-- The type of what a module exports. -/
def importedType : Parse Unit := do
  expectWord "import"
  expectMark "("
  advance
  if ← eatMark "," then
    if ← isMark "\x7b" then discard (go .assignment)
  expectMark ")"
  if ← eatMark "." then dottedName
  if ← isMark "<" then typeArguments go

/-- Types that are one word. -/
def basicTypes : List String := [
  "any", "bigint", "boolean", "intrinsic", "never", "null", "number", "object", "string", "symbol",
  "undefined", "unknown", "void"]

/-- A type that is a word or begins with one. -/
def wordType (word : String) : Parse Unit := do
  let (after, _) ← following
  match word with
  | "true" | "false" => advance
  | "this" =>
    advance
    if (← isWord "is") && !(← get).afterBreak then
      advance
      discard (go .type)
  | "typeof" =>
    advance
    if ← isWord "import" then importedType go else dottedName
    eatTypeArguments go
  | "import" => importedType go
  | _ =>
    if word == "asserts" && after.isTheWord "this" then
      advance
      advance
      if ← eatWord "is" then discard (go .type)
    else if isReserved word && !(["void", "null", "break"].contains word) then
      fail (.misplaced word)
    else if basicTypes.contains word && after != .mark "." then advance
    else
      eatFieldModifier
      dottedName
      eatTypeArguments go

/-- A type without operators. -/
def simpleType : Parse Unit := do
  match ← token with
  | .number _ | .bigint | .text _ => advance
  | .mark "-" =>
    advance
    match ← token with
    | .number _ | .bigint => advance
    | t => fail (.misplaced t.describe)
  | .mark "`" => template false (discard (go .type))
  | .mark "\x7b" => if ← beginsMappedType then mappedType go else typeMembers go
  | .mark "[" =>
    advance
    listed (tupleItem go) "]"
  | .mark "(" =>
    advance
    discard (go .type)
    expectMark ")"
  | .word w _ => wordType go w
  | t => fail (.misplaced t.describe)

/-! ### Operators on types -/

/-- A type with the brackets after it. -/
def arrayType : Parse Unit := do
  simpleType go
  loop do
    if (← get).afterBreak then return false
    unless ← eatMark "[" do return false
    unless ← isMark "]" do discard (go .type)
    expectMark "]"
    return true

/-- The round bracket or angle bracket here begins a function type. -/
def beginsFunctionType : Parse Bool := do
  if ← isMark "<" then return true
  unless ← isMark "(" do return false
  lookAhead do
    advance
    if (← isMark ")") || (← isMark "...") then return true
    eatFieldModifier
    match ← token with
    | .mark "\x7b" | .mark "[" => discard (go .binding)
    | t =>
      unless (← read).isName t || t.isTheWord "this" do return false
      advance
    match ← token with
    | .mark ":" | .mark "," | .mark "=" | .mark "?" => return true
    | .mark ")" => return (← following).1 = .mark "=>"
    | _ => return false

/-- A function type: its parameters and its result. -/
def functionType : Parse Unit := do
  eatTypeParameters go
  signatureParameters go
  resultTypeAfter go "=>"

/-- Types joined by an operator, which may also stand before the first of them. -/
def joinedTypes (operator : String) (item : Parse Unit) : Parse Unit := do
  discard (eatMark operator)
  item
  loop do
    unless ← eatMark operator do return false
    item
    return true

/-- A type without a condition. -/
def plainType : Parse Unit := do
  if ← beginsFunctionType go then functionType go
  else if ← isWord "new" then
    advance
    functionType go
  else if (← isWord "abstract") && (← following).1.isTheWord "new" then
    advance
    advance
    functionType go
  else joinedTypes "|" (joinedTypes "&" (discard (go .prefixedType)))

/-- A type with the words in front of it that work on types. A type that is found out may have a bound,
unless that would begin a condition. -/
def prefixedType : Parse Term := do
  if (← eatWord "keyof") || (← eatWord "unique") || (← eatWord "readonly") then
    discard (go .prefixedType)
  else if ← eatWord "infer" then
    discard anyWord
    discard (attempt do
      expectWord "extends"
      within (fun c => { c with plainTypes := true }) (plainType go)
      if !(← read).plainTypes && (← isMark "?") then fail (.misplaced "?"))
  else arrayType go
  return .other

/-- A type, which may depend on a condition on another one. -/
def type : Parse Term := do
  within (fun c => { c with plainTypes := false }) (plainType go)
  unless (← get).afterBreak do
    if ← eatWord "extends" then
      within (fun c => { c with plainTypes := true }) (plainType go)
      expectMark "?"
      discard (go .type)
      expectMark ":"
      discard (go .type)
  return .other

end Restyle.Script.Parse
