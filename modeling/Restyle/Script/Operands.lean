import Restyle.Script.Brackets

/-! Operands: names, literals and brackets, with their properties and calls. -/

namespace Restyle.Script.Parse

variable (go : Grammar)

/-! ### Without properties -/

/-- An array after its bracket. -/
def array : Parse Term := do
  let items ← within Context.bracketed do
    collect do
      if ← isMark "]" then return none
      if ← eatMark "," then return some none
      let start := (← get).start
      let t ← spreadable go
      let item := some (⟨start, (← get).lastStop⟩, t)
      unless ← isMark "]" do expectMark ","
      return some item
  expectMark "]"
  return .array items

/-- Text with expressions in it. -/
def substituted (tagged : Bool) : Parse Unit := template tagged (discard (wholeExpression go))

/-- An operand that begins with the word `async` and is more than a name. -/
def asyncOperand? (mayBeArrow : Bool) : Parse (Option Term) := do
  let start := (← get).start
  let (after, breakBefore) ← following
  if after.isTheWord "function" && !breakBefore then
    advance
    function go true .expression
    return some .other
  if mayBeArrow && (← read).types && after = .mark "<" then
    let arrow ← attempt do
      advance
      genericArrowHead go
      discard (arrowBody go true)
    if arrow.isSome then return some .arrow
  if mayBeArrow && after = .mark "(" && !breakBefore then
    advance
    return some (← bracketsOrArrow go start mayBeArrow true)
  return none

/-- A name, or an arrow function that begins with one. After `async` on the same line a name is the
parameter of one, unless the name is the word that claims a type. -/
def nameOrArrow (mayBeArrow : Bool) : Parse Term := do
  let c ← read
  let isAsync ← isWord "async"
  let w ← anyWord
  let s ← get
  unless mayBeArrow && !s.afterBreak do return .identifier w
  if isAsync && c.isName s.token then
    if c.inLoopHead && s.token.isTheWord "of" && (← following).1 != .mark "=>" then
      return .identifier w
    let parameter ← bindingName
    if c.types && parameter == "as" && !(← isMark "=>") then
      discard (go .type)
      return .typed (.identifier w)
    return ← nameArrow go true
  if ← isMark "=>" then return ← nameArrow go false
  return .identifier w

/-- An operand without properties and calls. -/
def primary : Parse Term := do
  let s ← get
  let c ← read
  let mayBeArrow := s.arrowStart = some s.start
  match s.token with
  | .number value =>
    advance
    return .number value
  | .text value =>
    advance
    return .text value
  | .bigint =>
    advance
    return .other
  | .mark "/" | .mark "/=" =>
    regex
    return .other
  | .mark "`" =>
    substituted go false
    return .other
  | .mark "[" =>
    advance
    array go
  | .mark "\x7b" => object go
  | .mark "(" => bracketsOrArrow go s.start mayBeArrow false
  | .mark "#" =>
    memberName
    return .other
  | .word "function" false =>
    function go false .expression
    return .other
  | .word "class" false =>
    classRest go false
    return .other
  | .word "this" false | .word "null" false | .word "true" false | .word "false" false =>
    advance
    return .other
  | .word "let" false =>
    advance
    return .identifier "let"
  | .word "async" false =>
    match ← asyncOperand? go mayBeArrow with
    | some t => return t
    | none => nameOrArrow go mayBeArrow
  | t => if c.isName t then nameOrArrow go mayBeArrow else fail .expressionExpected

/-! ### Properties and calls -/

/-- Type arguments that stand for themselves: what follows them tells them from comparisons. -/
def appliedTypes : Parse Unit := do
  typeArguments go
  let c ← read
  let s ← get
  let compared := match s.token with
    | .mark m => ["<", ">", "=", ">>", ">=", "+", "-", "(", "`"].contains m
    | _ => false
  let applied := s.afterBreak || isOperatorMark s.token || !beginsExpression c s.token
  if compared || !applied then fail (.misplaced ">")

/-- Type arguments and what they are arguments of: a call, a template, or an expression that is assigned
to or claimed to have a type. Tells whether properties can follow. -/
def typedCall (calls : Bool) (t : Term) : Parse (Term × Bool) := do
  typeArguments go
  let s ← get
  match s.token with
  | .mark "(" =>
    unless calls do fail (.misplaced "(")
    arguments go
    return (if t matches .chain then .chain else .other, true)
  | .mark "`" =>
    substituted go true
    return (.other, true)
  | .mark "=" | .word "as" false | .word "satisfies" false => return (.typed t, false)
  | u => fail (.misplaced u.describe)

/-- Whether only something of a class above or of a module can be asked here. -/
def isPartial : Term → Bool
  | .parentClass | .moduleLoader => true
  | _ => false

/-- A property of a term, which may be asked for after a question mark. -/
def propertyOf (optional : Bool) (t : Term) : Parse Term := do
  match t with
  | .parentClass =>
    if optional || !(← read).allowParent then fail (.misplaced "super")
    return .parentMember
  | .moduleLoader => fail (.misplaced "import")
  | _ => return if optional then .chain else .member t

/-- One property or call after a term, and whether more can follow. A question mark before a point
belongs to it. -/
def step (calls : Bool) (t : Term) : Parse (Term × Bool) := do
  let c ← read
  if c.types then
    if (← isMark "!") && !(← get).afterBreak && !isPartial t then
      advance
      return (.nonNull t, true)
    if (← atOpenAngle) && !isPartial t then
      if let some next ← attempt (typedCall go calls t) then return next
  let optional := (← isMark "?") && (← following).1 = .mark "."
  if optional then advance
  let (after, _) ← following
  if (← isMark "[") || (optional && after = .mark "[") then
    if optional then advance
    advance
    discard (wholeExpression go)
    expectMark "]"
    return (← propertyOf optional t, true)
  let calledAfter := optional && (after = .mark "(" || (c.types && after = .mark "<"))
  if calledAfter || (calls && (← isMark "(")) then
    if calledAfter then advance
    if c.types && (← isMark "<") then typeArguments go
    arguments go
    if optional && isPartial t then fail (.misplaced "?")
    return (if optional || t.isChain then .chain else .other, true)
  if ← eatMark "." then
    memberName
    let applied ← if c.types && (← isMark "<") then attempt (appliedTypes go) else pure none
    let property ← propertyOf (optional || t.isChain) t
    return (if applied.isSome then .typed property else property, true)
  if isPartial t then fail (.misplaced "super")
  if ← isMark "`" then
    substituted go true
    return (.other, true)
  return (t, false)

/-- The properties and calls after a term. -/
def stepsUpTo (calls : Bool) : Nat → Term → Parse Term
  | 0, _ => fail .tooDeep
  | n + 1, t => do
    let (t, more) ← step go calls t
    if more then stepsUpTo calls n t else return t

/-- The properties and calls after a term. -/
def steps (calls : Bool) (t : Term) : Parse Term := do stepsUpTo go calls (← read).limit t

/-- An import as an operand: of a module, or what is known of this one. -/
def importOperand (calls : Bool) : Parse Term := do
  let start := (← get).start
  advance
  unless ← eatMark "." do return ← steps go calls .moduleLoader
  match ← anyWord with
  | "meta" =>
    unless (← read).module do note .importMetaOutsideModule start
    steps go calls .other
  | "defer" | "source" => steps go calls .moduleLoader
  | w => fail (.misplaced w)

/-- Type arguments before the arguments of a call. -/
def callTypes : Parse Unit := do
  if (← read).types && (← atOpenAngle) then
    discard (attempt do
      typeArguments go
      unless ← isMark "(" do fail (.missing "(" (← token).describe))

/-- What `new` is applied to: an operand with its properties, or `new` again. -/
def constructed : Parse Term := do
  match ← token with
  | .word "new" false =>
    advance
    if ← eatMark "." then
      expectWord "target"
      return ← steps go false .other
    let start := (← get).start
    let callee ← go .constructed
    if callee.isArrow then return callee
    if callee matches .chain then failAt (.misplaced "?.") start
    callTypes go
    unless ← isMark "(" do return .bareNew
    arguments go
    steps go false .other
  | .word "super" false =>
    advance
    steps go false .parentClass
  | .word "import" false => importOperand go false
  | _ =>
    let t ← primary go
    if t.isArrow then return t
    let applied ← if (← read).types && (← isMark "<") then attempt (appliedTypes go) else pure none
    steps go false (if applied.isSome then .typed t else t)

/-- An operand with its properties and calls. -/
def call : Parse Term := do
  match ← token with
  | .word "super" false =>
    advance
    steps go true .parentClass
  | .word "import" false => importOperand go true
  | _ =>
    let callee ← constructed go
    if callee.isArrow then return callee
    callTypes go
    if callee matches .bareNew then return callee
    unless ← isMark "(" do return callee
    arguments go
    steps go true (if callee.isChain then .chain else .other)

end Restyle.Script.Parse
