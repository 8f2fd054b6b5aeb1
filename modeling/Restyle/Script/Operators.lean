import Restyle.Script.Classes

/-! Operators and the expressions that they make of their operands. -/

namespace Restyle.Script.Parse

variable (go : Grammar)

/-- The operators of two operands, with their levels. -/
def operator? (allowIn : Bool) : Token → Option (String × Nat)
  | .mark m => ([
      ("??", 1), ("||", 1), ("&&", 2), ("|", 3), ("^", 4), ("&", 5), ("==", 6), ("!=", 6), ("===", 6),
      ("!==", 6), ("<", 7), (">", 7), ("<=", 7), (">=", 7), ("<<", 8), (">>", 8), (">>>", 8), ("+", 9),
      ("-", 9), ("*", 10), ("/", 10), ("%", 10), ("**", 11)].lookup m).map (m, ·)
  | .word "in" false => if allowIn then some ("in", 7) else none
  | .word "instanceof" false => some ("instanceof", 7)
  | _ => none

/-- An operator of two operands that is a mark. -/
def isOperatorMark (t : Token) : Bool :=
  match t with
  | .mark _ => (operator? false t).isSome
  | _ => false

/-- The operators that compute what they assign. -/
def updatingOperators : List String := [
  "+=", "-=", "*=", "/=", "%=", "**=", "<<=", ">>=", ">>>=", "&=", "|=", "^=", "&&=", "||=", "??="]

/-- A token with which an expression begins. -/
def beginsExpression (c : Context) : Token → Bool
  | .word w escaped => c.isName (.word w escaped) || wordsBefore.contains w
  | .number _ | .bigint | .text _ => true
  | .mark m => marksBefore.contains m
  | _ => false
where
  wordsBefore : List String := [
    "this", "null", "true", "false", "function", "class", "new", "super", "import", "typeof", "void",
    "delete", "await", "yield"]
  marksBefore : List String := [
    "(", "[", "\x7b", "`", "+", "-", "!", "~", "++", "--", "/", "/=", "<", "<<", "@", "#"]

/-! ### Targets of assignments -/

/-- Notes that an expression cannot be changed. -/
def checkTarget (t : Term) (start : Nat) : Parse Unit := do
  unless t.isSimpleTarget do note .invalidUpdateTarget start

/-- Stops at an expression that cannot be read as a pattern. -/
def checkPattern (t : Term) : Parse Unit := do
  unless t.canBePattern do fail (.misplaced "pattern")

/-- An assignment to an expression that begins at an offset, or the expression alone. -/
def assigned (start : Nat) (left : Term) : Parse Term := do
  match ← token with
  | .mark "=" =>
    match left with
    | .array _ | .object _ => checkPattern left
    | _ =>
      checkTarget left start
      unless left.mayBeTarget do failAt .invalidAssignmentTarget start
  | .mark m =>
    unless updatingOperators.contains m do return left
    checkTarget left start
    unless left.mayBeTarget do failAt .invalidAssignmentTarget start
  | _ => return left
  let plain ← isMark "="
  advance
  discard (go .assignment)
  return if plain then .assignment else .other

/-! ### Operators before and after one operand -/

/-- `await` where it waits for an operand. An offset is given if the word has been passed. -/
def awaited (passed : Option Nat) : Parse Term := do
  let c ← read
  let start := passed.getD (← get).start
  if passed.isNone then advance
  if ← isMark "*" then fail (.misplaced "*")
  unless c.inAsync do
    let ends := match ← token with
      | .mark m => [")", "]", ";", ","].contains m
      | _ => false
    if ends || (← atStatementEnd) then return .identifier "await"
  if passed.isNone && c.topLevel && !c.module then note .awaitOutsideModule start
  return .awaited (← go .unary)

/-- An operand with the operators before and after it. -/
def unary : Parse Term := do
  let c ← read
  match ← token with
  | .mark "<" =>
    unless c.types do return ← counted
    advance
    let kept ← eatWord "const"
    unless kept do discard (go .type)
    expectCloseAngle
    let t ← go .unary
    return if kept then .other else .typed t
  | .mark "++" | .mark "--" =>
    advance
    let start := (← get).start
    let t ← go .unary
    checkTarget t start
    return .update
  | .mark "+" | .mark "-" | .mark "~" | .mark "!" => before
  | .word "delete" false | .word "void" false | .word "typeof" false => before
  | .word "await" false => awaited go none
  | _ => counted
where
  /-- An operator before its operand; what is wrong with the operand is noted. -/
  before : Parse Term := do
    advance
    discard (recover (go .unary) .invalid)
    return .unary
  /-- An operand with the mark that counts after it, on its line. -/
  counted : Parse Term := do
    let start := (← get).start
    let t ← go .call
    if t.isArrow || (← get).afterBreak then return t
    if (← isMark "++") || (← isMark "--") then
      checkTarget t start
      advance
      return .update
    return t

/-! ### Operators between two operands -/

/-- A faulty mix of operators: one of them needs brackets. -/
def checkMix (operator : String) (left right : Term) (start rightStart : Nat) : Parse Unit := do
  match operator, left, right with
  | "??", .logical, _ => note .mixedNullish start
  | "??", _, .logical => note .mixedNullish rightStart
  | "&&", .nullish, _ | "||", .nullish, _ => note .mixedNullish start
  | _, _, _ => return

/-- What an operator makes of its operands. -/
def joined : String → Term
  | "??" => .nullish
  | "&&" | "||" => .logical
  | _ => .binary

/-- The type that is claimed of an operand after a word, if one is. -/
def claimed? (left : Term) (level : Nat) : Parse (Option Term) := do
  let s ← get
  unless (← read).types && !s.afterBreak && level < 7 do return none
  if s.token.isTheWord "as" then
    if (← following).1.isTheWord "const" then
      advance
      advance
      return some .other
    advance
    discard (go .type)
    return some (.typed left)
  if s.token.isTheWord "satisfies" then
    advance
    discard (go .type)
    return some (.typed left)
  return none

/-- The operators above a level after an operand, with their other operands. -/
def operationsUpTo (start level : Nat) : Nat → Term → Parse Term
  | 0, _ => fail .tooDeep
  | n + 1, left => do
    match ← claimed? go left level with
    | some t => operationsUpTo start level n t
    | none =>
      match operator? (← read).allowIn (← token) with
      | none => return left
      | some (m, tightness) =>
        if tightness ≤ level then return left
        advance
        if m = "**" then
          match left with
          | .unary | .awaited _ => fail .unaryPower
          | _ => pure ()
        let rightStart := (← get).start
        let right ← go (.operand (if m = "**" then tightness - 1 else tightness))
        checkMix m left right start rightStart
        operationsUpTo start level n (joined m)

/-- The operators above a level after an operand that begins at an offset. -/
def operations (start level : Nat) (left : Term) : Parse Term := do
  operationsUpTo go start level (← read).limit left

/-- Operands joined by operators above a level. -/
def operand (level : Nat) : Parse Term := do
  let start := (← get).start
  operations go start level (← unary go)

/-- Operands joined by operators. If the first operand is missing before an operator, this is noted. -/
def binary : Parse Term := do
  let start := (← get).start
  let left ← orElse (unary go) fun fault => do
    failIfBad
    let s ← get
    if (operator? (← read).allowIn s.token).isNone then throw fault
    note .expressionExpected s.start
    return .invalid
  if left.isArrow then return left
  operations go start 0 left

/-- The branches of a conditional after its question mark. -/
def branches : Parse Unit := do
  let consequent (c : Context) : Context :=
    { c with allowIn := true, inBranch := true, beforeColon := true }
  discard (within consequent (go .assignment))
  expectMark ":"
  discard (within (fun c => { c with inBranch := true, beforeColon := false }) (go .assignment))

/-- A choice between two expressions, or the operands alone. -/
def conditional : Parse Term := do
  let test ← binary go
  if test.isArrow then return test
  unless ← eatMark "?" do return test
  branches go
  return .conditional

/-! ### Assignments -/

/-- `yield` and its operand, which may be missing. -/
def yielded : Parse Term := do
  let c ← read
  advance
  if c.inParameters then fail (.misplaced "yield")
  let t ← token
  let hasOperand := t = .mark "*" || beginsExpression c t
  if (← atStatementEnd) || !hasOperand then return .other
  discard (eatMark "*")
  discard (go .assignment)
  return .other

/-- An arrow function that begins with parameters of types. -/
def genericArrow : Parse Term := do
  typeParameters go
  let t ← go .assignment
  unless t.isArrow do fail (.misplaced "expression")
  return t

/-- A token with which the parameters of an arrow function may begin. -/
def mayBeginArrow (c : Context) : Token → Bool
  | .mark "(" => true
  | .word w false =>
    w == "yield" || (!isReserved w && !(["let", "await"].contains w) && c.isName (.word w false))
  | .word _ true => true
  | _ => false

/-- An expression without commas. -/
def assignment : Parse Term := do
  let c ← read
  if c.types && (← isMark "<") && (← following).1.isWord then
    let arrow ← within (fun c => { c with beforeColon := false }) (attempt (genericArrow go))
    if let some t := arrow then return t
  if c.inGenerator && (← isWord "yield") then return ← yielded go
  failIfBad
  let s ← get
  allowArrow (mayBeginArrow c s.token)
  let t ← conditional go
  if t.isClosed then return t
  assigned go s.start t

end Restyle.Script.Parse
