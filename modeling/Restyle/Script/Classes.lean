import Restyle.Script.Functions

/-! Classes and their members. -/

namespace Restyle.Script.Parse

variable (go : Grammar)

/-- A function begins here, after the key of a member. -/
def atMethod : Parse Bool := do
  return (← isMark "(") || ((← read).types && (← isMark "<"))

/-- A field ends or goes on here, after its key. -/
def atField (mayEndLine : Bool) : Parse Bool := do
  match ← token with
  | .mark "=" | .mark "\x7d" => return true
  | .mark "!" | .mark ":" => if (← read).types then return true
  | .mark ";" => return true
  | _ => pure ()
  if mayEndLine then atStatementEnd else return false

/-- The key of a member of a class, which may be private: the name it is spelled with. -/
def classKey : Parse (Option String × Bool) := do
  if ← eatMark "#" then
    discard anyWord
    return (none, false)
  let key ← memberKey go
  return (key.spelled?, key.isName)

/-- A field after its key. -/
def field (key : Option String) (optional : Bool) : Parse Unit := do
  if key = some "constructor" then fail (.misplaced "constructor")
  if (← read).types && !optional then discard (eatMark "!")
  colonType go
  within (fun c => { c with allowIn := true, inParameters := false }) do
    if ← eatMark "=" then discard (go .assignment)
  unless ← eatStatementEnd do note (.missing ";" (← token).describe) (← get).here

/-- A field or a function that is named by a word which says something about a member elsewhere, or
nothing if that word says something here. -/
def memberNamed? (word : String) (mayEndLine : Bool) : Parse Bool := do
  if ← atMethod then
    method go false false
    return true
  let optional ← if (← read).types then eatMark "?" else pure false
  if optional || (← atField mayEndLine) then
    field go (some word) optional
    return true
  return false

/-- A parameter of a function that makes a value of the class. Words in front of a name make it a field
of the class. -/
def constructorParameter : Parse Unit := do
  let isField ← if (← read).types && !(← isMark "...") then do
      let access ← modifier? ["public", "protected", "private", "in", "out"]
      let override ← modifier? ["override"]
      let readOnly ← modifier? ["readonly"]
      pure ((access.isSome && access != some "in" && access != some "out") || override.isSome
        || readOnly.isSome)
    else pure false
  let t ← token
  discard (parameter go)
  if isField && !t.isWord then fail (.misplaced t.describe)

/-- The function that makes a value of a class, after its key. -/
def classConstructor : Parse Unit :=
  within (fun c => { c with allowParent := true }) do
    let parameters : Parse Unit := loop do
      if ← isMark ")" then return false
      constructorParameter go
      unless ← isMark ")" do expectMark ","
      return true
    discard (functionRest go parameters false false)

/-- The statements of a class. -/
def staticBlock : Parse Unit :=
  within (fun c => { c with inStaticBlock := true, allowParent := true }) (block go)

/-- Words in front of a member, each with the token that ends their reading. -/
def memberModifiers : Parse (List String) := collect do
  unless (← read).types do return none
  if (← isWord "static") && (← following).1 = .mark "\x7b" then return none
  modifier? ["abstract", "readonly", "override", "static"]

/-- A member with its key, after the words in front of it. -/
def keyedMember (isStatic readOnly : Bool) : Parse Unit := do
  let types := (← read).types
  if ← eatMark "*" then
    discard (classKey go)
    return ← method go false true
  let (key, isName) ← if readOnly && ((← isMark "!") || (← isMark ":"))
    then pure (some "readonly", true) else classKey go
  let optional ← if types then eatMark "?" else pure false
  if ← atMethod then
    if readOnly then fail (.misplaced "readonly")
    if key = some "constructor" then return ← classConstructor go
    return ← method go false false
  let s ← get
  let isAccessor := isName && (key = some "get" || key = some "set") && !(← atField false)
    && !(s.afterBreak && s.token = .mark "*")
  if !isAccessor && (← atField true) then return ← field go key optional
  if isName && key = some "async" && !s.afterBreak then
    discard (modifier? ["override"])
    let isGenerator ← eatMark "*"
    let (key, _) ← classKey go
    if readOnly || (key = some "constructor" && !isStatic) then fail (.misplaced "async")
    if types then discard (eatMark "?")
    return ← method go true isGenerator
  if isAccessor then
    discard (classKey go)
    return ← method go false false
  fail (.misplaced s.token.describe)

/-- A member of a class: a function, a field with its type and value, or statements. -/
def classMember : Parse Unit := do
  let types := (← read).types
  let declared ← if types then eatWord "declare" else pure false
  let access ← if types then modifier? ["public", "protected", "private", "in", "out"] else pure none
  let declared ← if types && !declared then eatWord "declare" else pure declared
  if declared then
    if ← memberNamed? go "declare" true then return
  let isStatic ← eatWord "static"
  let accessor ← if types then eatWord "accessor" else pure false
  if isStatic && !accessor && !(← isMark "\x7b") then
    if ← memberNamed? go "static" false then return
  if accessor then
    if ← memberNamed? go "accessor" false then return
  let words ← memberModifiers
  let isStatic := isStatic || words.contains "static"
  if types && !accessor then discard (eatWord "accessor")
  if isStatic && (← isMark "\x7b") then return ← staticBlock go
  if (← isWord "static") && (← following).1 = .mark "\x7b" then
    advance
    return ← staticBlock go
  if types && access.isNone && !words.contains "abstract" && !words.contains "override" then
    if ← beginsIndex then return ← indexSignature go
  keyedMember go isStatic (words.contains "readonly")

/-- Types that a class or an interface is built on. -/
def heritage : Parse Unit := do
  loop do
    if (← isMark "\x7b") || (← isWord "implements") || (← isWord "extends") then return false
    discard anyWord
    loop do
      unless ← eatMark "." do return false
      memberName
      return true
    if ← atOpenAngle then typeArguments go
    eatMark ","

/-- The class above. -/
def parent : Parse Unit := do
  discard (go .call)
  if (← read).types && (← isMark "<") then typeArguments go

/-- What a class is built on. More than one class above, or words in another order, are noted. -/
def classHeritage : Parse Unit := do
  let c ← read
  let again (word : String) : Parse Bool := do
    let start := (← get).start
    unless ← eatWord word do return false
    note (.misplaced word) start
    return true
  if ← eatWord "extends" then
    parent go
    if c.types && (← isMark ",") then
      note (.misplaced ",") (← get).start
      advance
      heritage go
  if ← again "extends" then parent go
  if c.types then
    if ← eatWord "implements" then heritage go
    if ← again "implements" then heritage go
    if ← again "extends" then parent go

/-- A class from its first word on, with or without a name. -/
def classRest (isNamed : Bool) : Parse Unit := do
  within (fun c => { c with strict := true }) do
    expectWord "class"
    if isNamed then
      if ← isWord "let" then fail (.misplaced "let")
      discard bindingName
    else eatBindingName
    eatTypeParameters go
    classHeritage go
    expectMark "\x7b"
    within (fun c => { c with allowParent := true, inStaticBlock := false, beforeColon := false }) do
      loop do
        let s ← get
        if s.token = .finish || s.token = .mark "\x7d" then return false
        unless ← eatMark ";" do classMember go
        return true
  unless ← eatMark "\x7d" do note (.missing "\x7d" "<eof>") (← get).here

end Restyle.Script.Parse
