import Restyle.Text.Width
import Restyle.Script.Term
import Restyle.Script.Token.Reader

/-! The state of a parser of scripts: the current token and the text after it, with the faults that did
not stop it. A parser reads on from a state or stops with a fault. -/

namespace Restyle.Script

open Text

/-- What the place of a construct allows. -/
structure Context where
  /-- Types are part of the language. -/
  types : Bool
  /-- The text is a module. -/
  module : Bool
  /-- More than the number of constructs that the text can hold. -/
  limit : Nat
  /-- Some more words are reserved. -/
  strict : Bool := false
  /-- Outside all functions and blocks. -/
  topLevel : Bool := true
  /-- The operator `in` may be used. -/
  allowIn : Bool := false
  inAsync : Bool := false
  inGenerator : Bool := false
  /-- Among the parameters of a function. -/
  inParameters : Bool := false
  inStaticBlock : Bool := false
  /-- The class above can be asked for its properties. -/
  allowParent : Bool := false
  /-- In a declaration of something that is defined elsewhere. -/
  ambient : Bool := false
  /-- In a branch of a conditional. -/
  inBranch : Bool := false
  /-- Between the question mark and the colon of a conditional. -/
  beforeColon : Bool := false
  /-- In a place where the word `extends` does not continue a type. -/
  plainTypes : Bool := false
  /-- At the first expression of a loop. -/
  inLoopHead : Bool := false
  /-- Faults that do not stop the parser are not noted. -/
  quiet : Bool := false

/-- The place of an expression in brackets. -/
def Context.bracketed (c : Context) : Context := { c with allowIn := true, beforeColon := false }

/-- The word is not a name here. -/
def Context.reserves (c : Context) (word : String) : Bool :=
  isReserved word
    || (word == "await" && (c.inAsync || c.inStaticBlock || c.module))
    || (word == "yield" && (c.inGenerator || c.strict))
    || (c.strict && strictlyReserved.contains word)
where
  strictlyReserved : List String := [
    "implements", "interface", "let", "package", "private", "protected", "public", "static"]

/-- The token is a name here. -/
def Context.isName (c : Context) : Token → Bool
  | .word w escaped => escaped || !c.reserves w
  | _ => false

/-- A place in a text: the current token and the text from it on. -/
structure Place where
  token : Token
  /-- The offset of the token. -/
  start : Nat
  /-- The text from the token on. -/
  source : List Char
  /-- The number of characters of the token. -/
  length : Nat
  /-- A line break stands before the token. -/
  afterBreak : Bool
  /-- The offset after the token before. -/
  lastStop : Nat

namespace Place

/-- The offset after the token. -/
def stop (p : Place) : Nat := p.start + width (p.source.take p.length)

/-- The text after the token. -/
def rest (p : Place) : List Char := p.source.drop p.length

/-- The place at the next token of a text that begins at an offset. -/
def scan (offset : Nat) (cs : List Char) : Place :=
  let gap := Gap.ofText cs
  let lexeme := Lexeme.read gap.rest
  { token := lexeme.token
    start := offset + gap.width
    source := gap.rest
    length := lexeme.length
    afterBreak := gap.hasLineBreak
    lastStop := offset }

/-- What can be reached from a place by reading on: the place itself, and every place after a part of the
text from its token on. -/
inductive Reaches (p : Place) : Place → Prop where
  | stay : p.Reaches p
  | on {read after : List Char} (h : p.source = read ++ after) : p.Reaches (scan (p.start + width read) after)

theorem Reaches.trans {p q r : Place} (h : p.Reaches q) (h' : q.Reaches r) : p.Reaches r := by
  cases h with
  | stay => exact h'
  | @on read after hread =>
    cases h' with
    | stay => exact .on hread
    | @on more rest hmore =>
      obtain ⟨skipped, hskipped, hwidth⟩ := Gap.exists_skipped after
      have hsource : p.source = (read ++ skipped ++ more) ++ rest := by
        rw [hread, hskipped, show (Gap.ofText after).rest = more ++ rest from hmore]
        simp only [List.append_assoc]
      have hstart : (scan (p.start + width read) after).start + width more =
          p.start + width (read ++ skipped ++ more) := by
        simp only [scan, hwidth, width_append, Nat.add_assoc]
      rw [hstart]
      exact .on hsource

end Place

structure State extends Place where
  /-- Where the parameters of an arrow function may begin. -/
  arrowStart : Option Nat
  /-- Faults that did not stop the parser, newest first. -/
  faults : List Fault

namespace State

/-- The next token of a text that begins at an offset. -/
def scan (offset : Nat) (cs : List Char) (arrowStart : Option Nat) (faults : List Fault) : State :=
  let gap := Gap.ofText cs
  let lexeme := Lexeme.read gap.rest
  let start := offset + gap.width
  let faults := if gap.unterminated then ⟨.unterminated "block comment", offset⟩ :: faults else faults
  { token := lexeme.token
    start
    source := gap.rest
    length := lexeme.length
    afterBreak := gap.hasLineBreak
    lastStop := offset
    arrowStart
    faults := lexeme.faults.foldl (fun fs (at_, kind) => ⟨kind, start + at_⟩ :: fs) faults }

def ofText (text : List Char) : State := scan 0 text none []

/-- Read on at an offset of the text. -/
def jump (s : State) (offset : Nat) (cs : List Char) : State := scan offset cs s.arrowStart s.faults

/-- Past the current token. -/
def next (s : State) : State := s.jump s.stop s.rest

/-- Where a fault at the current token is placed: a missing token after the one before. -/
def here (s : State) : Nat := if s.token = .finish then s.lastStop else s.start

/-- The place of a state can be reached from that of another one. -/
abbrev Reaches (s s' : State) : Prop := s.toPlace.Reaches s'.toPlace

theorem reaches_jump {s : State} {read after : List Char} (h : s.source = read ++ after) :
    s.Reaches (s.jump (s.start + width read) after) := .on h

/-- From behind the current token on. -/
theorem reaches_jump_after {s : State} {read after : List Char} (h : s.rest = read ++ after) :
    s.Reaches (s.jump (s.stop + width read) after) := by
  have hsource : s.source = (s.source.take s.length ++ read) ++ after := by
    rw [List.append_assoc, ← h]
    exact (List.take_append_drop ..).symm
  have hstop : s.stop + width read = s.start + width (s.source.take s.length ++ read) := by
    rw [width_append, ← Nat.add_assoc]
    rfl
  rw [hstop]
  exact reaches_jump hsource

theorem reaches_next (s : State) : s.Reaches s.next := .on (List.take_append_drop ..).symm

end State

/-- What becomes of a state: a parser has read on from it, or stopped with a fault. -/
abbrev Outcome (α : Type) := EStateM.Result Fault State α

/-- The state in which it ends. -/
def Outcome.state {α : Type} : Outcome α → State
  | .ok _ s | .error _ s => s

/-- A parser: it reads on from a state in a context, or stops with a fault. Either way it comes to a place
that can be reached from the one where it began. -/
structure Parse (α : Type) where
  run : Context → State → Outcome α
  reaches : ∀ (c : Context) (s : State), s.Reaches (Outcome.state (run c s))

namespace Parse

variable {α β : Type}

theorem reaches_of_ok {p : Parse α} {c : Context} {s s' : State} {a : α} (h : p.run c s = .ok a s') :
    s.Reaches s' := by
  have hreaches := p.reaches c s
  rwa [h] at hreaches

theorem reaches_of_error {p : Parse α} {c : Context} {s s' : State} {fault : Fault}
    (h : p.run c s = .error fault s') : s.Reaches s' := by
  have hreaches := p.reaches c s
  rwa [h] at hreaches

/-- Another parser reads on from where the parser stopped. -/
def orElse (p : Parse α) (otherwise : Fault → Parse α) : Parse α where
  run c s :=
    match p.run c s with
    | .ok a s' => .ok a s'
    | .error fault s' => (otherwise fault).run c s'
  reaches c s := by
    split
    · next h => exact reaches_of_ok h
    · next h => exact (reaches_of_error h).trans ((otherwise _).reaches c _)

instance : Monad Parse where
  pure a := { run := fun _ s => .ok a s, reaches := fun _ _ => .stay }
  bind p next := {
    run := fun c s =>
      match p.run c s with
      | .ok a s' => (next a).run c s'
      | .error fault s' => .error fault s'
    reaches := fun c s => by
      split
      · next h => exact (reaches_of_ok h).trans ((next _).reaches c _)
      · next h => exact reaches_of_error h }

instance : MonadReaderOf Context Parse where
  read := { run := fun c s => .ok c s, reaches := fun _ _ => .stay }

instance : MonadExceptOf Fault Parse where
  throw fault := { run := fun _ s => .error fault s, reaches := fun _ _ => .stay }
  tryCatch := orElse

/-- The state. -/
def get : Parse State where
  run _ s := .ok s s
  reaches _ _ := .stay

/-- Goes on to a state that can be reached. -/
def move (next : State → State) (h : ∀ s : State, s.Reaches (next s)) : Parse Unit where
  run _ s := .ok () (next s)
  reaches _ s := h s

def advance : Parse Unit := move State.next State.reaches_next

def addFault (fault : Fault) : Parse Unit :=
  move (fun s => { s with faults := fault :: s.faults }) fun _ => .stay

/-- Says whether the parameters of an arrow function may begin at the current token. -/
def allowArrow (allowed : Bool) : Parse Unit :=
  move (fun s => { s with arrowStart := if allowed then some s.start else none }) fun _ => .stay

/-- The faults of a token that cannot be used are noted when it is passed. -/
def passBad : Parse Unit := do
  if let .bad kind := (← get).token then
    advance
    addFault ⟨kind, (← get).start⟩

/-- Stops with a fault at an offset. -/
def failAt (kind : FaultKind) (offset : Nat) : Parse α := do
  unless (← read).quiet do passBad
  throw ⟨kind, offset⟩

/-- Stops with a fault at the current token. -/
def fail (kind : FaultKind) : Parse α := do failAt kind (← get).here

/-- Notes a fault and goes on. -/
def note (kind : FaultKind) (offset : Nat) : Parse Unit := do
  unless (← read).quiet do
    passBad
    addFault ⟨kind, offset⟩

/-- Stops if the current token cannot be used. -/
def failIfBad : Parse Unit := do
  let s ← get
  if let .bad kind := s.token then
    advance
    throw ⟨kind, s.start⟩

def within (f : Context → Context) (p : Parse α) : Parse α where
  run c s := p.run (f c) s
  reaches c s := p.reaches (f c) s

/-- Nothing is read if the parser stops; if it does not, the faults that it noted do not count. -/
def attempt (p : Parse α) : Parse (Option α) where
  run c s :=
    match p.run { c with quiet := true } s with
    | .ok a s' => .ok (some a) { s' with faults := s.faults }
    | .error _ _ => .ok none s
  reaches c s := by
    split
    · next a s' h =>
      have hreaches : s.Reaches s' := reaches_of_ok h
      exact hreaches
    · exact .stay

/-- What the parser finds, with nothing read. -/
def lookAhead (p : Parse Bool) : Parse Bool where
  run c s :=
    match p.run { c with quiet := true } s with
    | .ok found _ => .ok found s
    | .error _ _ => .ok false s
  reaches c s := by split <;> exact .stay

/-- A fault of the parser is noted, and reading goes on where it stopped. -/
def recover (p : Parse α) (default : α) : Parse α :=
  orElse p fun fault => do
    note fault.kind fault.offset
    return default

/-! ### Tokens -/

def token : Parse Token := return (← get).token

/-- The token after the current one, and whether a line break stands before it. -/
def following : Parse (Token × Bool) := do
  let s := (← get).next
  return (s.token, s.afterBreak)

def isMark (m : String) : Parse Bool := return (← token) = .mark m

def eatMark (m : String) : Parse Bool := do
  if ← isMark m then
    advance
    return true
  return false

def expectMark (m : String) : Parse Unit := do
  unless ← eatMark m do fail (.missing m (← token).describe)

def isWord (w : String) : Parse Bool := return (← token).isTheWord w

def eatWord (w : String) : Parse Bool := do
  if ← isWord w then
    advance
    return true
  return false

def expectWord (w : String) : Parse Unit := do
  unless ← eatWord w do fail (.missing w (← token).describe)

/-- The current token is a name. -/
def atName : Parse Bool := return (← read).isName (← token)

/-- A word of any kind. -/
def anyWord : Parse String := do
  match ← token with
  | .word w _ =>
    advance
    return w
  | _ => fail .nameExpected

/-- A name, a word that is reserved in other places included. Where types are part of the language,
`this` counts as one. -/
def name : Parse String := do
  let c ← read
  match ← token with
  | .word w escaped =>
    unless escaped do
      if w == "await" && !c.ambient then
        if c.inStaticBlock then fail .nameExpected
        if c.inAsync || c.module then fail (.misplaced w)
      if isReserved w && w != "enum" && !(w == "this" && c.types) then fail .nameExpected
    advance
    return w
  | _ => fail .nameExpected

/-- A name that is private to a class, or a word. -/
def memberName : Parse Unit := do
  let _ ← eatMark "#"
  discard anyWord

/-- The current token is an opening angle bracket, or a mark that begins with two. -/
def atOpenAngle : Parse Bool := do
  match ← token with
  | .mark "<" | .mark "<<" => return true
  | _ => return false

/-- Past the first character of the current token. -/
def splitToken : Parse Unit :=
  move
    (fun s =>
      match s.source with
      | [] => s
      | c :: rest => s.jump (s.start + c.utf8Size) rest)
    fun s => by
      split
      · exact .stay
      · next c rest h => exact State.reaches_jump (show s.source = [c] ++ rest from h)

/-- Past one closing angle bracket, also of a mark that begins with one. -/
def expectCloseAngle : Parse Unit := do
  match ← token with
  | .mark m => if m.startsWith ">" then splitToken else fail (.missing ">" m)
  | t => fail (.missing ">" t.describe)

def atCloseAngle : Parse Bool := do
  match ← token with
  | .mark m => return m.startsWith ">"
  | _ => return false

/-! ### Repetition -/

/-- Repeats a parser while it asks for more. -/
def repeatWhile (more : Parse Bool) : Nat → Parse Unit
  | 0 => fail .tooDeep
  | n + 1 => do
    if ← more then repeatWhile more n

/-- Repeats a parser while it asks for more. -/
def loop (more : Parse Bool) : Parse Unit := do repeatWhile more (← read).limit

/-- Repeats a parser on what it has found while it finds more. -/
def growUpTo (more : α → Parse (Option α)) : Nat → α → Parse α
  | 0, _ => fail .tooDeep
  | n + 1, a => do
    match ← more a with
    | none => return a
    | some a => growUpTo more n a

/-- Repeats a parser on what it has found while it finds more. -/
def grow (more : α → Parse (Option α)) (a : α) : Parse α := do growUpTo more (← read).limit a

/-- The results of a parser until it has none, up to a number of them. -/
def collectUpTo (item : Parse (Option α)) : Nat → Parse (List α)
  | 0 => fail .tooDeep
  | n + 1 => do
    match ← item with
    | none => return []
    | some a => return a :: (← collectUpTo item n)

/-- The results of a parser until it has none. -/
def collect (item : Parse (Option α)) : Parse (List α) := do collectUpTo item (← read).limit

/-- Repeats a parser up to a closing mark, which is read too; commas stand between. -/
def listed (item : Parse Unit) (closing : String) : Parse Unit := do
  loop do
    if ← isMark closing then return false
    item
    if ← isMark closing then return false
    expectMark ","
    return true
  expectMark closing

/-! ### Ends of statements -/

/-- A statement may end before the current token, or with it. -/
def atStatementEnd : Parse Bool := do
  let s ← get
  return s.afterBreak || s.token = .finish || s.token = .mark "\x7d" || s.token = .mark ";"

/-- The end of a statement, if it may end here. -/
def eatStatementEnd : Parse Bool := do
  if ← eatMark ";" then return true
  atStatementEnd

def expectStatementEnd : Parse Unit := do
  unless ← eatStatementEnd do fail (.missing ";" (← token).describe)

/-! ### Templates and regular expressions -/

/-- The text of a template up to its end or to a substitution. -/
structure TemplateRun where
  /-- A substitution follows. -/
  goesOn : Bool
  /-- All its escapes are ones. -/
  isSound : Bool
  /-- The offset after it. -/
  stop : Nat
  rest : List Char

/-- The text of a template from an offset on; `none` if it does not end. -/
def TemplateRun.read? (isSound : Bool) (offset : Nat) : List Char → Option TemplateRun
  | [] => none
  | '`' :: rest => some ⟨false, isSound, offset + 1, rest⟩
  | '\\' :: c :: rest =>
    TemplateRun.read? (isSound && (Escape.read? false (c :: rest)).isSome)
      (offset + 1 + c.utf8Size) rest
  | '$' :: '{' :: rest => some ⟨true, isSound, offset + 2, rest⟩
  | c :: rest => TemplateRun.read? isSound (offset + c.utf8Size) rest

/-- A part of a text has been read, up to where the run ends. -/
theorem TemplateRun.exists_read {isSound : Bool} {offset : Nat} {cs : List Char} {run : TemplateRun}
    (h : TemplateRun.read? isSound offset cs = some run) :
    ∃ read, cs = read ++ run.rest ∧ run.stop = offset + width read := by
  fun_induction TemplateRun.read? isSound offset cs with
  | case1 => cases h
  | case2 sound offset rest =>
    cases h
    exact ⟨['`'], rfl, rfl⟩
  | case3 sound offset c rest ih =>
    obtain ⟨read, hread, hstop⟩ := ih h
    exact ⟨'\\' :: c :: read, by simp only [List.cons_append, ← hread], by rw [hstop, Nat.add_assoc, Nat.add_assoc]; rfl⟩
  | case4 sound offset rest =>
    cases h
    exact ⟨['$', '{'], rfl, rfl⟩
  | case5 sound offset c rest _ _ _ ih =>
    obtain ⟨read, hread, hstop⟩ := ih h
    exact ⟨c :: read, by rw [List.cons_append, ← hread], by rw [hstop, width_cons, Nat.add_assoc]⟩

/-- Past the text of a template that begins after the current token, up to its end or to a substitution:
whether one follows. Behind a tag its escapes are free. -/
def templateText (tagged : Bool) : Parse Bool where
  run _ s :=
    match TemplateRun.read? true s.stop s.rest with
    | none => .error ⟨.unterminated "template", s.start⟩ s
    | some run =>
      if tagged || run.isSound then .ok run.goesOn (s.jump run.stop run.rest)
      else .error ⟨.invalidEscape, s.start⟩ s
  reaches _ s := by
    split
    · exact .stay
    · next hrun =>
      obtain ⟨read, hread, hstop⟩ := TemplateRun.exists_read hrun
      split
      · rw [hstop]
        exact State.reaches_jump_after hread
      · exact .stay

/-- A template whose first quote is the current token, with a parser for its substitutions. -/
def template (tagged : Bool) (substitution : Parse Unit) : Parse Unit := do
  loop do
    let goesOn ← templateText tagged
    if goesOn then
      substitution
      unless ← isMark "\x7d" do fail (.missing "\x7d" (← token).describe)
    return goesOn

/-- The text of a regular expression after its first slash, up to its last: whether it ends before the
line does, the offset after it, and what follows. -/
def regexText (inClass : Bool) (offset : Nat) : List Char → Bool × Nat × List Char
  | [] => (false, offset, [])
  | c :: rest =>
    if c = '\n' || c = '\r' then (false, offset, c :: rest)
    else if c = '\\' then
      match rest with
      | [] => (false, offset + 1, [])
      | d :: rest =>
        if d = '\n' || d = '\r' then (false, offset + 1, d :: rest)
        else regexText inClass (offset + 1 + d.utf8Size) rest
    else if c = '/' && !inClass then (true, offset + 1, rest)
    else regexText (if c = '[' then true else if c = ']' then false else inClass)
      (offset + c.utf8Size) rest

/-- A part of a text has been read, up to where the regular expression ends. -/
theorem exists_regexText (inClass : Bool) (offset : Nat) (cs : List Char) :
    ∃ read, cs = read ++ (regexText inClass offset cs).2.2 ∧
      (regexText inClass offset cs).2.1 = offset + width read := by
  fun_induction regexText inClass offset cs with
  | case1 => exact ⟨[], rfl, rfl⟩
  | case2 => exact ⟨[], rfl, rfl⟩
  | case3 => exact ⟨['\\'], rfl, rfl⟩
  | case4 => exact ⟨['\\'], rfl, rfl⟩
  | case5 _ _ d rest _ _ ih =>
    obtain ⟨read, hread, hstop⟩ := ih
    exact ⟨'\\' :: d :: read, by simp only [List.cons_append, ← hread], by rw [hstop, Nat.add_assoc, Nat.add_assoc]; rfl⟩
  | case6 _ _ c rest _ _ hslash =>
    obtain rfl : c = '/' := by simp_all
    exact ⟨['/'], rfl, rfl⟩
  | case7 _ _ c rest _ _ _ ih =>
    obtain ⟨read, hread, hstop⟩ := ih
    exact ⟨c :: read, by rw [List.cons_append, ← hread], by rw [hstop, width_cons, Nat.add_assoc]⟩

/-- Past a regular expression whose first slash begins the current token, as far as it goes: whether it
ends. -/
def regexRun : Parse Bool where
  run _ s :=
    match s.source with
    | [] => .ok false s
    | slash :: source =>
      let (isClosed, offset, rest) := regexText false (s.start + slash.utf8Size) source
      if isClosed then
        let flags := rest.takeWhile continuesIdentifier
        .ok true (s.jump (offset + width flags) (rest.drop flags.length))
      else .ok false (s.jump offset rest)
  reaches _ s := by
    split
    · exact .stay
    · next slash source hsource =>
      obtain ⟨read, hread, hstop⟩ := exists_regexText false (s.start + slash.utf8Size) source
      rcases hrun : regexText false (s.start + slash.utf8Size) source with ⟨isClosed, offset, rest⟩
      rw [hrun] at hread hstop
      have hoffset : offset = s.start + width (slash :: read) := by
        rw [width_cons, ← Nat.add_assoc]
        exact hstop
      have hsplit : s.source = (slash :: read) ++ rest := by rw [hsource, hread, List.cons_append]
      dsimp only
      split
      · have hflags : s.source = (slash :: read ++ rest.takeWhile continuesIdentifier)
            ++ rest.drop (rest.takeWhile continuesIdentifier).length := by
          rw [hsplit, List.append_assoc]
          exact congrArg _ (List.prefix_iff_eq_append.1 (List.takeWhile_prefix _)).symm
        rw [hoffset, Nat.add_assoc, ← width_append]
        exact State.reaches_jump hflags
      · rw [hoffset]
        exact State.reaches_jump hsplit

/-- A regular expression whose first slash begins the current token. -/
def regex : Parse Unit := do
  let s ← get
  unless ← regexRun do
    note (.unterminated "regexp literal") s.start
    throw ⟨.expressionExpected, s.start⟩

end Parse

/-- The constructs that contain each other. -/
inductive Goal where
  | assignment
  /-- Operands joined by operators that bind tighter than a level. -/
  | operand (level : Nat)
  | unary
  /-- An operand with its properties and calls. -/
  | call
  /-- What `new` is applied to. -/
  | constructed
  | type
  /-- A type with the words in front of it that work on types. -/
  | prefixedType
  | binding
  /-- A statement in a list of them. -/
  | statement
  /-- A statement that is a part of another one. -/
  | substatement
  /-- An item of a module. -/
  | item
  deriving DecidableEq

/-- A parser for every construct. -/
abbrev Grammar := Goal → Parse Term

end Restyle.Script
