/-! Glob patterns. A star stands for any text, slashes included; two stars as a whole segment stand for
any segments; square brackets hold a class of characters, braces alternatives, and a backslash takes
the next character as it is. -/

namespace Restyle

inductive GlobToken where
  | literal (c : Char)
  | any
  | star
  /-- Two stars at the beginning: any directories, or none. -/
  | directories
  /-- Two stars at the end: anything below. -/
  | descendants
  /-- Two stars between slashes: a slash, with any directories in between. -/
  | between
  | charClass (negated : Bool) (ranges : List (Char × Char))
  | alternatives (branches : List (List GlobToken))
  deriving Inhabited

inductive GlobFault where
  | unclosedClass
  | invertedRange (first last : Char)
  | unopenedGroup
  | unclosedGroup
  | danglingEscape
  deriving Repr, DecidableEq

def GlobFault.message : GlobFault → String
  | unclosedClass => "unclosed character class; missing ']'"
  | invertedRange first last => s!"invalid range; '{first}' > '{last}'"
  | unopenedGroup =>
    "unopened alternate group; missing '\x7b' (maybe escape '\x7d' with '[\x7d]'?)"
  | unclosedGroup =>
    "unclosed alternate group; missing '\x7d' (maybe escape '\x7b' with '[\x7b]'?)"
  | danglingEscape => "dangling '\\'"

/-! ### Classes -/

/-- Widens the last range of a class up to a character. -/
def widenLast (c : Char) : List (Char × Char) → Except GlobFault (List (Char × Char))
  | [] => .ok [(c, c)]
  | (first, _) :: ranges => if c < first then .error (.invertedRange first c) else .ok ((first, c) :: ranges)

/-- A class after its bracket and its negation, the ranges latest first. At the head a closing bracket
and a hyphen stand for themselves, and so does a hyphen at the end. -/
def readClass (atHead inRange : Bool) (ranges : List (Char × Char)) :
    List Char → Except GlobFault (List (Char × Char) × List Char)
  | [] => .error .unclosedClass
  | c :: cs =>
    if c = ']' && !atHead then .ok ((if inRange then ('-', '-') :: ranges else ranges).reverse, cs)
    else if c = '-' && !atHead && !inRange then readClass false true ranges cs
    else if inRange then do readClass false false (← widenLast c ranges) cs
    else readClass false false ((c, c) :: ranges) cs

/-! ### Patterns -/

/-- The group that is being read: its finished branches and the tokens of the open one, both latest
first. -/
structure GlobGroup where
  branches : List (List GlobToken) := []
  tokens : List GlobToken := []
  deriving Inhabited

structure GlobReader where
  /-- The character before. -/
  previous : Option Char := none
  group : GlobGroup := {}
  /-- The groups around it, inmost first. -/
  outer : List GlobGroup := []

namespace GlobReader

def push (r : GlobReader) (token : GlobToken) : GlobReader :=
  { r with group := { r.group with tokens := token :: r.group.tokens } }

def openGroup (r : GlobReader) : GlobReader := { r with group := {}, outer := r.group :: r.outer }

def nextBranch (r : GlobReader) : GlobReader :=
  { r with group := ⟨r.group.tokens.reverse :: r.group.branches, []⟩ }

def closeGroup (r : GlobReader) : Except GlobFault GlobReader :=
  match r.outer with
  | [] => .error .unopenedGroup
  | group :: outer =>
    let branches := (r.nextBranch).group.branches.reverse
    .ok ({ r with group, outer }.push (.alternatives branches))

/-- Two stars, by what stands before and after them; what follows is given without the slash that they
take with them. -/
def doubleStar (r : GlobReader) (cs : List Char) : GlobReader × List Char :=
  let seen (r : GlobReader) (cs : List Char) (last : Char) := ({ r with previous := some last }, cs)
  let plain := seen ((r.push .star).push .star) cs '*'
  match r.group.tokens with
  | [] =>
    match cs with
    | [] => seen (r.push .directories) [] '*'
    | '/' :: rest => seen (r.push .directories) rest '/'
    | _ => plain
  | before :: tokens =>
    if r.previous ≠ some '/' && (r.outer.isEmpty || (r.previous ≠ some ',' && r.previous ≠ some '\x7b')) then
      plain
    else
      let replace (token : GlobToken) : GlobReader :=
        { r with group := { r.group with tokens := match before with
          | .directories => .directories :: tokens
          | .descendants => .descendants :: tokens
          | _ => token :: tokens } }
      match cs with
      | [] => seen (replace .descendants) [] '*'
      | '/' :: rest => seen (replace .between) rest '/'
      | c :: _ =>
        if (c = ',' || c = '}') && !r.outer.isEmpty then seen (replace .descendants) cs '*' else plain

/-- Reads a pattern. Every step takes a character. -/
def read : Nat → GlobReader → List Char → Except GlobFault GlobReader
  | 0, r, _ | _, r, [] => .ok r
  | n + 1, r, c :: cs =>
    let one (r : GlobReader) := read n { r with previous := some c } cs
    match c with
    | '?' => one (r.push .any)
    | '*' =>
      match cs with
      | '*' :: rest =>
        let (r, rest) := doubleStar r rest
        read n r rest
      | _ => one (r.push .star)
    | '[' => do
      let (negated, body) := match cs with
        | '!' :: rest | '^' :: rest => (true, rest)
        | rest => (false, rest)
      let (ranges, rest) ← readClass true false [] body
      read n { r.push (.charClass negated ranges) with previous := some ']' } rest
    | '{' => one r.openGroup
    | '}' => do one (← r.closeGroup)
    | ',' => one (if r.outer.isEmpty then r.push (.literal ',') else r.nextBranch)
    | '\\' =>
      match cs with
      | [] => .error .danglingEscape
      | d :: rest => read n { r.push (.literal d) with previous := some d } rest
    | c => one (r.push (.literal c))

end GlobReader

structure Glob where
  tokens : List GlobToken
  deriving Inhabited

namespace Glob

def ofText? (pattern : String) : Except GlobFault Glob := do
  let cs := pattern.toList
  let r ← GlobReader.read (cs.length + 1) {} cs
  if r.outer.isEmpty then .ok ⟨r.group.tokens.reverse⟩ else .error .unclosedGroup

end Glob

end Restyle
