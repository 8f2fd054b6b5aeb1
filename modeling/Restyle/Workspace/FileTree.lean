import Restyle.Workspace.Path

/-! A tree of files. A node is found by the names that lead to it from the root. A path is followed
segment by segment: each segment but the first starts from a directory. -/

namespace Restyle

/-- The names from the root to a node. -/
abbrev NodePlace := List String

/-- Where a step leads from a place. -/
def PathStep.reach (place : NodePlace) : PathStep → NodePlace
  | up => place.dropLast
  | name n => place ++ [n]

@[simp] theorem PathStep.reach_up (place : NodePlace) : up.reach place = place.dropLast := rfl

@[simp] theorem PathStep.reach_name (place : NodePlace) (n : String) :
    (name n).reach place = place ++ [n] := rfl

/-- The place that a path spells. -/
def Path.place (p : Path) : NodePlace := p.steps.foldl PathStep.reach []

inductive FileNode where
  | directory
  | file (content : ByteArray)
  deriving Inhabited

/-- Why a file cannot be read or written. -/
inductive FileError where
  | notFound | alreadyExists | notDirectory | isDirectory | nameTooLong | nulInName | notText
  deriving Repr, DecidableEq

def FileError.message : FileError → String
  | notFound => "No such file or directory (os error 2)"
  | alreadyExists => "File exists (os error 17)"
  | notDirectory => "Not a directory (os error 20)"
  | isDirectory => "Is a directory (os error 21)"
  | nameTooLong => "File name too long (os error 36)"
  | nulInName => "file name contained an unexpected NUL byte"
  | notText => "stream did not contain valid UTF-8"

/-- The most bytes of a name in a directory. -/
def longestName : Nat := 255

/-- The most bytes of a path. -/
def longestPath : Nat := 4095

namespace Path

/-- A name that no directory can hold. -/
def isOverlong (segment : String) : Bool := longestName < segment.utf8ByteSize

/-- Why a path is no path in any tree. -/
def fault? (p : Path) : Option FileError :=
  if p.text.toList.contains '\x00' then some .nulInName
  else if longestPath < p.text.utf8ByteSize then some .nameTooLong
  else none

/-- Segments without the empty ones at the end. -/
def dropSlashes (segments : List String) : List String :=
  (segments.reverse.dropWhile (· = "")).reverse

end Path

/-- The nodes below the root, each at one place. -/
structure FileTree where
  nodes : List (NodePlace × FileNode) := []
  deriving Inhabited

namespace FileTree

def node? (t : FileTree) (place : NodePlace) : Option FileNode :=
  if place.isEmpty then some .directory else t.nodes.lookup place

/-- The tree with a node at a place. -/
def put (t : FileTree) (place : NodePlace) (node : FileNode) : FileTree :=
  ⟨t.nodes.filter (·.1 ≠ place) ++ [(place, node)]⟩

theorem lookup_filter_ne {place other : NodePlace} (h : other ≠ place)
    (nodes : List (NodePlace × FileNode)) :
    (nodes.filter (·.1 ≠ place)).lookup other = nodes.lookup other := by
  induction nodes with
  | nil => rfl
  | cons entry rest ih =>
    obtain ⟨key, node⟩ := entry
    by_cases hk : key = place
    · subst hk
      rw [List.filter_cons_of_neg (by simp), ih, List.lookup_cons, beq_eq_false_iff_ne.2 h]
    · rw [List.filter_cons_of_pos (by simp [hk]), List.lookup_cons, List.lookup_cons, ih]

theorem lookup_filter_self (place : NodePlace) (nodes : List (NodePlace × FileNode)) :
    (nodes.filter (·.1 ≠ place)).lookup place = none := by
  rw [List.lookup_eq_none_iff]
  intro entry h
  exact bne_iff_ne.2 (of_decide_eq_true (List.mem_filter.1 h).2).symm

theorem lookup_append_singleton (nodes : List (NodePlace × FileNode)) (place other : NodePlace)
    (node : FileNode) :
    (nodes ++ [(place, node)]).lookup other
      = (nodes.lookup other).or (if other = place then some node else none) := by
  induction nodes with
  | nil =>
    rw [List.nil_append, List.lookup_cons, List.lookup_nil, Option.none_or]
    by_cases h : other = place
    · rw [if_pos h, beq_iff_eq.2 h]
    · rw [if_neg h, beq_eq_false_iff_ne.2 h]
  | cons entry rest ih =>
    obtain ⟨key, value⟩ := entry
    rw [List.cons_append, List.lookup_cons, List.lookup_cons, ih]
    cases other == key <;> rfl

/-- A tree has the node that was put at a place below the root, and its other nodes as before. -/
theorem node?_put (t : FileTree) {place : NodePlace} (h : place ≠ []) (node : FileNode)
    (other : NodePlace) :
    (t.put place node).node? other = if other = place then some node else t.node? other := by
  by_cases ho : other = []
  · subst ho
    simp [node?, Ne.symm h]
  · simp only [node?, put, List.isEmpty_iff, ho, if_false, lookup_append_singleton]
    by_cases he : other = place
    · subst he
      rw [lookup_filter_self]
      simp
    · rw [lookup_filter_ne he]
      simp [he]

/-- The node to which segments lead from a place. -/
def follow (t : FileTree) (place : NodePlace) : List String → Except FileError NodePlace
  | [] => .ok place
  | segment :: rest =>
    match t.node? place with
    | none => .error .notFound
    | some (.file _) => .error .notDirectory
    | some .directory =>
      if Path.isIdle segment then t.follow place rest
      else if segment = ".." then t.follow place.dropLast rest
      else if Path.isOverlong segment then .error .nameTooLong
      else
        let child := place ++ [segment]
        if (t.node? child).isNone then .error .notFound else t.follow child rest

def locate (t : FileTree) (p : Path) : Except FileError NodePlace :=
  match p.fault? with
  | some fault => .error fault
  | none => t.follow [] p.segments

/-- The node at a path. -/
def find? (t : FileTree) (p : Path) : Option FileNode :=
  match t.locate p with
  | .ok place => t.node? place
  | .error _ => none

def exists? (t : FileTree) (p : Path) : Bool := (t.find? p).isSome

def isFile (t : FileTree) (p : Path) : Bool := t.find? p matches some (.file _)

/-- The text of a file. -/
def read (t : FileTree) (p : Path) : Except FileError String := do
  match t.node? (← t.locate p) with
  | some (.file content) =>
    match String.fromUTF8? content with
    | some text => .ok text
    | none => .error .notText
  | some .directory => .error .isDirectory
  | none => .error .notFound

/-- The content of the file at a place. -/
def content? (t : FileTree) (place : NodePlace) : Option ByteArray :=
  match t.node? place with
  | some (.file content) => some content
  | _ => none

/-- The files that another tree does not have with the same content. -/
def changedFrom (t before : FileTree) : List (NodePlace × ByteArray) :=
  t.nodes.filterMap fun (place, node) =>
    match node with
    | .file content =>
      if (before.content? place).any (·.data == content.data) then none else some (place, content)
    | .directory => none

/-- What is left of a place below another one. -/
def placeBelow? : NodePlace → NodePlace → Option NodePlace
  | [], place => some place
  | a :: as, b :: bs => if a = b then placeBelow? as bs else none
  | _ :: _, [] => none

/-- The files at and below a path. -/
def filesBelow (t : FileTree) (p : Path) : List Path :=
  match t.locate p with
  | .error _ => []
  | .ok place => t.nodes.filterMap fun (at_, node) =>
    match node, placeBelow? place at_ with
    | .file _, some (n :: ns) => some (p.join (Path.ofSegments (n :: ns)))
    | _, _ => none

end FileTree

/-- A change of a file tree. What was done before a failure stays. -/
abbrev Filing (α : Type) := ExceptT FileError (StateM FileTree) α

namespace Filing

/-- Makes the directories to which segments lead. A file in the way is in the place of the directory
itself, or of one above it. -/
def makeDirectories (place : NodePlace) (made : Bool) : List String → Filing Unit
  | [] => pure ()
  | segment :: rest => do
    if Path.isIdle segment then makeDirectories place made rest
    else if segment = ".." then makeDirectories place.dropLast made rest
    else if Path.isOverlong segment then throw .nameTooLong
    else
      let child := place ++ [segment]
      match (← get).node? child with
      | some .directory => makeDirectories child made rest
      | some (.file _) => throw (if made || rest.isEmpty then .alreadyExists else .notDirectory)
      | none =>
        modify (·.put child .directory)
        makeDirectories child true rest

/-- Writes a text as the content of a file in a directory that exists. What a slash follows is no file,
whether it is there or not. -/
def write (p : Path) (text : String) : Filing Unit := do
  if let some fault := p.fault? then throw fault
  let t ← get
  let segments := p.segments
  let place ← t.follow [] (Path.dropSlashes segments).dropLast
  match t.node? place with
  | some (.file _) => throw .notDirectory
  | none => throw .notFound
  | some .directory =>
    let name := segments.getLast?.getD ""
    if Path.isIdle name || name = ".." then throw .isDirectory
    if Path.isOverlong name then throw .nameTooLong
    match t.node? (place ++ [name]) with
    | some .directory => throw .isDirectory
    | _ => set (t.put (place ++ [name]) (.file text.toUTF8))

/-- Writes a text as the content of a file, in directories that are made where they are missing. -/
def writeDeep (p : Path) (text : String) : Filing Unit := do
  if let some parent := p.parent? then
    if let some fault := parent.fault? then throw fault
    makeDirectories [] false parent.segments
  write p text

end Filing

end Restyle
