import Restyle.Source.File

/-! The journal of a session: the log, and which advisories have been given. An advisory is logged at
its first occasion and never again in the same session. -/

namespace Restyle

/-- Advisories about experimental attributes. -/
inductive Notice where
  /-- An attribute with an inline style definition. -/
  | inlineCreate
  /-- An attribute with the position of a definition. -/
  | createPosition
  deriving Repr, DecidableEq

inductive LogLevel where
  | warn | debug
  deriving Repr, DecidableEq

structure LogEntry where
  level : LogLevel
  text : String
  deriving Repr, DecidableEq

def LogEntry.render (e : LogEntry) : String :=
  match e.level with
  | .warn => "WARN " ++ e.text
  | .debug => "DEBUG " ++ e.text

namespace Notice

def message (attr : String) : Notice → String
  | inlineCreate =>
    "[svelte-stylex] `" ++ attr ++ "` is experimental: inline styles are hoisted into a module-level create() call and may change in a future release."
  | createPosition =>
    "[svelte-stylex] `" ++ attr ++ "` is experimental and may change in a future release."

/-- The advisory with the place that occasioned it on a line of its own. -/
def format (n : Notice) (attr : String) (filename : Option String) (location : Location) :
    String :=
  n.message attr ++ " \n\tat " ++ filename.getD SourceFile.anonymous ++ ":" ++ location.render

end Notice

/-- What a session has logged and which advisories it has given. -/
structure Journal where
  inlineCreateRaised : Bool := false
  createPositionRaised : Bool := false
  /-- Newest first. -/
  entries : List LogEntry := []
  deriving Repr, DecidableEq

namespace Journal

instance : Inhabited Journal := ⟨{}⟩

def raised (j : Journal) : Notice → Bool
  | .inlineCreate => j.inlineCreateRaised
  | .createPosition => j.createPositionRaised

def log (j : Journal) (level : LogLevel) (text : String) : Journal :=
  { j with entries := ⟨level, text⟩ :: j.entries }

def debug (j : Journal) (text : String) : Journal := j.log .debug text

/-- Marks an advisory as given. -/
def mark (j : Journal) : Notice → Journal
  | .inlineCreate => { j with inlineCreateRaised := true }
  | .createPosition => { j with createPositionRaised := true }

/-- Gives an advisory unless the session has given it before. -/
def raise (j : Journal) (n : Notice) (attr : String) (filename : Option String)
    (location : Location) : Journal :=
  if j.raised n then j
  else (j.mark n).log .warn (n.format attr filename location)

/-- The log, oldest first. -/
def history (j : Journal) : List LogEntry := j.entries.reverse

@[simp] theorem raised_mark (j : Journal) (n m : Notice) :
    (j.mark n).raised m = (j.raised m || decide (n = m)) := by
  cases n <;> cases m <;> simp [mark, raised]

@[simp] theorem raised_log (j : Journal) (l : LogLevel) (t : String) (m : Notice) :
    (j.log l t).raised m = j.raised m := by
  cases m <;> rfl

/-- An advisory is given once it is raised, and raising one leaves the other. -/
theorem raised_raise (j : Journal) (n m : Notice) (a : String) (f : Option String) (l : Location) :
    (j.raise n a f l).raised m = (j.raised m || decide (n = m)) := by
  unfold raise
  split
  · next h => cases n <;> cases m <;> simp_all
  · simp

end Journal

end Restyle
