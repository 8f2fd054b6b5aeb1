import Restyle.Source.File
import Restyle.Source.Splice
import Restyle.Script.Fault
import Restyle.Markup.Fault
import Restyle.Expansion.Journal

/-! What an expansion of one file gives: a result or an error, and on the way remarks for the journal.
The result depends on the file alone; what becomes of the remarks depends on the journal. Where the
program stops, the caller may go on with the next file: the remarks that were made stay. -/

namespace Restyle

/-- Why a file could not be expanded. -/
inductive ExpansionError where
  /-- The markup is faulty: the first fault, and how many more there are. -/
  | markup (file : String) (location : Location) (fault : Markup.FaultKind) (more : Nat)
  /-- The value of an attribute is no expression. -/
  | expression (file : String) (location : Location) (attr : String) (fault : Script.FaultKind)
  | splice (error : SpliceError)
  /-- The program stops where it is: it takes the text of a span that is not in the file or has an end inside a
  character. -/
  | trap (span : Span)
  deriving Repr, DecidableEq

namespace ExpansionError

def moreErrors : Nat → String
  | 0 => ""
  | 1 => " (and 1 more error)"
  | n => s!" (and {n} more errors)"

def message : ExpansionError → String
  | markup file location fault more =>
    s!"{file}:{location.render}: " ++ fault.message ++ moreErrors more
  | expression file location attr fault =>
    s!"{file}:{location.render}: invalid expression in `{attr}`: " ++ fault.message
  | splice error => "conflicting edits: " ++ error.message
  | trap span => s!"no text at {span.start}..{span.stop}"

end ExpansionError

/-- Something to be said about a file. -/
inductive Remark where
  /-- An occasion for an advisory. -/
  | advice (notice : Notice) (attr : String) (location : Location)
  | debug (text : String)
  deriving Repr, DecidableEq

/-- Puts a remark about a file into the journal. -/
def Journal.record (j : Journal) (file : SourceFile) : Remark → Journal
  | .advice notice attr location => j.raise notice attr file.name location
  | .debug text => j.debug text

def Journal.recordAll (j : Journal) (file : SourceFile) (remarks : List Remark) : Journal :=
  remarks.foldl (fun j r => j.record file r) j

@[simp] theorem Journal.recordAll_nil (j : Journal) (file : SourceFile) :
    j.recordAll file [] = j := rfl

@[simp] theorem Journal.recordAll_cons (j : Journal) (file : SourceFile) (r : Remark)
    (rs : List Remark) : j.recordAll file (r :: rs) = (j.record file r).recordAll file rs := rfl

theorem Journal.recordAll_append (j : Journal) (file : SourceFile) (rs ss : List Remark) :
    j.recordAll file (rs ++ ss) = (j.recordAll file rs).recordAll file ss := List.foldl_append

/-- A computation that makes remarks and may fail. The remarks made before a failure stay. -/
abbrev Remarking (α : Type) := ExceptT ExpansionError (StateM (List Remark)) α

namespace Remarking

variable {α : Type}

def remark (r : Remark) : Remarking Unit := modify fun rs => r :: rs

/-- The result, and the remarks in the order in which they were made. -/
def outcome (p : Remarking α) : Except ExpansionError α × List Remark :=
  let (result, remarks) := p.run []
  (result, remarks.reverse)

end Remarking

end Restyle
