import Restyle.Json.Writer

/-! Reports of a run: what happened to each file, the counts over all files, and both forms in which
they are shown. -/

namespace Restyle

inductive FileStatus where
  | expanded | unchanged | failed
  deriving Repr, DecidableEq

def FileStatus.name : FileStatus → String
  | expanded => "rewritten"
  | unchanged => "unchanged"
  | failed => "error"

/-- What happened to one file. -/
structure FileReport where
  filename : String
  status : FileStatus
  /-- Where the expanded code was written. -/
  writtenTo : Option String := none
  /-- The expanded code, when it is shown and not written. -/
  code : Option String := none
  message : Option String := none
  deriving Repr, DecidableEq

/-- Counts over the files of a run. -/
structure RunSummary where
  files : Nat
  expanded : Nat
  unchanged : Nat
  failed : Nat
  deriving Repr, DecidableEq

namespace RunSummary

def ofReports (reports : List FileReport) : RunSummary where
  files := reports.length
  expanded := reports.countP (·.status = .expanded)
  unchanged := reports.countP (·.status = .unchanged)
  failed := reports.countP (·.status = .failed)

/-- A count with its noun in the right number. -/
def counted (n : Nat) (noun : String) : String :=
  if n = 1 then s!"{n} {noun}" else s!"{n} {noun}s"

def render (s : RunSummary) : String :=
  "====================================\nsvelte-stylex rewrote " ++ counted s.expanded "file"
    ++ s!" ({s.unchanged} unchanged) with " ++ counted s.failed "error" ++ " in "
    ++ counted s.files "file"

def json (s : RunSummary) (indent : Nat) : String :=
  Json.indented "\x7b" "\x7d" indent [
    s!"\"error_count\": {s.failed}",
    s!"\"file_count\": {s.files}",
    s!"\"rewritten_count\": {s.expanded}",
    s!"\"unchanged_count\": {s.unchanged}"]

end RunSummary

namespace FileReport

/-- Expanded files are named with their target, failed ones with the reason. -/
def human (r : FileReport) : String :=
  match r.status with
  | .expanded => match r.writtenTo with
    | some target => r.filename ++ " -> " ++ target ++ "\n"
    | none => r.filename ++ "\n"
  | .failed => r.filename ++ "\nError: " ++ r.message.getD "unknown error" ++ "\n\n"
  | .unchanged => ""

/-- Members in the order of their names; absent ones are left out. -/
def json (r : FileReport) (indent : Nat) : String :=
  let member (name : String) (value : Option String) : List String :=
    value.toList.map fun v => Json.quote name ++ ": " ++ Json.quote v
  Json.indented "\x7b" "\x7d" indent
    (member "code" r.code ++ member "filename" (some r.filename) ++ member "message" r.message
      ++ member "status" (some r.status.name) ++ member "written_to" r.writtenTo)

end FileReport

/-- How reports are shown. -/
inductive ReportFormat where
  | human | json
  deriving Repr, DecidableEq

/-- The reports of a run and its summary. -/
def ReportFormat.render (reports : List FileReport) (summary : RunSummary) : ReportFormat → String
  | human => String.join (reports.map FileReport.human) ++ summary.render
  | json =>
    let files := Json.indented "[" "]" 2 (reports.map (·.json 4))
    Json.indented "\x7b" "\x7d" 0 ["\"files\": " ++ files, "\"summary\": " ++ summary.json 2]

end Restyle
