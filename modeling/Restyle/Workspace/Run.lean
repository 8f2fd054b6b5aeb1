import Restyle.Expansion.Expanded
import Restyle.Source.MapFile
import Restyle.Workspace.Selection

/-! Runs over a workspace: each selected file is read, expanded and written to its destination; then
the reports are shown. While watching, only the first pass is part of the run. -/

namespace Restyle

namespace FileReport

def unchanged (filename : String) : FileReport := { filename, status := .unchanged }

def failed (filename message : String) : FileReport :=
  { filename, status := .failed, message := some message }

end FileReport

namespace Workspace

/-- Where the code of a file is written; `none` if it is only shown. -/
def outputPath? (w : Workspace) (p : Path) : Option Path :=
  match w.destination with
  | .standardOutput => none
  | .inPlace => some p
  | .directory dir => some (dir.join ((p.below? w.root).getD ⟨p.fileName?.getD ""⟩))

/-- The source map of a file written to a path. -/
def mapPath (p : Path) : Path := ⟨p.text ++ ".map"⟩

/-- Writes the code of a file, and its source map if one is wanted. -/
def writeOutput (w : Workspace) (f : SourceFile) (r : Expanded) (target : Path) : Filing Unit := do
  Filing.writeDeep target r.code
  if w.sourceMaps then
    Filing.write (mapPath target) (MapFile.ofMap r.map f.text r.code f.shownName).render

section Reading

variable [Script.ExpressionReader]

/-- Processes a file; `none` if the program stops at it. -/
def process (w : Workspace) (p : Path) : StateM FileTree (Option FileReport) := do
  let filename := w.shownName p
  match (← get).read p with
  | .error e => return some (.failed filename ("failed to read file: " ++ e.message))
  | .ok text =>
    let f : SourceFile := ⟨some filename, text⟩
    match (expand w.options f).1 with
    | .error (.trap _) => return none
    | .error e => return some (.failed filename e.message)
    | .ok none => return some (.unchanged filename)
    | .ok (some r) =>
      match w.outputPath? p with
      | none => return some { filename, status := .expanded, code := some r.code }
      | some target =>
        match ← (w.writeOutput f r target).run with
        | .error e => return some (.failed filename ("failed to write output: " ++ e.message))
        | .ok () => return some { filename, status := .expanded, writtenTo := some (w.shownName target) }

/-- Processes files. They are processed side by side, so one at which the program stops need not keep it from the
others. -/
def processAll (w : Workspace) (paths : List Path) : StateM FileTree (List (Option FileReport)) :=
  paths.mapM w.process

end Reading

end Workspace

/-! ### Output -/

/-- What a run shows on its two channels. -/
structure Screen where
  output : String := ""
  errors : String := ""
  deriving Repr, DecidableEq

/-- Shows reports. Code that is shown has the output to itself, with the names of the files among the
errors if there are several. -/
def showReports (s : Screen) (a : Arguments) (reports : List FileReport) : Screen :=
  let text := a.format.render reports (RunSummary.ofReports reports) ++ "\n"
  match a.format, a.destination with
  | .human, .standardOutput =>
    let shown := reports.filter (·.code.isSome)
    let titles := if 1 < reports.length then shown.map fun r => s!"=== {r.filename} ===\n" else []
    { output := s.output ++ String.join (shown.map fun r => r.code.getD "")
      errors := s.errors ++ String.join titles ++ text }
  | _, _ => { s with output := s.output ++ text }

inductive RunResult where
  | finished (summary : RunSummary)
  /-- The first pass is over, and the workspace is being watched. -/
  | watching
  | failed (error : RunError)
  /-- The program stopped at a file, so no report is shown. -/
  | stopped
  deriving Repr, DecidableEq

/-- A run: its result, what it shows, and the file tree after it. -/
structure Run where
  result : RunResult
  screen : Screen
  tree : FileTree

namespace Run

/-- A workspace can be watched if it is there. -/
def watchError? (t : FileTree) (root : Path) : Option RunError :=
  match t.locate root with
  | .ok _ => none
  | .error .notFound => some (.watch "No path was found.")
  | .error e => some (.watch e.message)

/-- What a run shows before its first file. -/
def greeting (a : Arguments) : Screen := if a.has .watch then { output := "Starting watch mode...\n\n" } else {}

/-- The run for arguments that are given in a directory. -/
def ofArguments [Script.ExpressionReader] [PatternReader] (t : FileTree) (here : Path) (a : Arguments) : Run :=
  match Workspace.ofArguments t here a with
  | .error e => ⟨.failed e, {}, t⟩
  | .ok w =>
    let (reports, t) := (w.processAll (w.files t)).run t
    match reports.mapM id with
    | none => ⟨.stopped, greeting a, t⟩
    | some reports =>
      let screen := showReports (greeting a) a reports
      if a.has .watch then
        match watchError? t w.root with
        | some e => ⟨.failed e, screen, t⟩
        | none =>
          let invitation := "Watching for changes... (Ctrl+C to stop)\n\n"
          ⟨.watching, { screen with output := screen.output ++ invitation }, t⟩
      else ⟨.finished (RunSummary.ofReports reports), screen, t⟩

end Run

end Restyle
