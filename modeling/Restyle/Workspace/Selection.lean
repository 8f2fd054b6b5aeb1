import Restyle.CommandLine.Arguments
import Restyle.Glob.Match
import Restyle.Workspace.Settings

/-! The files of a run: which files of a workspace are processed, and in which order. A file that is
named is always processed. Below a directory a file is processed if its name has one of the
extensions, if it is not in the directory that the output goes to, and if no pattern excludes it. -/

namespace Restyle

/-- A reader of glob patterns: what a pattern matches, or the fault in it. -/
class PatternReader where
  read : String → Except GlobFault (String → Bool)

instance globPatterns : PatternReader := ⟨fun pattern => (Glob.ofText? pattern).map Glob.isMatch⟩

/-- A workspace as the arguments and its own settings describe it. -/
structure Workspace where
  root : Path
  /-- The files and directories to process. -/
  targets : List Path
  options : Options
  destination : Destination
  sourceMaps : Bool
  /-- The ends of the names of files to process. -/
  extensions : List String
  /-- The patterns of files to leave out, each as what it matches. -/
  ignored : List (String → Bool)

/-- Why a run cannot begin or go on. -/
inductive RunError where
  | pattern (text : String) (fault : GlobFault)
  | settings (error : SettingsError)
  | options (invalid : InvalidOption)
  | watch (reason : String)
  deriving Repr, DecidableEq

def RunError.message : RunError → String
  | pattern text fault =>
    "invalid glob pattern: error parsing glob '" ++ text ++ "': " ++ fault.message
  | settings error => error.message
  | options invalid => "invalid options: " ++ invalid.message
  | watch reason => "watch error: " ++ reason

namespace Workspace

/-- The patterns that exclude files from every run. -/
def alwaysIgnored : List String := ["**/node_modules/**", "**/dist/**", "**/.svelte-kit/**"]

def readGlob [PatternReader] (text : String) : Except RunError (String → Bool) :=
  match PatternReader.read text with
  | .ok g => .ok g
  | .error fault => .error (.pattern text fault)

/-- The workspace for arguments that are given in a directory. -/
def ofArguments [PatternReader] (t : FileTree) (here : Path) (a : Arguments) : Except RunError Workspace := do
  let root := a.workspace.absolute here
  let options ← match Options.load t root a.config with
    | .ok o => .ok (a.override o)
    | .error e => .error (.settings e)
  if let some invalid := options.invalid? then .error (.options invalid)
  let ignored ← (a.ignored ++ alwaysIgnored).mapM readGlob
  .ok {
    root, options, ignored
    targets := if a.paths.isEmpty then [root] else a.paths.map root.join
    destination := match a.destination with
      | .directory dir => .directory (dir.absolute here)
      | other => other
    sourceMaps := a.has .sourceMap
    extensions := (ProjectConfig.load t root).extensions }

/-- The name under which a file is shown: its path in the workspace. -/
def shownName (w : Workspace) (p : Path) : String := (p.below? w.root).getD p |>.text

/-- A file found below a directory is to be processed. -/
def accepts (w : Workspace) (p : Path) : Bool :=
  let name := p.fileName?.getD ""
  (w.extensions.any fun ext => ext.toList.isSuffixOf name.toList)
    && !(match w.destination with
      | .directory dir => p.isBelow dir
      | _ => false)
    && !(w.ignored.any (· (w.shownName p)))
    && w.targets.any p.isBelow

/-- The files that a target stands for. -/
def filesOf (w : Workspace) (t : FileTree) (target : Path) : List Path :=
  if t.isFile target then [target] else (t.filesBelow target).filter w.accepts

/-- The files to process, in order. -/
def files (w : Workspace) (t : FileTree) : List Path :=
  Path.sorted (w.targets.flatMap (w.filesOf t))

end Workspace

end Restyle
