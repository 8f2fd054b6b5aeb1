import Restyle.Expansion.Options
import Restyle.Workspace.Path
import Restyle.Workspace.Report

/-! Arguments of the command line. A flag stands alone, a setting takes a value after an equals sign or
as the next argument, everything else is a path; after two hyphens all arguments are paths. -/

namespace Restyle

inductive Flag where
  | write | sourceMap | noShorthand | watch | preserveWatchOutput | verbose
  deriving Repr, DecidableEq

inductive Setting where
  | workspace | outDir | config | ignore | output
  /-- An option of the expansion. -/
  | option (name : OptionName)
  deriving Repr, DecidableEq

/-- What a long argument means. -/
inductive LongArgument where
  | flag (flag : Flag)
  | setting (setting : Setting)
  | help
  | version
  deriving Repr, DecidableEq

def LongArgument.ofName? : String → Option LongArgument
  | "write" => some (.flag .write)
  | "source-map" => some (.flag .sourceMap)
  | "no-shorthand" => some (.flag .noShorthand)
  | "watch" => some (.flag .watch)
  | "preserveWatchOutput" => some (.flag .preserveWatchOutput)
  | "verbose" => some (.flag .verbose)
  | "workspace" => some (.setting .workspace)
  | "out-dir" => some (.setting .outDir)
  | "config" => some (.setting .config)
  | "ignore" => some (.setting .ignore)
  | "output" => some (.setting .output)
  | "attrs-name" => some (.setting (.option .attrsAttribute))
  | "shorthand-name" => some (.setting (.option .shorthand))
  | "create-name" => some (.setting (.option .createAttribute))
  | "create-at-name" => some (.setting (.option .positionAttribute))
  | "import-source" => some (.setting (.option .importSource))
  | "runtime-alias" => some (.setting (.option .runtimeAlias))
  | "hoist-var" => some (.setting (.option .hoistVariable))
  | "help" => some .help
  | "version" => some .version
  | _ => none

/-- Why arguments are not accepted; help and version end the program in the same way. -/
inductive ArgumentFault where
  /-- Two arguments that exclude each other, or one that is given twice. -/
  | conflict
  | unknown
  /-- A value that is missing or not one of those allowed. -/
  | invalidValue
  /-- A value for a flag. -/
  | tooManyValues
  | help
  | version
  deriving Repr, DecidableEq

structure Arguments where
  paths : List Path := []
  flags : List Flag := []
  /-- The settings with their values, in the order in which they are given. -/
  settings : List (Setting × String) := []
  deriving Repr, DecidableEq

/-- Where expanded code goes. -/
inductive Destination where
  | standardOutput
  | inPlace
  | directory (path : Path)
  deriving Repr, DecidableEq

namespace Arguments

def has (a : Arguments) (f : Flag) : Bool := a.flags.contains f

def value? (a : Arguments) (s : Setting) : Option String := a.settings.lookup s

def workspace (a : Arguments) : Path := ⟨(a.value? .workspace).getD "."⟩

def config (a : Arguments) : Option Path := (a.value? .config).map Path.mk

def ignored (a : Arguments) : List String :=
  a.settings.filterMap fun (s, value) => if s = .ignore then some value else none

def format (a : Arguments) : ReportFormat := if a.value? .output = some "json" then .json else .human

def destination (a : Arguments) : Destination :=
  match a.value? .outDir with
  | some dir => .directory ⟨dir⟩
  | none => if a.has .write then .inPlace else .standardOutput

/-- The options with those that the arguments give. -/
def override (a : Arguments) (o : Options) : Options :=
  let o := OptionName.all.foldl (fun o n => ((a.value? (.option n)).map fun v => o.set v n).getD o) o
  if a.has .noShorthand then { o with shorthand := none } else o

/-! ### Reading -/

def addFlag (a : Arguments) (f : Flag) : Except ArgumentFault Arguments :=
  if a.has f then .error .conflict else .ok { a with flags := a.flags ++ [f] }

/-- Every setting but the ignored patterns is given once. -/
def addSetting (a : Arguments) (s : Setting) (value : String) : Except ArgumentFault Arguments :=
  if s ≠ .ignore && (a.value? s).isSome then .error .conflict
  else if s = .output && value ≠ "human" && value ≠ "json" then .error .invalidValue
  else .ok { a with settings := a.settings ++ [(s, value)] }

/-- The arguments read so far. -/
structure Reader where
  given : Arguments := {}
  /-- The last setting, with its value if that has come. It is added when the next argument is
  known. -/
  pending : Option (Setting × Option String) := none

def Reader.settle (r : Reader) : Except ArgumentFault Arguments :=
  match r.pending with
  | none => .ok r.given
  | some (_, none) => .error .invalidValue
  | some (s, some value) => r.given.addSetting s value

/-- A long argument without its hyphens. -/
def Reader.long (r : Reader) (body : List Char) : Except ArgumentFault Reader := do
  let (name, value) := match body.span (· ≠ '=') with
    | (name, _ :: value) => (name, some (String.ofList value))
    | (name, []) => (name, none)
  match LongArgument.ofName? (String.ofList name), value with
  | none, _ => .error .unknown
  | some (.setting s), none => .ok ⟨← r.settle, some (s, none)⟩
  | some (.setting s), some value => .ok ⟨← (← r.settle).addSetting s value, none⟩
  | some _, some _ => .error .tooManyValues
  | some (.flag f), none => .ok ⟨← (← r.settle).addFlag f, none⟩
  | some .help, none => do
    let _ ← r.settle
    .error .help
  | some .version, none => do
    let _ ← r.settle
    .error .version

/-- Short arguments, all after one hyphen. -/
def Reader.short (r : Reader) : List Char → Except ArgumentFault Reader
  | [] => .ok r
  | 'v' :: rest => do Reader.short ⟨← (← r.settle).addFlag .verbose, none⟩ rest
  | 'h' :: _ => do
    let _ ← r.settle
    .error .help
  | 'V' :: _ => do
    let _ ← r.settle
    .error .version
  | _ :: _ => .error .unknown

def Reader.path (r : Reader) (text : String) : Except ArgumentFault Reader := do
  let a ← r.settle
  .ok ⟨{ a with paths := a.paths ++ [⟨text⟩] }, none⟩

/-- All arguments in order; `pathsOnly` after two hyphens. -/
def Reader.run (pathsOnly : Bool) (r : Reader) : List String → Except ArgumentFault Reader
  | [] => .ok r
  | argument :: rest => do
    if pathsOnly then Reader.run true (← r.path argument) rest
    else
      match argument.toList with
      | ['-', '-'] => Reader.run true r rest
      | '-' :: '-' :: body => Reader.run false (← r.long body) rest
      | '-' :: c :: cs => Reader.run false (← r.short (c :: cs)) rest
      | _ =>
        match r.pending with
        | some (s, none) => Reader.run false { r with pending := some (s, some argument) } rest
        | _ => Reader.run false (← r.path argument) rest

/-- Arguments that exclude each other. -/
def clash (a : Arguments) : Bool :=
  (a.has .write && (a.value? .outDir).isSome)
    || (a.has .noShorthand && (a.value? (.option .shorthand)).isSome)

def ofList? (argv : List String) : Except ArgumentFault Arguments := do
  let a ← (← Reader.run false {} argv).settle
  if a.clash then .error .conflict else .ok a

end Arguments

end Restyle
