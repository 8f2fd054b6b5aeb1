import Restyle.Json.Comments
import Restyle.Expansion.Options
import Restyle.Script.Module
import Restyle.Workspace.FileTree

/-! Settings that a workspace keeps in files: the options of the expansion, and the extensions of the
files that belong to the project. -/

namespace Restyle

/-! ### Options -/

/-- Why an options file cannot be used. -/
inductive SettingsError where
  | unreadable (path : Path) (error : FileError)
  | malformed (path : Path)
  deriving Repr, DecidableEq

def SettingsError.message : SettingsError → String
  | unreadable path error => "failed to read " ++ path.text ++ ": " ++ error.message
  | malformed path => "invalid options in " ++ path.text

namespace Options

/-- The options file that is looked for in a workspace. -/
def fileName : Path := ⟨"stylex.config.json"⟩

/-- The options in a text, which may hold comments. -/
def ofText? (text : String) : Option Options := do ofJson? (← Json.ofText? (Json.withoutComments text))

def readFrom (t : FileTree) (path : Path) : Except SettingsError Options :=
  match t.read path with
  | .error e => .error (.unreadable path e)
  | .ok text =>
    match ofText? text with
    | some o => .ok o
    | none => .error (.malformed path)

/-- The options of a workspace. A file that is named must exist; without one the file in the workspace
is used if it is there, and otherwise the defaults. -/
def load (t : FileTree) (workspace : Path) (named : Option Path) : Except SettingsError Options :=
  match named with
  | some path => readFrom t (path.absolute workspace)
  | none =>
    let path := workspace.join fileName
    if t.exists? path then readFrom t path else .ok {}

end Options

/-! ### Extensions -/

/-- The configuration of the project, as far as it matters here. -/
structure ProjectConfig where
  /-- The extensions that the configuration lists. -/
  listed : List String := []
  /-- A configuration was there but could not be read. -/
  unreadable : Bool := false
  deriving Repr, DecidableEq

namespace ProjectConfig

/-- The files that are looked for, in this order, and whether types are part of their language. -/
def fileNames : List (Path × Bool) :=
  [(⟨"svelte.config.js"⟩, false), (⟨"svelte.config.mjs"⟩, false), (⟨"svelte.config.ts"⟩, true)]

/-- The texts in the lists that an object has under the name of extensions. -/
def extensionsOf (members : List (Option String × Script.Term)) : List String :=
  members.flatMap fun (name, value) =>
    match name, value with
    | some "extensions", .array items =>
      items.filterMap fun item => item.bind fun (_, value) =>
        match value.spreadless with
        | .text text => text
        | _ => none
    | _, _ => []

/-- What a module lists: the last object that it exports as its default counts. -/
def ofModule? (types : Bool) (text : String) : Option (List String) :=
  match Script.defaultExports? types text with
  | .error _ => none
  | .ok terms => some (terms.foldl (fun listed term => match term with
    | .object members => extensionsOf members
    | _ => listed) [])

def load (t : FileTree) (workspace : Path) : ProjectConfig :=
  match fileNames.find? fun (name, _) => t.exists? (workspace.join name) with
  | none => {}
  | some (name, types) =>
    match t.read (workspace.join name) with
    | .error _ => { unreadable := true }
    | .ok text =>
      match ofModule? types text with
      | some listed => { listed }
      | none => { unreadable := true }

/-- The ends of the names of files to process. -/
def extensions (c : ProjectConfig) : List String := if c.listed.isEmpty then [".svelte"] else c.listed

end ProjectConfig

end Restyle
