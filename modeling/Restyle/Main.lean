import Restyle.Workspace.Run

/-! The program. It takes the places that the arguments name into a file tree, runs over it, shows what
the run shows, and writes the files that the run changed. -/

namespace Restyle

/-- Adds the directories on the way to a place. -/
def FileTree.reach (t : FileTree) (place : NodePlace) : FileTree :=
  (List.range (place.length + 1)).foldl (fun t n =>
    if (t.node? (place.take n)).isSome then t else t.put (place.take n) .directory) t

/-- The paths that a run may look at. -/
def Arguments.places (a : Arguments) (here : Path) : List Path :=
  let root := a.workspace.absolute here
  let output := match a.destination with
    | .directory dir => [dir.absolute here]
    | _ => []
  root :: a.config.toList.map (·.absolute root) ++ a.paths.map root.join ++ output

/-- Adds a directory and everything below it. -/
partial def FileTree.take (t : FileTree) (place : NodePlace) (entries : Array IO.FS.DirEntry) :
    IO FileTree :=
  entries.foldlM (fun t entry => do
    let child := place ++ [entry.fileName]
    if ← entry.path.isDir then
      FileTree.take ⟨(child, .directory) :: t.nodes⟩ child (← entry.path.readDir)
    else return ⟨(child, .file (← IO.FS.readBinFile entry.path)) :: t.nodes⟩) t

/-- Adds what is at a path, if anything is. -/
def FileTree.takePath (t : FileTree) (p : Path) : IO FileTree := do
  try
    let there ← IO.FS.realPath p.text
    if ← there.isDir then (t.reach p.place).take p.place (← there.readDir)
    else return (t.reach p.place.dropLast).put p.place (.file (← IO.FS.readBinFile there))
  catch _ => return t

/-- The tree of everything at some paths. What is below a path that was taken is not taken again. -/
def FileTree.ofPaths (paths : List Path) : IO FileTree := do
  let (t, _) ← paths.foldlM (fun (t, taken) p => do
    if taken.any fun above => (FileTree.placeBelow? above p.place).isSome then return (t, taken)
    return (← t.takePath p, p.place :: taken)) (({} : FileTree), ([] : List NodePlace))
  return t

def textOfPlace (place : NodePlace) : String := "/" ++ String.intercalate "/" place

/-- The run for arguments; the exit code says whether everything went well. -/
def runProgram (a : Arguments) : IO UInt32 := do
  let here : Path := ⟨(← IO.currentDir).toString⟩
  let before ← FileTree.ofPaths (a.places here)
  let run := Run.ofArguments before here a
  for (place, content) in run.tree.changedFrom before do
    IO.FS.createDirAll (textOfPlace place.dropLast)
    IO.FS.writeBinFile (textOfPlace place) content
  IO.print run.screen.output
  IO.eprint run.screen.errors
  match run.result with
  | .finished summary => return if summary.failed = 0 then 0 else 1
  | .watching => return 0
  | .failed e =>
    IO.eprintln ("Error: " ++ e.message)
    return 1
  | .stopped => return 101

def ArgumentFault.message : ArgumentFault → String
  | conflict => "these arguments exclude each other"
  | unknown => "unknown argument"
  | invalidValue => "invalid value"
  | tooManyValues => "unexpected value"
  | help => "svelte-stylex-rs [OPTIONS] [PATHS]..."
  | version => "svelte-stylex-rs"

end Restyle

def main (argv : List String) : IO UInt32 :=
  match Restyle.Arguments.ofList? argv with
  | .ok a => Restyle.runProgram a
  | .error .help | .error .version => do
    IO.println (Restyle.ArgumentFault.message .help)
    return 0
  | .error fault => do
    IO.eprintln ("error: " ++ fault.message)
    return 2
