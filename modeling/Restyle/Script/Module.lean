import Restyle.Script.Grammar

/-! Modules of a script. -/

namespace Restyle.Script

open Text

/-- The text after a first line that names an interpreter. -/
def dropInterpreter (cs : List Char) : List Char :=
  if startsWith "#!".toList cs then cs.dropWhile (!isLineBreak ·) else cs

/-- The expressions that a module exports as its default, in order. Faults that do not stop the reader
do not matter. -/
def defaultExports? (types : Bool) (text : String) : Except Fault (List Term) :=
  let cs := dropInterpreter (if text.toList.head? = some '\ufeff' then text.toList.tail else text.toList)
  let context : Context := { types, module := true, strict := true, limit := cs.length + 2 }
  match (Parse.items (Grammar.ofText cs)).run context (State.ofText cs) with
  | .ok terms _ => .ok terms
  | .error fault _ => .error fault

end Restyle.Script
