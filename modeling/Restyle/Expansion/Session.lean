import Restyle.Expansion.Expanded

/-! Sessions: files expanded one after the other with the same options and one journal. -/

namespace Restyle

variable [Script.ExpressionReader]

/-- The result for a file in a session, and the journal after it. -/
def Journal.expand (j : Journal) (o : Options) (f : SourceFile) :
    Except ExpansionError (Option Expanded) × Journal :=
  let (result, remarks) := Restyle.expand o f
  (result, j.recordAll f remarks)

/-- The results for files in order, each with the journal after it. -/
def session (o : Options) : Journal → List SourceFile →
    List (Except ExpansionError (Option Expanded) × Journal)
  | _, [] => []
  | j, f :: rest =>
    let step := j.expand o f
    step :: session o step.2 rest

end Restyle
