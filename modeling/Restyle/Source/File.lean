import Restyle.Source.Lines

/-! A source with the name under which it is shown. -/

namespace Restyle

structure SourceFile where
  name : Option String
  text : String
  deriving Repr, DecidableEq

namespace SourceFile

/-- The name shown for a source that has none. -/
def anonymous : String := "<anonymous>"

def shownName (f : SourceFile) : String := f.name.getD anonymous

/-- The line and the column, in UTF-16 units, of an offset. -/
def location (f : SourceFile) (offset : Nat) : Location :=
  ((LineTable.ofText f.text).location16? f.text offset).getD ⟨0, 0⟩

end SourceFile

end Restyle
