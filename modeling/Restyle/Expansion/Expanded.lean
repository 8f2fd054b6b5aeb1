import Restyle.Markup.Reader
import Restyle.Expansion.Generated

/-! The expansion of a file: from the plans for its elements to edits of its text. Attributes become a
call of the runtime; inline definitions are hoisted into a module script. The import and the hoisted
definitions go into the scripts of the file, or into new ones in front of it. -/

namespace Restyle

open Markup

/-- A file that was expanded. -/
structure Expanded where
  code : String
  map : SourceMap

namespace ElementPlan

/-- The edits of an element with the call that it gets. An attribute that the call does not replace is
dropped. -/
def anchorSplices (p : ElementPlan) (call : String) : List Splice :=
  match p.attrs, p.create with
  | some attrs, create => .update attrs.span call :: create.toList.map (.remove ·.span)
  | none, some create => [.update create.span call]
  | none, none => []

def splices [Script.ExpressionReader] (o : Options) (f : SourceFile) (p : ElementPlan) : Remarking (List Splice) := do
  let args ← p.givenArguments f
  return p.removals.map .remove ++ p.anchorSplices (o.call (p.placeReference o f args))

end ElementPlan

/-- The edit that brings in the runtime. -/
def importSplice (o : Options) (d : Document) : Splice :=
  match d.instanceScript with
  | some script => .insert .prependRight script.contentSpan.start (o.importStatement ++ "\n")
  | none => .prepend ("<script>" ++ o.importStatement ++ "</script>")

/-- The edit that brings in the hoisted definitions. -/
def hoistSplice (o : Options) (d : Document) (definitions : List Hoisted) : Splice :=
  let declaration := o.hoistDeclaration definitions
  match d.moduleScript with
  | some script => .insert .appendLeft script.contentSpan.stop ("\n" ++ declaration ++ "\n")
  | none => .prepend ("<script module>" ++ declaration ++ "</script>")

section Reading

variable [Script.ExpressionReader]

/-- The edits of a document whose elements have plans. -/
def documentSplices (o : Options) (f : SourceFile) (d : Document) (plans : List ElementPlan) :
    Remarking (List Splice) := do
  let elements ← plans.mapM (·.splices o f)
  let imports := if plans.any (·.expands) then [importSplice o d] else []
  let definitions := plans.filterMap (·.hoisted? f)
  let hoists := if definitions.isEmpty then [] else [hoistSplice o d definitions]
  return elements.flatten ++ imports ++ hoists

/-- The file after some edits. -/
def SourceFile.spliced (f : SourceFile) (splices : List Splice) : Except SpliceError Expanded := do
  let b ← splices.foldlM SpliceBuffer.splice (SpliceBuffer.ofSource f.text)
  return ⟨b.code, b.map⟩

/-- The expansion of a file; `none` if there is nothing to expand. A file that cannot contain anything
to expand is not read. -/
def expansion (o : Options) (f : SourceFile) : Remarking (Option Expanded) := do
  if !o.mentionedIn f.text then
    Remarking.remark (.debug (f.shownName ++ ": no StyleX attributes, skipping"))
    return none
  let reading := Markup.read f.text
  match reading.faults with
  | first :: others =>
    throw (.markup f.shownName (f.location first.span.start) first.kind others.length)
  | [] =>
    let plans ← ElementPlan.ofElements o f reading.document.fragment.elements
    if plans.isEmpty then
      Remarking.remark (.debug (f.shownName ++ ": nothing to rewrite"))
      return none
    let splices ← documentSplices o f reading.document plans
    match f.spliced splices with
    | .ok expanded => return some expanded
    | .error e => throw (.splice e)

/-- The result of the expansion of a file, and the remarks on it. -/
def expand (o : Options) (f : SourceFile) :
    Except ExpansionError (Option Expanded) × List Remark :=
  (expansion o f).outcome

end Reading

end Restyle
