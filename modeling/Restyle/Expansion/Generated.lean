import Restyle.Expansion.Plan
import Restyle.Json.Writer

/-! Generated code: the call that takes the place of attributes, the import of the runtime and the
constant with the hoisted definitions. -/

namespace Restyle

open Markup

/-- A style definition that is moved out of an element, with the name of its member. -/
structure Hoisted where
  name : String
  text : String
  deriving Repr, DecidableEq

namespace Hoisted

/-- The part of a name that stands for an element whose tag is no identifier. -/
def unnamedTag : String := "element"

/-- The name of the definition: the tag with the line and the column of its first character. -/
def nameOf (f : SourceFile) (tag : String) (value : Expression) : String :=
  let tag := if Text.isPlainIdentifier tag.toList then tag else unnamedTag
  let location := f.location value.span.start
  s!"{tag}${location.line}_{location.column}"

end Hoisted

namespace ElementPlan

/-- The definition that the plan hoists. -/
def hoisted? (f : SourceFile) (p : ElementPlan) : Option Hoisted :=
  p.create.map fun create => ⟨Hoisted.nameOf f p.tag create.value, create.value.text⟩

/-- The arguments that the attributes give: the items of an array without its holes, or the expression
itself. -/
def givenArguments [Script.ExpressionReader] (f : SourceFile) (p : ElementPlan) : Remarking (List String) := do
  match p.attrs with
  | none => return []
  | some attrs =>
    match ← f.shape attrs.name attrs.value with
    | .array items => (items.filterMap id).mapM (f.textIn attrs.value.span.start)
    | _ => return [attrs.value.text]

/-- Puts a reference to the hoisted definition at its position among the arguments. -/
def placeReference (o : Options) (f : SourceFile) (p : ElementPlan) (args : List String) :
    List String :=
  match p.hoisted? f with
  | none => args
  | some hoisted =>
    let position := p.position.getD (.index 0)
    args.insertIdx (position.resolve args.length) (o.hoistVariable ++ "." ++ hoisted.name)

end ElementPlan

namespace Options

/-- The spread of a call of the runtime. -/
def call (o : Options) (args : List String) : String :=
  "\x7b..." ++ o.runtimeAlias ++ ".attrs(" ++ String.intercalate ", " args ++ ")\x7d"

def importStatement (o : Options) : String :=
  "import * as " ++ o.runtimeAlias ++ " from " ++ Json.quote o.importSource ++ ";"

def hoistDeclaration (o : Options) (definitions : List Hoisted) : String :=
  let members := definitions.map fun h => Json.quote h.name ++ ": " ++ h.text
  "const " ++ o.hoistVariable ++ " = " ++ o.runtimeAlias ++ ".create(\x7b"
    ++ String.intercalate ", " members ++ "\x7d);"

end Options

end Restyle
