import Restyle.Markup.Tree
import Restyle.Text.Identifier
import Restyle.Expansion.Options

/-! Conventions: what the attributes of an element mean to an expansion. Whether an attribute has a
meaning is decided from its name and the form of its value; no expression is read. -/

namespace Restyle

open Markup

/-- The meaning of an attribute, with its name and span. -/
inductive Convention where
  /-- The value goes to the runtime. -/
  | attrs (name : String) (span : Span) (value : Expression)
  /-- The value is a style definition. -/
  | create (name : String) (span : Span) (value : Expression)
  /-- The value, if it is one expression, says where the definition goes. -/
  | position (name : String) (span : Span) (value : Option Expression)
  deriving Repr, DecidableEq

namespace Options

/-- The text is an identifier, and as such the name of the attribute whose value goes to the
runtime. -/
def isAttrsBinding (o : Options) (text : String) : Bool :=
  Text.isPlainIdentifier text.toList && o.isAttrsName text

/-- The meaning of an attribute, if it has one. One name with several meanings has the first. -/
def convention? (o : Options) : Attribute → Option Convention
  | .normal span name value =>
    if o.isAttrsName name then value.single?.map (.attrs name span ·)
    else if name = o.createAttribute then value.single?.map (.create name span ·)
    else if name = o.positionAttribute then some (.position name span value.single?)
    else none
  | .spread span value | .shorthand span value =>
    if o.isAttrsBinding value.text then some (.attrs value.text span value) else none
  | .directive .. | .attach .. => none

/-- The meanings of attributes, in their order. -/
def conventions (o : Options) (attrs : List Attribute) : List Convention :=
  attrs.filterMap o.convention?

end Options

end Restyle
