import Restyle.Text.Blank
import Restyle.Text.Search

/-! Names of elements: where a name ends, and which names have content of their own kind. -/

namespace Restyle.Markup

open Text

def endsTagName (c : Char) : Bool := isBlank c || c == '>' || c == '/'

/-- Elements of HTML without content or closing tag. -/
def voidElements : List String := [
  "area", "base", "br", "col", "embed", "hr", "img", "input", "link", "meta", "param", "source",
  "track", "wbr"]

/-- The case of ASCII letters does not matter. -/
def isVoidElement (name : String) : Bool := voidElements.contains (name.map Char.toLower)

/-- Content is text, up to the closing tag. -/
def isRawTextElement (name : String) : Bool := name == "script" || name == "style"

/-- Content is text and expressions, up to the closing tag. -/
def isTextElement (name : String) : Bool := name == "textarea"

/-- Components have a capital or a path as their name. -/
def isComponentName (name : String) : Bool :=
  let cs := name.toList
  (cs.head?.any Char.isUpper) || (cs.contains '.' && !cs.contains ':')

end Restyle.Markup
