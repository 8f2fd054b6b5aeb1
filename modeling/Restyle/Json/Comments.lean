import Restyle.Text.Search

/-! JSON with comments. Line comments end before their line break, block comments at their first
closing mark or at the end of the text; inside a text in quotes nothing is a comment. -/

namespace Restyle.Json

/-- What a character belongs to. -/
inductive CommentMode where
  | code | text | line | block
  deriving Repr, DecidableEq

/-- What is left of a text without its comments. -/
def dropComments : CommentMode → List Char → List Char
  | .code, '"' :: cs => '"' :: dropComments .text cs
  | .code, '/' :: '/' :: cs => dropComments .line cs
  | .code, '/' :: '*' :: cs => dropComments .block cs
  | .code, c :: cs => c :: dropComments .code cs
  | .text, '\\' :: c :: cs => '\\' :: c :: dropComments .text cs
  | .text, '"' :: cs => '"' :: dropComments .code cs
  | .text, c :: cs => c :: dropComments .text cs
  | .line, '\n' :: cs => '\n' :: dropComments .code cs
  | .line, _ :: cs => dropComments .line cs
  | .block, '*' :: '/' :: cs => dropComments .code cs
  | .block, _ :: cs => dropComments .block cs
  | _, [] => []

def withoutComments (text : String) : String := String.ofList (dropComments .code text.toList)

end Restyle.Json
