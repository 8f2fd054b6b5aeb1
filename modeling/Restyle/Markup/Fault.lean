import Restyle.Source.Span
import Restyle.Text.Visible

/-! What can be wrong with a markup document. A fault is recorded and reading goes on, so a document
may have many; each names its cause and the span it was found at. -/

namespace Restyle.Markup

inductive FaultKind where
  | unexpectedChar (expected : String) (found : Char)
  | unexpectedEnd (expected : String)
  | unclosedTag (name : String)
  | mismatchedClosingTag (expected found : String)
  | unexpectedClosingTag (name : String)
  | unclosedBlock (keyword : String)
  | unclosedComment
  | unclosedExpression
  | invalidAttribute (reason : String)
  | invalidTagName (name : String)
  | invalidBlock (reason : String)
  | duplicate (what : String)
  deriving Repr, DecidableEq

structure Fault where
  kind : FaultKind
  span : Span
  deriving Repr, DecidableEq

def FaultKind.message : FaultKind → String
  | unexpectedChar expected found =>
    "unexpected character: expected " ++ expected ++ ", found " ++ Text.quoteChar found
  | unexpectedEnd expected => "unexpected end of file: expected " ++ expected
  | unclosedTag name => "unclosed tag: <" ++ name ++ ">"
  | mismatchedClosingTag expected found =>
    "mismatched closing tag: expected </" ++ expected ++ ">, found </" ++ found ++ ">"
  | unexpectedClosingTag name => "unexpected closing tag: </" ++ name ++ ">"
  | unclosedBlock keyword => "unclosed block: \x7b#" ++ keyword ++ "\x7d"
  | unclosedComment => "unclosed comment"
  | unclosedExpression => "unclosed expression"
  | invalidAttribute reason => "invalid attribute: " ++ reason
  | invalidTagName name => "invalid tag name: " ++ name
  | invalidBlock reason => "invalid block syntax: " ++ reason
  | duplicate what => "a component can only have one " ++ what

end Restyle.Markup
