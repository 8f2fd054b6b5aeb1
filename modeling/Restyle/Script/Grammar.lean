import Restyle.Script.Items

/-! The whole grammar: each construct with the grammar itself for the constructs inside it. -/

namespace Restyle.Script

/-- The constructs, given a grammar for the ones inside them. -/
def Grammar.unfold (go : Grammar) : Grammar
  | .assignment => Parse.assignment go
  | .operand level => Parse.operand go level
  | .unary => Parse.unary go
  | .call => Parse.call go
  | .constructed => Parse.constructed go
  | .type => Parse.type go
  | .prefixedType => Parse.prefixedType go
  | .binding => Parse.binding go
  | .statement => Parse.statement go true
  | .substatement => Parse.statement go false
  | .item => do
    discard (Parse.item go)
    return .other

/-- The grammar of constructs that nest up to a depth. -/
def Grammar.upTo : Nat → Grammar
  | 0, _ => Parse.fail .tooDeep
  | depth + 1, goal => (Grammar.upTo depth).unfold goal

/-- The grammar of a text. A construct takes a character or leads to one that does in a few steps, so
that no text nests deeper than this. -/
def Grammar.ofText (text : List Char) : Grammar := Grammar.upTo (8 * text.length + 16)

end Restyle.Script
