/-! What can be wrong with a script text, each with the offset at which it is found. -/

namespace Restyle.Script

inductive FaultKind where
  | expressionExpected
  | nameExpected
  /-- A piece is missing before another token. -/
  | missing (wanted found : String)
  | emptyParentheses
  | mixedNullish
  | unaryPower
  | legacyOctal
  | strayNumericSeparator
  | nameAfterNumber
  | unterminated (what : String)
  | invalidEscape
  | unexpectedChar (c : Char)
  | invalidAssignmentTarget
  | invalidUpdateTarget
  | awaitOutsideModule
  | importMetaOutsideModule
  | trailingText
  /-- A construct that cannot stand here. -/
  | misplaced (what : String)
  /-- The text nests deeper than the reader follows. -/
  | tooDeep
  deriving Repr, DecidableEq

def FaultKind.message : FaultKind → String
  | expressionExpected => "Expression expected"
  | nameExpected => "Expected ident"
  | missing wanted found => "Expected '" ++ wanted ++ "', got '" ++ found ++ "'"
  | emptyParentheses => "Parenthesized expression cannot be empty"
  | mixedNullish =>
    "Nullish coalescing operator(??) requires parens when mixing with logical operators"
  | unaryPower => "'**' cannot be applied to unary/await expression."
  | legacyOctal => "Legacy octal literals are not available when targeting ECMAScript 5 and higher"
  | strayNumericSeparator => "A numeric separator is only allowed between two digits"
  | nameAfterNumber => "Identifier cannot follow number"
  | unterminated what => "Unterminated " ++ what
  | invalidEscape => "Bad character escape sequence"
  | unexpectedChar c => "Unexpected character '" ++ c.toString ++ "'"
  | invalidAssignmentTarget => "Invalid assignment target"
  | invalidUpdateTarget =>
    "The left-hand side of an assignment expression must be a variable or a property access."
  | awaitOutsideModule => "top level await is only allowed in module"
  | importMetaOutsideModule => "'import.meta' cannot be used outside of module code."
  | trailingText => "Unexpected token after expression"
  | misplaced what => "Unexpected " ++ what
  | tooDeep => "Nesting is too deep"

structure Fault where
  kind : FaultKind
  offset : Nat
  deriving Repr, DecidableEq

end Restyle.Script
