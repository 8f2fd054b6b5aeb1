import Restyle.Source.Span
import Restyle.Decimal.Binary64

/-! What is kept of an expression: the few shapes that somebody asks for, and as much of the others as
the rules on operators, assignments and patterns need. -/

namespace Restyle.Script

inductive Term where
  | identifier (name : String)
  /-- A number; `none` is one out of range. -/
  | number (value : Option Decimal.Binary64)
  /-- A text; `none` is one that no text can hold. -/
  | text (value : Option String)
  /-- The items of an array with their spans, a spread's dots included; `none` marks a hole. -/
  | array (items : List (Option (Span × Term)))
  /-- The members of an object, with the key where a name or a text, a colon and a value stand. -/
  | object (members : List (Option String × Term))
  /-- A member of an object that is a function, or computes its value. -/
  | method
  /-- Three dots and what follows them. -/
  | spread (inner : Term)
  | parenthesized (inner : Term)
  /-- A property of something. -/
  | member (owner : Term)
  /-- The class above, of which only a property or a call can be asked. -/
  | parentClass
  /-- A property of the class above. -/
  | parentMember
  /-- The function that loads a module, which can only be called. -/
  | moduleLoader
  /-- Properties and calls after a question mark. -/
  | chain
  /-- With a type next to it. -/
  | typed (inner : Term)
  /-- Marked as not null. -/
  | nonNull (inner : Term)
  /-- `new` and a callee without arguments. -/
  | bareNew
  /-- A prefix operator and its operand. -/
  | unary
  | awaited (inner : Term)
  | update
  /-- Operators `&&` and `||`. -/
  | logical
  /-- Operator `??`. -/
  | nullish
  | binary
  | conditional
  | assignment
  | arrow
  /-- A faulty operand. -/
  | invalid
  | other
  deriving Inhabited

namespace Term

/-- The expression inside all parentheses. -/
def inner : Term → Term
  | parenthesized t => t.inner
  | t => t

/-- The expression after three dots. -/
def spreadless : Term → Term
  | spread t => t
  | t => t

/-- Something that an operator with assignment can change. A property of a property counts if that one
does. -/
def isSimpleTarget : Term → Bool
  | identifier _ | parentMember => true
  | member (member owner) => (member owner).isSimpleTarget
  | member chain => false
  | member _ => true
  | parenthesized t | typed t | nonNull t => t.isSimpleTarget
  | _ => false

/-- Something that may stand to the left of an assignment, be it faulty there. -/
def mayBeTarget : Term → Bool
  | identifier _ | member _ | parentMember | parenthesized _ | typed _ | nonNull _ | chain | invalid =>
    true
  | _ => false

/-- Properties and calls after a question mark, be they marked as not null. -/
def isChain : Term → Bool
  | chain => true
  | nonNull t => t.isChain
  | _ => false

/-- An expression after which no assignment can begin. -/
def isClosed : Term → Bool
  | unary | update | logical | nullish | binary | conditional | arrow => true
  | _ => false

def isArrow : Term → Bool
  | arrow => true
  | _ => false

mutual

/-- Whether it can be read as a pattern that takes a value apart: no member of it is a function. What
stands in brackets, has a value of its own or is no array or object is not taken apart. -/
def canBePattern : Term → Bool
  | array items => itemsCanBePatterns items
  | object members => membersCanBePatterns members
  | spread t => t.canBePattern
  | method => false
  | _ => true

def itemsCanBePatterns : List (Option (Span × Term)) → Bool
  | [] => true
  | none :: items => itemsCanBePatterns items
  | some (_, t) :: items => t.canBePattern && itemsCanBePatterns items

def membersCanBePatterns : List (Option String × Term) → Bool
  | [] => true
  | (_, t) :: members => t.canBePattern && membersCanBePatterns members

end

end Term

end Restyle.Script
