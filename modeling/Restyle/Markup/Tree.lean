import Restyle.Source.Span

/-! The tree of a markup document. Every part carries the span it was read from. Scripts, styles and
embedded expressions are kept as text. -/

namespace Restyle.Markup

/-- The text of an embedded expression without the spaces around it. -/
structure Expression where
  span : Span
  text : String
  deriving Repr, DecidableEq, Inhabited

/-! ### Attributes -/

/-- A part of an attribute value. -/
inductive ValuePart where
  | text (span : Span) (value : String)
  | expression (span : Span) (value : Expression)
  deriving Repr, DecidableEq

inductive AttributeValue where
  /-- A name without a value. -/
  | absent
  /-- One unquoted expression. -/
  | expression (span : Span) (value : Expression)
  | parts (parts : List ValuePart)
  deriving Repr, DecidableEq

/-- Attribute names with a meaning before the colon. -/
inductive DirectiveKind where
  | on | bind | cssClass | style | use | transition | into | out | animate | let
  deriving Repr, DecidableEq

namespace DirectiveKind

def ofName? : String → Option DirectiveKind
  | "on" => some .on
  | "bind" => some .bind
  | "class" => some .cssClass
  | "style" => some .style
  | "use" => some .use
  | "transition" => some .transition
  | "in" => some .into
  | "out" => some .out
  | "animate" => some .animate
  | "let" => some .let
  | _ => none

end DirectiveKind

inductive Attribute where
  | normal (span : Span) (name : String) (value : AttributeValue)
  /-- `{...e}` -/
  | spread (span : Span) (value : Expression)
  /-- `{e}` -/
  | shorthand (span : Span) (value : Expression)
  /-- `kind:name|modifier=value` -/
  | directive (span : Span) (kind : DirectiveKind) (name : String) (modifiers : List String)
      (value : Option AttributeValue)
  /-- `{@attach e}` -/
  | attach (span : Span) (value : Expression)
  deriving Repr, DecidableEq

def Attribute.span : Attribute → Span
  | normal s .. | spread s .. | shorthand s .. | directive s .. | attach s .. => s

/-- The literal text of a value all of whose parts are text. -/
def AttributeValue.static? : AttributeValue → Option String
  | parts ps => (ps.mapM fun
    | ValuePart.text _ value => some value
    | ValuePart.expression .. => none).map String.join
  | _ => none

/-- The only expression of a value. Values without one, and values that mix text and expressions,
have none. -/
def AttributeValue.single? : AttributeValue → Option Expression
  | expression _ e => some e
  | parts [ValuePart.expression _ e] => some e
  | _ => none

/-! ### Nodes -/

/-- Elements whose names begin with `svelte:`. -/
inductive SpecialElement where
  | self | component | element | window | document | body | head | options | fragment | boundary
  deriving Repr, DecidableEq

def SpecialElement.ofName? : String → Option SpecialElement
  | "self" => some .self
  | "component" => some .component
  | "element" => some .element
  | "window" => some .window
  | "document" => some .document
  | "body" => some .body
  | "head" => some .head
  | "options" => some .options
  | "fragment" => some .fragment
  | "boundary" => some .boundary
  | _ => none

/-- Tags of the form `{@kind e}`. -/
inductive TagKind where
  | html | const | debug | render
  deriving Repr, DecidableEq

def TagKind.ofName? : String → Option TagKind
  | "html" => some .html
  | "const" => some .const
  | "debug" => some .debug
  | "render" => some .render
  | _ => none

mutual

inductive Node where
  | element (span : Span) (name : String) (attributes : List Attribute) (content : Fragment)
      (selfClosing : Bool)
  | component (span : Span) (name : String) (attributes : List Attribute) (content : Fragment)
      (selfClosing : Bool)
  | special (span : Span) (kind : SpecialElement) (name : String) (attributes : List Attribute)
      (content : Fragment)
  | text (span : Span) (data : String)
  | comment (span : Span) (data : String)
  /-- `{e}` -/
  | expression (span : Span) (value : Expression)
  | tag (span : Span) (kind : TagKind) (value : Expression)
  /-- An `{:else if}` branch is the only node of the alternate and has no closing tag of its own. -/
  | ifBlock (span : Span) (elseif : Bool) (test : Expression) (consequent : Fragment)
      (alternate : Option Fragment)
  | eachBlock (span : Span) (header : Expression) (body : Fragment) (fallback : Option Fragment)
  | awaitBlock (span : Span) (header : Expression) (pending resolved failed : Option Fragment)
  | keyBlock (span : Span) (value : Expression) (body : Fragment)
  | snippetBlock (span : Span) (name parameters : String) (body : Fragment)

/-- Sibling nodes and the span they were read from. -/
structure Fragment where
  nodes : List Node
  span : Span

end

instance : Inhabited Fragment := ⟨⟨[], ⟨0, 0⟩⟩⟩

namespace Node

def span : Node → Span
  | element s .. | component s .. | special s .. | text s .. | comment s .. | expression s ..
  | tag s .. | ifBlock s .. | eachBlock s .. | awaitBlock s .. | keyBlock s .. | snippetBlock s .. => s

/-- The fragments of a node: element content, or the branches of a block in the order in which they
are usually written. -/
def fragments : Node → List Fragment
  | element _ _ _ content _ | component _ _ _ content _ | special _ _ _ _ content => [content]
  | ifBlock _ _ _ consequent alternate => consequent :: alternate.toList
  | eachBlock _ _ body fallback => body :: fallback.toList
  | awaitBlock _ _ pending resolved failed => pending.toList ++ resolved.toList ++ failed.toList
  | keyBlock _ _ body | snippetBlock _ _ _ body => [body]
  | text .. | comment .. | expression .. | tag .. => []

/-- The nodes one level below. -/
def children (n : Node) : List Node := n.fragments.flatMap Fragment.nodes

end Node

/-! ### Documents -/

inductive ScriptLanguage where
  | javaScript | typeScript
  deriving Repr, DecidableEq

/-- Whether a script runs once for a module or once for each instance. -/
inductive ScriptContext where
  | perInstance | perModule
  deriving Repr, DecidableEq

structure Script where
  span : Span
  contentSpan : Span
  content : String
  language : ScriptLanguage
  context : ScriptContext
  attributes : List Attribute
  deriving Repr

structure Style where
  span : Span
  contentSpan : Span
  content : String
  attributes : List Attribute
  deriving Repr

structure Document where
  moduleScript : Option Script
  instanceScript : Option Script
  style : Option Style
  fragment : Fragment
  span : Span

end Restyle.Markup
