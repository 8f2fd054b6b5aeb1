import Restyle.Markup.Attributes
import Restyle.Markup.Names

/-! Scripts and styles of a document. Their content is raw text up to the first closing tag of the
same name. -/

namespace Restyle.Markup

open Text

/-- A script or style from its opening tag on. -/
structure RawBlock where
  attributes : List Attribute
  contentSpan : Span
  content : String
  cursor : Cursor

namespace Cursor

/-- A tag of the given name opens here: the name is followed by a blank, the end of the tag or the end
of the text. -/
def atTag (c : Cursor) (name : List Char) : Bool :=
  match strip? ('<' :: name) c.rest with
  | some [] => true
  | some (d :: _) => endsTagName d
  | none => false

/-- The raw block of the given name that opens here. -/
def rawBlock (c : Cursor) (name : List Char) : RawBlock :=
  let opening := name.length + 1
  let attributes := (c.moved (c.rest.take opening) (c.rest.drop opening)).attributes
  match attributes.2.eat? ['/', '>'] with
  | some c' => ⟨attributes.1, .point c'.offset, "", c'⟩
  | none =>
    let body := attributes.2.expect ['>']
    let closing := '<' :: '/' :: name
    let content := body.breakWhere (Text.startsWith closing)
    let span := content.2.spanFrom body.offset
    let text := String.ofList content.1
    match content.2.eat? closing with
    | some c' => ⟨attributes.1, span, text, c'.skipBlanks.expect ['>']⟩
    | none =>
      ⟨attributes.1, span, text,
        content.2.fault (.unclosedTag (String.ofList name)) (content.2.spanFrom c.offset)⟩

theorem reaches_rawBlock (c : Cursor) (name : List Char) :
    (c.moved (c.rest.take (name.length + 1)) (c.rest.drop (name.length + 1))).Reaches
      (c.rawBlock name).cursor := by
  have tag := reaches_attributes
    (c.moved (c.rest.take (name.length + 1)) (c.rest.drop (name.length + 1)))
  unfold rawBlock
  dsimp only
  split
  · exact tag.trans (reaches_eat? ‹_›).1
  · have content := (tag.trans (reaches_expect _ ['>'])).trans
      (reaches_breakWhere _ (Text.startsWith ('<' :: '/' :: name)))
    split
    · exact (content.trans (reaches_eat? ‹_›).1).trans
        ((reaches_skipBlanks _).trans (reaches_expect _ _))
    · exact reaches_fault content

end Cursor

/-! ### Scripts -/

/-- An attribute that makes a script a TypeScript one. -/
def Attribute.namesTypeScript : Attribute → Bool
  | .normal _ name value =>
    (name == "lang" || name == "type")
      && value.static?.any fun v => v == "ts" || contains "typescript".toList v.toList
  | _ => false

/-- An attribute that makes a script run once for the module. -/
def Attribute.namesModule : Attribute → Bool
  | .normal _ name value => (name == "context" && value.static? == some "module") || name == "module"
  | _ => false

def RawBlock.script (b : RawBlock) (start : Nat) : Script where
  span := b.cursor.spanFrom start
  contentSpan := b.contentSpan
  content := b.content
  language := if b.attributes.any Attribute.namesTypeScript then .typeScript else .javaScript
  context := if b.attributes.any Attribute.namesModule then .perModule else .perInstance
  attributes := b.attributes

def RawBlock.style (b : RawBlock) (start : Nat) : Style where
  span := b.cursor.spanFrom start
  contentSpan := b.contentSpan
  content := b.content
  attributes := b.attributes

end Restyle.Markup
