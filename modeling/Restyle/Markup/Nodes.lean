import Restyle.Markup.Attributes
import Restyle.Markup.Closing
import Restyle.Markup.Frame

/-! Reading one node of a markup document. A node without markup inside is read whole; an element or a
block with markup inside opens a frame. Either way the cursor moves on. -/

namespace Restyle.Markup

open Text

/-! ### Elements -/

/-- The node of an element that has been read up to the cursor; its name decides what it is. -/
def elementNode (c : Cursor) (start : Nat) (name : String) (attributes : List Attribute)
    (content : Fragment) (selfClosing : Bool) : Node × Cursor :=
  let span := c.spanFrom start
  let plain := if isComponentName name then .component span name attributes content selfClosing
    else .element span name attributes content selfClosing
  match strip? ['s', 'v', 'e', 'l', 't', 'e', ':'] name.toList with
  | none => (plain, c)
  | some suffix =>
    match SpecialElement.ofName? (String.ofList suffix) with
    | some kind => (.special span kind name attributes content, c)
    | none => (plain, c.fault (.invalidTagName name) span)

namespace Cursor

/-- Raw text up to the closing tag of the given name; its node is left out if it is empty. -/
def rawContent (c : Cursor) (name : String) : Fragment × Cursor :=
  let text := c.breakWhere (Text.startsWith ('<' :: '/' :: name.toList))
  let span := text.2.spanFrom c.offset
  (⟨if text.1.isEmpty then [] else [.text span (String.ofList text.1)], span⟩, text.2)

/-- Text and expressions up to the closing tag of the given name. -/
def textNodes (closing : List Char) (c : Cursor) : List Node × Cursor :=
  match _hc : c.rest with
  | [] => ([], c)
  | d :: ds =>
    if _hclosing : Text.startsWith closing (d :: ds) then ([], c)
    else if _hbrace : d = '{' then
      let inside := (c.moved [d] ds).braced
      let more := inside.2.textNodes closing
      match inside.1 with
      | none => more
      | some e => (.expression (inside.2.spanFrom c.offset) e :: more.1, more.2)
    else
      let text := c.breakWhere fun cs => cs.head? == some '{' || Text.startsWith closing cs
      let more := text.2.textNodes closing
      (.text (text.2.spanFrom c.offset) (String.ofList text.1) :: more.1, more.2)
termination_by c.rest.length
decreasing_by
  · have := (reaches_braced (c.moved [d] ds)).length_le
    rw [_hc, List.length_cons]
    exact Nat.lt_succ_of_le this
  · exact length_breakWhere _hc (by simp [_hclosing, _hbrace])

theorem reaches_textNodes (closing : List Char) (c : Cursor) :
    c.Reaches (c.textNodes closing).2 := by
  fun_induction textNodes closing c with
  | case1 c hc => exact .refl c
  | case2 c d ds hc hclosing => exact .refl c
  | case3 c ds hc _ _ _ _ ih => exact ((reaches_moved_one hc).trans (reaches_braced _)).trans ih
  | case4 c ds hc hclosing inside more e he ih =>
    exact ((reaches_moved_one ‹_›).trans (reaches_braced _)).trans ih
  | case5 c d ds hc hclosing hbrace text more ih => exact (reaches_breakWhere c _).trans ih

def textContent (c : Cursor) (name : String) : Fragment × Cursor :=
  let nodes := c.textNodes ('<' :: '/' :: name.toList)
  (⟨nodes.1, nodes.2.spanFrom c.offset⟩, nodes.2)

end Cursor

/-- What a step finds at the cursor. -/
inductive Found where
  | node (n : Node)
  /-- Something faulty that leaves no node. -/
  | nothing
  | opened (f : Frame)

/-- The name and the attributes at the head of an element, and the cursor after them. -/
structure OpeningTag where
  name : String
  attributes : List Attribute
  cursor : Cursor

/-- The opening tag at the cursor, without its end. -/
def readOpeningTag (c : Cursor) : OpeningTag :=
  let name := (c.moved (c.rest.take 1) (c.rest.drop 1)).takeWhile (!endsTagName ·)
  let attributes := name.2.attributes
  ⟨String.ofList name.1, attributes.1, attributes.2⟩

/-- An element that has been read whole. -/
def OpeningTag.leaf (t : OpeningTag) (start : Nat) (content : Fragment) (selfClosing : Bool)
    (c : Cursor) : Found × Cursor :=
  let node := elementNode c start t.name t.attributes content selfClosing
  (.node node.1, node.2)

/-- An element whose opening tag starts at an offset. -/
def OpeningTag.element (t : OpeningTag) (start : Nat) : Found × Cursor :=
  let empty (c : Cursor) : Fragment := ⟨[], .point c.offset⟩
  match t.cursor.eat? ['/', '>'], t.cursor.eat? ['>'] with
  | some c, _ => t.leaf start (empty c) true c
  | none, none =>
    t.leaf start (empty t.cursor) false
      (t.cursor.fault (.unclosedTag t.name) (t.cursor.spanFrom start))
  | none, some c =>
    if isRawTextElement t.name then
      let content := c.rawContent t.name
      t.leaf start content.1 false (content.2.closeTag t.name start)
    else if isTextElement t.name then
      let content := c.textContent t.name
      t.leaf start content.1 false (content.2.closeTag t.name start)
    else if isVoidElement t.name then t.leaf start (empty t.cursor) false c
    else (.opened ⟨.element t.name t.attributes, start, c.offset, []⟩, c)

/-- An element from its opening tag on; one with markup inside opens a frame. -/
def readElement (c : Cursor) : Found × Cursor := (readOpeningTag c).element c.offset

/-! ### Other nodes -/

/-- Markup begins here: a brace, or a tag, a closing tag or a comment. -/
def opensMarkup : List Char → Bool
  | '{' :: _ => true
  | '<' :: d :: _ => d.isAlpha || d == '/' || d == '!'
  | _ => false

/-- One character and then text up to the next markup. -/
def readText (c : Cursor) : Found × Cursor :=
  let text := (c.moved (c.rest.take 1) (c.rest.drop 1)).breakWhere opensMarkup
  (.node (.text (text.2.spanFrom c.offset) (String.ofList (c.rest.take 1 ++ text.1))), text.2)

/-- A comment after its opening. -/
def readComment (c : Cursor) (start : Nat) : Found × Cursor :=
  let data := c.breakWhere (Text.startsWith ['-', '-', '>'])
  match data.2.eat? ['-', '-', '>'] with
  | some c' => (.node (.comment (c'.spanFrom start) (String.ofList data.1)), c')
  | none =>
    (.node (.comment (data.2.spanFrom start) (String.ofList data.1)),
      data.2.fault .unclosedComment (data.2.spanFrom start))

/-- A special tag after its opening. -/
def readTag (c : Cursor) (start : Nat) : Found × Cursor :=
  let keyword := c.word
  let inside := keyword.2.braced
  match inside.1 with
  | none => (.nothing, inside.2)
  | some e =>
    let span := inside.2.spanFrom start
    match TagKind.ofName? (String.ofList keyword.1) with
    | some kind => (.node (.tag span kind e), inside.2)
    | none =>
      let reason := "unknown tag `\x7b@" ++ String.ofList keyword.1 ++ "\x7d`"
      (.nothing, inside.2.fault (.invalidBlock reason) span)

/-- The branch that an await block begins with: the one whose word comes first after the promise. -/
def firstSlot (header : Expression) : AwaitSlot :=
  match (words header.text.toList).tail.find? fun w => w = "then".toList || w = "catch".toList with
  | none => .pending
  | some w => if w = "then".toList then .resolved else .failed

/-- The name of a snippet ends at its parameters or type parameters; the parameters stand between the
first opening and the last closing parenthesis. -/
def snippetParts (header : String) : String × String :=
  let cs := header.toList
  let name := trim (cs.takeWhile fun c => c ≠ '(' && c ≠ '<')
  let parameters :=
    match cs.dropWhile (· ≠ '(') with
    | _ :: rest => trim ((rest.reverse.dropWhile (· ≠ ')')).drop 1).reverse
    | [] => []
  (String.ofList name, String.ofList parameters)

/-- A block after its opening. -/
def readBlock (c : Cursor) (start : Nat) : Found × Cursor :=
  let keyword := c.word
  let header := keyword.2.braced
  match header.1 with
  | none => (.nothing, header.2)
  | some e =>
    let frame (opened : Opened) : Found × Cursor :=
      (.opened ⟨opened, start, header.2.offset, []⟩, header.2)
    match String.ofList keyword.1 with
    | "if" => frame (.consequent false e)
    | "each" => frame (.eachBody e)
    | "await" => frame (.awaitBranch e {} (firstSlot e))
    | "key" => frame (.key e)
    | "snippet" => frame (.snippet (snippetParts e.text).1 (snippetParts e.text).2)
    | other =>
      let reason := "unknown block `\x7b#" ++ other ++ "\x7d`"
      (.nothing, header.2.fault (.invalidBlock reason) (header.2.spanFrom start))

/-- An expression after its opening brace. -/
def readExpression (c : Cursor) (start : Nat) : Found × Cursor :=
  let inside := c.braced
  match inside.1 with
  | none => (.nothing, inside.2)
  | some e => (.node (.expression (inside.2.spanFrom start) e), inside.2)

/-! ### Any node -/

/-- One node, or the opening of one. -/
def readNode (c : Cursor) : Found × Cursor :=
  match c.eat? ['<', '!', '-', '-'], c.eat? ['{', '#'], c.eat? ['{', '@'], c.eat? ['{'] with
  | some c', _, _, _ => readComment c' c.offset
  | none, some c', _, _ => readBlock c' c.offset
  | none, none, some c', _ => readTag c' c.offset
  | none, none, none, some c' => readExpression c' c.offset
  | none, none, none, none =>
    match c.rest with
    | '<' :: d :: _ => if d.isAlpha then readElement c else readText c
    | _ => readText c

/-! ### Progress -/

open Cursor

theorem reaches_elementNode (c : Cursor) (start : Nat) (name : String) (attributes : List Attribute)
    (content : Fragment) (selfClosing : Bool) :
    c.Reaches (elementNode c start name attributes content selfClosing).2 := by
  unfold elementNode
  dsimp only
  split
  · exact .refl c
  · split
    · exact .refl c
    · exact reaches_fault (.refl c)

theorem reaches_rawContent (c : Cursor) (name : String) : c.Reaches (c.rawContent name).2 :=
  reaches_breakWhere c _

theorem reaches_textContent (c : Cursor) (name : String) : c.Reaches (c.textContent name).2 :=
  reaches_textNodes _ c

/-- Past the first character. -/
theorem reaches_moved_take (c : Cursor) (n : Nat) :
    c.Reaches (c.moved (c.rest.take n) (c.rest.drop n)) :=
  reaches_moved (List.take_append_drop n c.rest).symm

theorem reaches_readOpeningTag (c : Cursor) :
    (c.moved (c.rest.take 1) (c.rest.drop 1)).Reaches (readOpeningTag c).cursor :=
  (reaches_takeWhile _ _).trans (reaches_attributes _)

theorem reaches_leaf (t : OpeningTag) (start : Nat) (content : Fragment) (selfClosing : Bool)
    (c : Cursor) : c.Reaches (t.leaf start content selfClosing c).2 := reaches_elementNode ..

theorem reaches_element (t : OpeningTag) (start : Nat) : t.cursor.Reaches (t.element start).2 := by
  unfold OpeningTag.element
  split
  · exact (reaches_eat? ‹_›).1.trans (reaches_leaf ..)
  · exact (reaches_fault (.refl _)).trans (reaches_leaf ..)
  · have opened := (reaches_eat? ‹t.cursor.eat? ['>'] = some _›).1
    split
    · exact ((opened.trans (reaches_rawContent ..)).trans (reaches_closeTag ..)).trans
        (reaches_leaf ..)
    · split
      · exact ((opened.trans (reaches_textContent ..)).trans (reaches_closeTag ..)).trans
          (reaches_leaf ..)
      · split
        · exact opened.trans (reaches_leaf ..)
        · exact opened

theorem reaches_readElement (c : Cursor) :
    (c.moved (c.rest.take 1) (c.rest.drop 1)).Reaches (readElement c).2 :=
  (reaches_readOpeningTag c).trans (reaches_element ..)

theorem reaches_readText (c : Cursor) :
    (c.moved (c.rest.take 1) (c.rest.drop 1)).Reaches (readText c).2 := reaches_breakWhere _ _

theorem reaches_readComment (c : Cursor) (start : Nat) : c.Reaches (readComment c start).2 := by
  unfold readComment
  dsimp only
  split
  · next h => exact (reaches_breakWhere c _).trans (reaches_eat? h).1
  · exact reaches_fault (reaches_breakWhere c _)

theorem reaches_readTag (c : Cursor) (start : Nat) : c.Reaches (readTag c start).2 := by
  have inside := (reaches_takeWhile c Char.isAlpha).trans (reaches_braced _)
  unfold readTag
  dsimp only
  split
  · exact inside
  · split
    · exact inside
    · exact reaches_fault inside

theorem reaches_readBlock (c : Cursor) (start : Nat) : c.Reaches (readBlock c start).2 := by
  have header := (reaches_takeWhile c Char.isAlpha).trans (reaches_braced _)
  unfold readBlock
  dsimp only
  split
  · exact header
  · split
    · exact header
    · exact header
    · exact header
    · exact header
    · exact header
    · exact reaches_fault header

theorem reaches_readExpression (c : Cursor) (start : Nat) :
    c.Reaches (readExpression c start).2 := by
  unfold readExpression
  dsimp only
  split <;> exact reaches_braced c

/-- Reading a node reads on. -/
theorem reaches_readNode (c : Cursor) : c.Reaches (readNode c).2 := by
  unfold readNode
  split
  · exact (reaches_eat? ‹_›).1.trans (reaches_readComment ..)
  · exact (reaches_eat? ‹_›).1.trans (reaches_readBlock ..)
  · exact (reaches_eat? ‹_›).1.trans (reaches_readTag ..)
  · exact (reaches_eat? ‹_›).1.trans (reaches_readExpression ..)
  · split
    · split
      · exact (reaches_moved_take c 1).trans (reaches_readElement c)
      · exact (reaches_moved_take c 1).trans (reaches_readText c)
    · exact (reaches_moved_take c 1).trans (reaches_readText c)

theorem length_of_eat? {c c' r : Cursor} {piece : List Char} (h : c.eat? piece = some c')
    (hp : piece ≠ []) (hr : c'.Reaches r) : r.rest.length < c.rest.length := by
  have := (reaches_eat? h).2
  have := List.length_pos_iff.2 hp
  have := hr.length_le
  omega

theorem length_of_moved {c r : Cursor} (h : c.rest ≠ [])
    (hr : (c.moved (c.rest.take 1) (c.rest.drop 1)).Reaches r) : r.rest.length < c.rest.length := by
  have := hr.length_le
  have := List.length_pos_iff.2 h
  simp only [rest_moved, List.length_drop] at *
  omega

/-- Reading a node before the end of the text moves the cursor on. -/
theorem length_readNode {c : Cursor} (h : c.rest ≠ []) :
    (readNode c).2.rest.length < c.rest.length := by
  unfold readNode
  split
  · exact length_of_eat? ‹_› (by simp) (reaches_readComment ..)
  · exact length_of_eat? ‹_› (by simp) (reaches_readBlock ..)
  · exact length_of_eat? ‹_› (by simp) (reaches_readTag ..)
  · exact length_of_eat? ‹_› (by simp) (reaches_readExpression ..)
  · split
    · split
      · exact length_of_moved h (reaches_readElement c)
      · exact length_of_moved h (reaches_readText c)
    · exact length_of_moved h (reaches_readText c)

end Restyle.Markup
