import Restyle.Markup.Nodes

/-! What reading a node can find. The reader tries one opening after the other; here each way through it is a case of
its own, with the cursors on that way. What holds of every node is shown by these cases, so nothing else depends on
the order in which the openings are tried. -/

namespace Restyle.Markup

open Text Cursor

/-! ### Elements -/

/-- The node of an element is a component, a plain element or a special element, made of the same parts. -/
theorem elementNode_cases {P : Node → Prop} {c : Cursor} {start : Nat} {name : String} {attributes : List Attribute}
    {content : Fragment} {selfClosing : Bool}
    (hcomponent : P (.component (c.spanFrom start) name attributes content selfClosing))
    (helement : P (.element (c.spanFrom start) name attributes content selfClosing))
    (hspecial : ∀ kind, P (.special (c.spanFrom start) kind name attributes content)) :
    P (elementNode c start name attributes content selfClosing).1 := by
  have hplain : P (if isComponentName name then .component (c.spanFrom start) name attributes content selfClosing
      else .element (c.spanFrom start) name attributes content selfClosing) := by
    split
    · exact hcomponent
    · exact helement
  unfold elementNode
  dsimp only
  split
  · exact hplain
  · split
    · exact hspecial _
    · exact hplain

/-- The ways on from an opening tag: the element is read whole, up to its closing tag if it has one, or it is left
open. -/
inductive OpeningTag.Ends (t : OpeningTag) (start : Nat) : Found → Cursor → Prop where
  | selfClosing {c : Cursor} : t.cursor.eat? ['/', '>'] = some c →
    t.Ends start (.node (elementNode c start t.name t.attributes ⟨[], .point c.offset⟩ true).1)
      (elementNode c start t.name t.attributes ⟨[], .point c.offset⟩ true).2
  | unclosed {c : Cursor} : t.cursor.eat? ['>'] = none →
    t.cursor.fault (.unclosedTag t.name) (t.cursor.spanFrom start) = c →
    t.Ends start (.node (elementNode c start t.name t.attributes ⟨[], .point t.cursor.offset⟩ false).1)
      (elementNode c start t.name t.attributes ⟨[], .point t.cursor.offset⟩ false).2
  | raw {c c' : Cursor} : t.cursor.eat? ['>'] = some c → isRawTextElement t.name = true →
    (c.rawContent t.name).2.closeTag t.name start = c' →
    t.Ends start (.node (elementNode c' start t.name t.attributes (c.rawContent t.name).1 false).1)
      (elementNode c' start t.name t.attributes (c.rawContent t.name).1 false).2
  | text {c c' : Cursor} : t.cursor.eat? ['>'] = some c → isTextElement t.name = true →
    (c.textContent t.name).2.closeTag t.name start = c' →
    t.Ends start (.node (elementNode c' start t.name t.attributes (c.textContent t.name).1 false).1)
      (elementNode c' start t.name t.attributes (c.textContent t.name).1 false).2
  | void {c : Cursor} : t.cursor.eat? ['>'] = some c → isVoidElement t.name = true →
    t.Ends start (.node (elementNode c start t.name t.attributes ⟨[], .point t.cursor.offset⟩ false).1)
      (elementNode c start t.name t.attributes ⟨[], .point t.cursor.offset⟩ false).2
  | opened {c : Cursor} : t.cursor.eat? ['>'] = some c →
    t.Ends start (.opened ⟨.element t.name t.attributes, start, c.offset, []⟩) c

theorem OpeningTag.ends_element (t : OpeningTag) (start : Nat) :
    t.Ends start (t.element start).1 (t.element start).2 := by
  unfold element
  split
  · next hself => exact .selfClosing hself
  · next hopen => exact .unclosed hopen rfl
  · next hopen =>
    split
    · next hraw => exact .raw hopen hraw rfl
    · split
      · next htext => exact .text hopen htext rfl
      · split
        · next hvoid => exact .void hopen hvoid
        · exact .opened hopen

/-- An opening tag has its end in front of the rest of the element, unless it is not closed, which is a fault. -/
theorem OpeningTag.Ends.reaches_end {t : OpeningTag} {start : Nat} {found : Found} {c' : Cursor}
    (h : t.Ends start found c') : (∃ close c, (close = ['>'] ∨ close = ['/', '>']) ∧ t.cursor.eat? close = some c ∧
      c.Reaches c') ∨ (t.cursor.fault (.unclosedTag t.name) (t.cursor.spanFrom start)).Reaches c' := by
  cases h with
  | selfClosing hself => exact .inl ⟨_, _, .inr rfl, hself, reaches_elementNode ..⟩
  | unclosed _ hfault =>
    subst hfault
    exact .inr (reaches_elementNode ..)
  | raw hopen _ hclose =>
    subst hclose
    exact .inl ⟨_, _, .inl rfl, hopen,
      ((reaches_rawContent ..).trans (reaches_closeTag ..)).trans (reaches_elementNode ..)⟩
  | text hopen _ hclose =>
    subst hclose
    exact .inl ⟨_, _, .inl rfl, hopen,
      ((reaches_textContent ..).trans (reaches_closeTag ..)).trans (reaches_elementNode ..)⟩
  | void hopen => exact .inl ⟨_, _, .inl rfl, hopen, reaches_elementNode ..⟩
  | opened hopen => exact .inl ⟨_, _, .inl rfl, hopen, .refl _⟩

theorem OpeningTag.Ends.reaches {t : OpeningTag} {start : Nat} {found : Found} {c' : Cursor}
    (h : t.Ends start found c') : t.cursor.Reaches c' := by
  obtain ⟨_, _, -, heat, hreach⟩ | hreach := h.reaches_end
  · exact (reaches_eat? heat).1.trans hreach
  · exact (reaches_fault (.refl _)).trans hreach

/-! ### Nodes -/

/-- The construct that a keyword begins. -/
inductive Begins : String → (Expression → Opened) → Prop where
  | ifBlock : Begins "if" (.consequent false)
  | eachBlock : Begins "each" .eachBody
  | awaitBlock : Begins "await" fun e => .awaitBranch e {} (firstSlot e)
  | keyBlock : Begins "key" .key
  | snippetBlock : Begins "snippet" fun e => .snippet (snippetParts e.text).1 (snippetParts e.text).2

/-- The ways to read a node at a cursor. -/
inductive Finds (c : Cursor) : Found → Cursor → Prop where
  | comment {c₁ c₂ : Cursor} : c.eat? ['<', '!', '-', '-'] = some c₁ →
    (c₁.breakWhere (Text.startsWith ['-', '-', '>'])).2.eat? ['-', '-', '>'] = some c₂ →
    Finds c (.node (.comment (c₂.spanFrom c.offset)
      (String.ofList (c₁.breakWhere (Text.startsWith ['-', '-', '>'])).1))) c₂
  | unclosedComment {c₁ c₂ : Cursor} : c.eat? ['<', '!', '-', '-'] = some c₁ →
    (c₁.breakWhere (Text.startsWith ['-', '-', '>'])).2 = c₂ →
    Finds c (.node (.comment (c₂.spanFrom c.offset)
      (String.ofList (c₁.breakWhere (Text.startsWith ['-', '-', '>'])).1)))
      (c₂.fault .unclosedComment (c₂.spanFrom c.offset))
  /-- A block or a tag whose brace is not closed. -/
  | unclosed {sign : Char} {c₁ : Cursor} : sign = '#' ∨ sign = '@' → c.eat? ['{', sign] = some c₁ →
    c₁.word.2.braced.1 = none → Finds c .nothing c₁.word.2.braced.2
  /-- A block or a tag with a keyword that none has. -/
  | unknown {sign : Char} {c₁ : Cursor} {e : Expression} (reason : String) : sign = '#' ∨ sign = '@' →
    c.eat? ['{', sign] = some c₁ → c₁.word.2.braced.1 = some e →
    Finds c .nothing (c₁.word.2.braced.2.fault (.invalidBlock reason) (c₁.word.2.braced.2.spanFrom c.offset))
  | block {c₁ : Cursor} {e : Expression} {keyword : String} {opened : Expression → Opened} :
    c.eat? ['{', '#'] = some c₁ → c₁.word.2.braced.1 = some e → String.ofList c₁.word.1 = keyword →
    Begins keyword opened →
    Finds c (.opened ⟨opened e, c.offset, c₁.word.2.braced.2.offset, []⟩) c₁.word.2.braced.2
  | tag {c₁ : Cursor} {e : Expression} (kind : TagKind) : c.eat? ['{', '@'] = some c₁ →
    c₁.word.2.braced.1 = some e →
    Finds c (.node (.tag (c₁.word.2.braced.2.spanFrom c.offset) kind e)) c₁.word.2.braced.2
  | noExpression {c₁ : Cursor} : c.eat? ['{'] = some c₁ → c₁.braced.1 = none → Finds c .nothing c₁.braced.2
  | expression {c₁ : Cursor} {e : Expression} : c.eat? ['{'] = some c₁ → c₁.braced.1 = some e →
    Finds c (.node (.expression (c₁.braced.2.spanFrom c.offset) e)) c₁.braced.2
  | element {d : Char} {rest : List Char} {found : Found} {c' : Cursor} : c.rest = '<' :: d :: rest →
    d.isAlpha = true → (readOpeningTag c).Ends c.offset found c' → Finds c found c'
  | text {c₁ : Cursor} : c.moved (c.rest.take 1) (c.rest.drop 1) = c₁ →
    Finds c (.node (.text ((c₁.breakWhere opensMarkup).2.spanFrom c.offset)
      (String.ofList (c.rest.take 1 ++ (c₁.breakWhere opensMarkup).1)))) (c₁.breakWhere opensMarkup).2

variable {c c₁ : Cursor}

theorem finds_readComment (heat : c.eat? ['<', '!', '-', '-'] = some c₁) :
    Finds c (readComment c₁ c.offset).1 (readComment c₁ c.offset).2 := by
  unfold readComment
  dsimp only
  split
  · next hend => exact .comment heat hend
  · exact .unclosedComment heat rfl

theorem finds_readBlock (heat : c.eat? ['{', '#'] = some c₁) :
    Finds c (readBlock c₁ c.offset).1 (readBlock c₁ c.offset).2 := by
  unfold readBlock
  dsimp only
  split
  · next hnone => exact .unclosed (.inl rfl) heat hnone
  · next hsome =>
    split
    · next hword => exact .block heat hsome hword .ifBlock
    · next hword => exact .block heat hsome hword .eachBlock
    · next hword => exact .block heat hsome hword .awaitBlock
    · next hword => exact .block heat hsome hword .keyBlock
    · next hword => exact .block heat hsome hword .snippetBlock
    · exact .unknown _ (.inl rfl) heat hsome

theorem finds_readTag (heat : c.eat? ['{', '@'] = some c₁) :
    Finds c (readTag c₁ c.offset).1 (readTag c₁ c.offset).2 := by
  unfold readTag
  dsimp only
  split
  · next hnone => exact .unclosed (.inr rfl) heat hnone
  · next hsome =>
    split
    · exact .tag _ heat hsome
    · exact .unknown _ (.inr rfl) heat hsome

theorem finds_readExpression (heat : c.eat? ['{'] = some c₁) :
    Finds c (readExpression c₁ c.offset).1 (readExpression c₁ c.offset).2 := by
  unfold readExpression
  dsimp only
  split
  · next hnone => exact .noExpression heat hnone
  · next hsome => exact .expression heat hsome

/-- A node is read in one of these ways. -/
theorem finds_readNode (c : Cursor) : Finds c (readNode c).1 (readNode c).2 := by
  unfold readNode
  split
  · exact finds_readComment ‹_›
  · exact finds_readBlock ‹_›
  · exact finds_readTag ‹_›
  · exact finds_readExpression ‹_›
  · split
    · next hrest =>
      split
      · next hd => exact .element hrest hd (OpeningTag.ends_element ..)
      · exact .text rfl
    · exact .text rfl

end Restyle.Markup
