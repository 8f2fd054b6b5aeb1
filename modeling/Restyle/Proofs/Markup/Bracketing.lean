import Restyle.Proofs.Markup.Contents
import Restyle.Proofs.Markup.Following

/-! Reading without faults brackets the text. Every character of a faultless text belongs to a node, a script
or the style, and to one of its children if it has fragments there; an element begins with its opening tag,
in which nothing stands between the attributes, and ends with its closing tag; a block begins and ends with
the tags of its own keyword. What skips a part of the text or takes one tag for another leaves a fault. -/

namespace Restyle

open Text

/-! ### Pieces of a text -/

namespace Span

/-- The spans fill what is between two offsets, and none is empty. -/
def Tiles : Nat → List Span → Nat → Prop
  | lo, [], hi => lo = hi
  | lo, s :: spans, hi => s.start = lo ∧ lo < s.stop ∧ Tiles s.stop spans hi

theorem Tiles.append {lo mid hi : Nat} {spans more : List Span} (h : Tiles lo spans mid) (h' : Tiles mid more hi) :
    Tiles lo (spans ++ more) hi := by
  induction spans generalizing lo with
  | nil =>
    obtain rfl : lo = mid := h
    exact h'
  | cons s spans ih => exact ⟨h.1, h.2.1, ih h.2.2⟩

theorem Tiles.single {s : Span} (h : s.start < s.stop) : Tiles s.start [s] s.stop := ⟨rfl, h, rfl⟩

/-- The slice of the span begins with a text and ends, behind it, with one of a kind. -/
def Fences (cs : List Char) (s : Span) (first : List Char) (Last : List Char → Prop) : Prop :=
  ∃ inside last, Last last ∧ Text.slice? cs s.start s.stop = some (first ++ (inside ++ last))

end Span

namespace Markup

open Restyle.Span Cursor

variable {cs : List Char}

/-- Nothing but blanks stands between two offsets, apart from the given spans. -/
def Gapped (cs : List Char) : Nat → List Span → Nat → Prop
  | lo, [], hi => ∃ blanks, Blank blanks ∧ Text.slice? cs lo hi = some blanks
  | lo, s :: spans, hi => (∃ blanks, Blank blanks ∧ Text.slice? cs lo s.start = some blanks) ∧ s.start < s.stop ∧
    Gapped cs s.stop spans hi

/-- An opening tag stands at an offset: a name, attributes with only blanks around them, and the end of the
tag. -/
inductive Tag (cs : List Char) (start : Nat) (name : String) (attributes : List Attribute) (close : List Char)
    (stop : Nat) : Prop where
  | mk {lo hi : Nat} : Text.slice? cs start lo = some ('<' :: name.toList) →
    Gapped cs lo (attributes.map Attribute.span) hi → Text.slice? cs hi stop = some close →
    Tag cs start name attributes close stop

/-- How an element is written, self-closing or not. -/
inductive Tagged (cs : List Char) (span : Span) (name : String) (attributes : List Attribute) : Bool → Prop where
  | selfClosing : Tag cs span.start name attributes ['/', '>'] span.stop → Tagged cs span name attributes true
  | void : Tag cs span.start name attributes ['>'] span.stop → isVoidElement name = true →
    Tagged cs span name attributes false
  | paired {stop : Nat} {inside last : List Char} : Tag cs span.start name attributes ['>'] stop →
    ClosesTag name last → Text.slice? cs stop span.stop = some (inside ++ last) →
    Tagged cs span name attributes false

theorem boundaries_of_slice? {lo hi : Nat} {t : List Char} (h : Text.slice? cs lo hi = some t) :
    lo ≤ hi ∧ Text.isBoundary cs lo = true ∧ Text.isBoundary cs hi = true := by
  obtain ⟨hstands, rfl⟩ := slice?_eq_some_iff.1 h
  have hcuts : (⟨lo, lo + width t⟩ : Span).Cuts cs := cuts_of_stands hstands rfl
  exact ⟨hcuts.le, hcuts.start, hcuts.stop⟩

theorem Tag.isBoundary {start stop : Nat} {name : String} {attributes : List Attribute} {close : List Char}
    (h : Tag cs start name attributes close stop) : Text.isBoundary cs stop = true := by
  cases h with
  | mk _ _ hclose => exact (boundaries_of_slice? hclose).2.2

/-- What stands between the name and the end of a tag is a slice. -/
theorem Gapped.exists_slice? {lo hi : Nat} {spans : List Span} (h : Gapped cs lo spans hi) :
    ∃ t, Text.slice? cs lo hi = some t := by
  induction spans generalizing lo with
  | nil =>
    obtain ⟨blanks, -, h⟩ := h
    exact ⟨blanks, h⟩
  | cons s spans ih =>
    obtain ⟨⟨blanks, -, hblanks⟩, hlt, hrest⟩ := h
    obtain ⟨t, ht⟩ := ih hrest
    obtain ⟨u, hu⟩ := Text.exists_slice? (boundaries_of_slice? hblanks).2.2 (boundaries_of_slice? ht).2.1
      (Nat.le_of_lt hlt)
    exact ⟨_, slice?_append hblanks (slice?_append hu ht)⟩

/-- An element that needs a closing tag stands between its tags. -/
theorem Tagged.fences {span : Span} {name : String} {attributes : List Attribute}
    (h : Tagged cs span name attributes false) (hname : isVoidElement name = false) :
    span.Fences cs ('<' :: name.toList) (ClosesTag name) := by
  cases h with
  | void _ hvoid => simp [hname] at hvoid
  | @paired stop inside last htag hlast hcontent =>
    obtain ⟨hfirst, hgaps, hclose⟩ := htag
    obtain ⟨t, ht⟩ := hgaps.exists_slice?
    refine ⟨t ++ ('>' :: inside), last, hlast, ?_⟩
    rw [slice?_append hfirst (slice?_append ht (slice?_append hclose hcontent))]
    simp

/-! ### What is read is a slice -/

section Reading

variable {c c' : Cursor} {start mid : Nat} {t : List Char}

/-- What a cursor has read is the slice between its offsets. -/
theorem Cursor.On.slice?_read (h : c.On cs) (hreach : c.Reaches c') (hc : c.rest = t ++ c'.rest) :
    Text.slice? cs c.offset c'.offset = some t :=
  slice?_eq_some_iff.2 ⟨h.stands hc, hreach.offset_eq hc⟩

theorem Cursor.On.slice?_eat? {piece : List Char} (h : c.On cs) (heat : c.eat? piece = some c') :
    Text.slice? cs c.offset c'.offset = some piece := h.slice?_read (reaches_eat? heat).1 (rest_of_eat? heat).1

theorem Cursor.On.blanks_skipBlanks (h : c.On cs) :
    ∃ blanks, Blank blanks ∧ Text.slice? cs c.offset c.skipBlanks.offset = some blanks := by
  obtain ⟨blanks, hblanks, hrest, -⟩ := rest_of_skipBlanks c
  exact ⟨blanks, hblanks, h.slice?_read (reaches_skipBlanks c) hrest⟩

/-- Without a fault only blanks stand around attributes. -/
theorem Cursor.On.gapped_attributes (h : c.On cs) (hclean : c.attributes.2.faults = []) :
    Gapped cs c.offset (c.attributes.1.map Attribute.span) c.attributes.2.offset := by
  fun_induction Cursor.attributes c with
  | case1 c hends => exact h.blanks_skipBlanks
  | case2 c hends first more ih =>
    have hreach := reaches_attribute? c.skipBlanks
    have hne : c.skipBlanks.rest ≠ [] := by
      intro hnil
      exact hends (by simp [Cursor.endsAttributes, Cursor.atEnd, hnil])
    obtain ⟨a, ha⟩ := exists_of_attribute? ((reaches_attributes first.2).clean hclean) hne
    have hspan := span_attribute? ha
    have hlt := hreach.offset_lt (length_attribute? hne)
    have hmore := ih ((h.reaches (reaches_skipBlanks c)).reaches hreach) hclean
    show Gapped cs c.offset ((first.1.toList ++ more.1).map Attribute.span) more.2.offset
    rw [show first.1 = some a from ha]
    refine ⟨?_, ?_, ?_⟩
    · rw [hspan]
      exact h.blanks_skipBlanks
    · rw [hspan]
      exact hlt
    · rw [hspan]
      exact hmore

/-- The opening tag that is read at a cursor. -/
theorem tag_readOpeningTag {close : List Char} (h : c.On cs) (hat : c.AtElement)
    (hclean : (readOpeningTag c).cursor.faults = []) (heat : (readOpeningTag c).cursor.eat? close = some c') :
    Tag cs c.offset (readOpeningTag c).name (readOpeningTag c).attributes close c'.offset := by
  obtain ⟨name, c₁, hopens⟩ := exists_opensWith hat
  rw [hopens.tag] at hclean heat ⊢
  have hon := h.reaches hopens.reaches
  refine .mk ?_ (hon.gapped_attributes hclean) ((hon.reaches (reaches_attributes c₁)).slice?_eat? heat)
  rw [String.toList_ofList]
  exact h.slice?_read hopens.reaches hopens.rest

/-- A construct that ends behind a cursor, with a closing piece there. -/
theorem fences_read {first last : List Char} {Last : List Char → Prop} (h : c.On cs)
    (hfirst : Text.slice? cs start mid = some first) (hle : mid ≤ c.offset) (hlast : Last last)
    (hreach : c.Reaches c') (hc : c.rest = last ++ c'.rest) : (c'.spanFrom start).Fences cs first Last := by
  obtain ⟨inside, hinside⟩ := exists_slice? (boundaries_of_slice? hfirst).2.2 h.isBoundary hle
  exact ⟨inside, last, hlast, slice?_append hfirst (slice?_append hinside (h.slice?_read hreach hc))⟩

theorem fences_closeBlock {keyword : String} {first : List Char} (h : c.On cs)
    (hclean : (c.closeBlock keyword start).faults = []) (hfirst : Text.slice? cs start mid = some first)
    (hle : mid ≤ c.offset) : ((c.closeBlock keyword start).spanFrom start).Fences cs first (ClosesBlock keyword) := by
  obtain ⟨last, hlast, hc⟩ := rest_of_closeBlock hclean
  exact fences_read h hfirst hle hlast (reaches_closeBlock ..) hc

theorem tagged_closeTag {name : String} {attributes : List Attribute} (h : c.On cs)
    (hclean : (c.closeTag name start).faults = []) (htag : Tag cs start name attributes ['>'] mid)
    (hle : mid ≤ c.offset) : Tagged cs ((c.closeTag name start).spanFrom start) name attributes false := by
  obtain ⟨last, hlast, hc⟩ := rest_of_closeTag hclean
  obtain ⟨inside, hinside⟩ := exists_slice? htag.isBoundary h.isBoundary hle
  exact .paired htag hlast (slice?_append hinside (h.slice?_read (reaches_closeTag ..) hc))

end Reading

/-! ### Nodes -/

/-- The name of an element. -/
def Node.name? : Node → Option String
  | .element _ name .. | .component _ name .. | .special _ _ name .. => some name
  | _ => none

/-- Whether an element is self-closing. Special elements do not tell. -/
def Node.selfClosing? : Node → Option Bool
  | .element _ _ _ _ selfClosing | .component _ _ _ _ selfClosing => some selfClosing
  | _ => none

/-- The keyword of a block with tags of its own, as else-if blocks do not have. -/
def Node.keyword? : Node → Option String
  | .ifBlock _ elseif .. => if elseif then none else some "if"
  | .eachBlock .. => some "each"
  | .awaitBlock .. => some "await"
  | .keyBlock .. => some "key"
  | .snippetBlock .. => some "snippet"
  | _ => none

/-- The keyword of a construct that is a block with tags of its own. -/
def Opened.keyword? : Opened → Option String
  | .element .. => none
  | .consequent elseif .. | .alternate elseif .. | .chain elseif .. => if elseif then none else some "if"
  | .eachBody .. | .eachFallback .. => some "each"
  | .awaitBranch .. => some "await"
  | .key .. => some "key"
  | .snippet .. => some "snippet"

/-- How a node stands in a text: an element between its tags, a block between those of its keyword, and the
nodes of a fragment of it side by side. -/
structure Node.Brackets (cs : List Char) (n : Node) : Prop where
  element : ∀ name ∈ n.name?, ∃ selfClosing, (∀ b ∈ n.selfClosing?, b = selfClosing) ∧
    Tagged cs n.span name n.attributes selfClosing
  block : ∀ keyword ∈ n.keyword?, n.span.Fences cs ('{' :: '#' :: keyword.toList) (ClosesBlock keyword)
  tiles : ∀ f ∈ n.fragments, Tiles f.span.start (f.nodes.map Node.span) f.span.stop

/-- A fragment whose nodes stand side by side, all of them as they should. -/
structure Fragment.Brackets (cs : List Char) (f : Fragment) : Prop where
  tiles : Tiles f.span.start (f.nodes.map Node.span) f.span.stop
  nodes : ∀ n ∈ f.nodes, n.Everywhere (Node.Brackets cs)

theorem Fragment.Brackets.empty (o : Nat) : (⟨[], .point o⟩ : Fragment).Brackets cs := ⟨rfl, by simp⟩

theorem Node.everywhere_brackets {n : Node}
    (helement : ∀ name ∈ n.name?, ∃ selfClosing, (∀ b ∈ n.selfClosing?, b = selfClosing) ∧
      Tagged cs n.span name n.attributes selfClosing)
    (hblock : ∀ keyword ∈ n.keyword?, n.span.Fences cs ('{' :: '#' :: keyword.toList) (ClosesBlock keyword))
    (hfragments : ∀ f ∈ n.fragments, f.Brackets cs) : n.Everywhere (Node.Brackets cs) := by
  refine .mk ⟨helement, hblock, fun f hf => (hfragments f hf).tiles⟩ fun m hm => ?_
  obtain ⟨f, hf, hm⟩ := List.mem_flatMap.1 hm
  exact (hfragments f hf).nodes m hm

/-- A node that is neither an element nor a block. -/
theorem Node.brackets_leaf {n : Node} (hname : n.name? = none) (hkeyword : n.keyword? = none)
    (hfragments : n.fragments = []) : n.Everywhere (Node.Brackets cs) :=
  everywhere_brackets (by simp [hname]) (by simp [hkeyword]) (by simp [hfragments])

/-- What is known of a construct from the offset where a fragment of it begins. -/
structure Opened.Brackets (cs : List Char) (start offset : Nat) (opened : Opened) : Prop where
  tag : ∀ name attributes, opened = .element name attributes → Tag cs start name attributes ['>'] offset
  block : ∀ keyword ∈ opened.keyword?, ∃ mid, mid ≤ offset ∧
    Text.slice? cs start mid = some ('{' :: '#' :: keyword.toList)
  fragments : ∀ f ∈ opened.fragments, f.Brackets cs

/-! ### Reading a node -/

section Reading

variable {c c' : Cursor} {start : Nat} {content : Fragment}

theorem brackets_elementNode {name : String} {attributes : List Attribute} {selfClosing : Bool}
    (h : Tagged cs (c.spanFrom start) name attributes selfClosing) (hcontent : content.Brackets cs) :
    (elementNode c start name attributes content selfClosing).1.Everywhere (Node.Brackets cs) := by
  have made : ∀ n : Node, n.name? = some name → n.attributes = attributes →
      (∀ b ∈ n.selfClosing?, b = selfClosing) → n.keyword? = none → n.span = c.spanFrom start →
      n.fragments = [content] → n.Everywhere (Node.Brackets cs) := by
    intro n hname hattributes hself hkeyword hspan hfragments
    refine Node.everywhere_brackets (fun name' hname' => ⟨selfClosing, hself, ?_⟩) (by simp [hkeyword])
      (by simpa [hfragments] using hcontent)
    rw [hname] at hname'
    cases hname'
    rw [hspan, hattributes]
    exact h
  exact elementNode_cases (made _ rfl rfl (by simp [Node.selfClosing?]) rfl rfl rfl)
    (made _ rfl rfl (by simp [Node.selfClosing?]) rfl rfl rfl)
    fun _ => made _ rfl rfl (by simp [Node.selfClosing?]) rfl rfl rfl

/-- Text and expressions stand side by side up to the closing tag. -/
theorem tiles_textNodes {closing : List Char} (hclean : (c.textNodes closing).2.faults = []) :
    Tiles c.offset ((c.textNodes closing).1.map Node.span) (c.textNodes closing).2.offset
      ∧ ∀ n ∈ (c.textNodes closing).1, n.Everywhere (Node.Brackets cs) := by
  fun_induction textNodes closing c with
  | case1 c hc => exact ⟨rfl, by simp⟩
  | case2 c d ds hc hclosing => exact ⟨rfl, by simp⟩
  | case3 c ds hc hclosing inside more he ih =>
    obtain ⟨raw, -, -, hsome⟩ := rest_of_braced (c := c.moved ['{'] ds)
      ((reaches_textNodes closing inside.2).clean hclean)
    cases hsome.symm.trans he
  | case4 c ds e hc hclosing inside more he ih =>
    obtain ⟨htiles, hnodes⟩ := ih hclean
    have hlt : c.offset < inside.2.offset :=
      Nat.lt_of_lt_of_le (offset_lt_moved (by simp) ds) (reaches_braced (c.moved ['{'] ds)).offset_le
    exact ⟨⟨rfl, hlt, htiles⟩, List.forall_mem_cons.2 ⟨Node.brackets_leaf rfl rfl rfl, hnodes⟩⟩
  | case5 c d ds hc hclosing hbrace text more ih =>
    obtain ⟨htiles, hnodes⟩ := ih hclean
    have hlt : c.offset < text.2.offset :=
      (reaches_breakWhere c _).offset_lt (length_breakWhere hc (by simp [hclosing, hbrace]))
    exact ⟨⟨rfl, hlt, htiles⟩, List.forall_mem_cons.2 ⟨Node.brackets_leaf rfl rfl rfl, hnodes⟩⟩

theorem brackets_textContent {name : String} (hclean : (c.textContent name).2.faults = []) :
    (c.textContent name).1.Brackets cs := by
  obtain ⟨htiles, hnodes⟩ := tiles_textNodes hclean
  exact ⟨htiles, hnodes⟩

theorem offset_lt_breakWhere {test : List Char → Bool} (h : (c.breakWhere test).1 ≠ []) :
    c.offset < (c.breakWhere test).2.offset := offset_lt_moved h (Text.breakWhere test c.rest).2

theorem brackets_rawContent (c : Cursor) (name : String) : (c.rawContent name).1.Brackets cs := by
  unfold rawContent
  dsimp only
  split
  · next hempty =>
    refine ⟨?_, by simp⟩
    show c.offset = c.offset + width (c.breakWhere _).1
    rw [List.isEmpty_iff.1 hempty]
    rfl
  · next hnot =>
    have hlt := offset_lt_breakWhere (mt List.isEmpty_iff.2 hnot)
    exact ⟨.single hlt, by simpa using Node.brackets_leaf rfl rfl rfl⟩

/-- What was found between two offsets stands as it should. A faultless text has something there. -/
def Found.Brackets (cs : List Char) (start stop : Nat) : Found → Prop
  | .node n => n.span = ⟨start, stop⟩ ∧ n.Everywhere (Node.Brackets cs)
  | .nothing => False
  | .opened f => f.start = start ∧ f.opened.Brackets cs start stop

theorem Found.Brackets.elementNode {name : String} {attributes : List Attribute} {selfClosing : Bool}
    (h : Tagged cs (c.spanFrom start) name attributes selfClosing) (hcontent : content.Brackets cs) :
    (Found.node (Markup.elementNode c start name attributes content selfClosing).1).Brackets cs start
      (Markup.elementNode c start name attributes content selfClosing).2.offset := by
  refine ⟨?_, brackets_elementNode h hcontent⟩
  rw [span_elementNode]
  exact congrArg (Span.mk start) (offset_elementNode ..).symm

/-- An element behind its opening tag. -/
theorem OpeningTag.Ends.brackets {tag : OpeningTag} {found : Found} (hends : tag.Ends start found c')
    (hon : tag.cursor.On cs)
    (htag : ∀ close c, tag.cursor.eat? close = some c → Tag cs start tag.name tag.attributes close c.offset)
    (hclean : c'.faults = []) : found.Brackets cs start c'.offset := by
  have hclosed {c c₁ : Cursor} (hopen : tag.cursor.eat? ['>'] = some c) (hread : c.Reaches c₁)
      (hclean : (c₁.closeTag tag.name start).faults = []) :
      Tagged cs ((c₁.closeTag tag.name start).spanFrom start) tag.name tag.attributes false :=
    tagged_closeTag ((hon.reaches (reaches_eat? hopen).1).reaches hread) hclean (htag _ _ hopen) hread.offset_le
  cases hends with
  | selfClosing hself => exact .elementNode (.selfClosing (htag _ _ hself)) (.empty _)
  | unclosed _ hfault =>
    subst hfault
    cases (reaches_elementNode ..).clean hclean
  | @raw c _ hopen _ hclose =>
    subst hclose
    have hclean := (reaches_elementNode ..).clean hclean
    exact .elementNode (hclosed hopen (reaches_rawContent c tag.name) hclean) (brackets_rawContent c tag.name)
  | @text c _ hopen _ hclose =>
    subst hclose
    have hclean := (reaches_elementNode ..).clean hclean
    exact .elementNode (hclosed hopen (reaches_textContent c tag.name) hclean)
      (brackets_textContent ((reaches_closeTag ..).clean hclean))
  | void hopen hvoid => exact .elementNode (.void (htag _ _ hopen) hvoid) (.empty _)
  | opened hopen =>
    refine ⟨rfl, ?_, by simp [Opened.keyword?], by simp [Opened.fragments]⟩
    rintro name attributes ⟨⟩
    exact htag _ _ hopen

/-- A block that has just been opened, behind its keyword. -/
theorem Begins.brackets {keyword : String} {opened : Expression → Opened} {e : Expression} {mid offset : Nat}
    (hbegins : Begins keyword opened) (hhead : Text.slice? cs start mid = some ('{' :: '#' :: keyword.toList))
    (hmid : mid ≤ offset) : (opened e).Brackets cs start offset := by
  have hnot : ∀ name attributes, opened e ≠ .element name attributes := by
    cases hbegins <;> simp
  have hkeyword : (opened e).keyword? = some keyword := by
    cases hbegins <;> rfl
  refine ⟨fun name attributes heq => absurd heq (hnot _ _), fun keyword' hmem => ?_, by simp [hbegins.fragments]⟩
  cases hkeyword.symm.trans hmem
  exact ⟨mid, hmid, hhead⟩

theorem Finds.brackets {found : Found} (hfinds : Finds c found c') (h : c.On cs) (hclean : c'.faults = []) :
    found.Brackets cs c.offset c'.offset := by
  have hunclosed {c₁ : Cursor} (hclean : c₁.braced.2.faults = []) (hnone : c₁.braced.1 = none) : False := by
    obtain ⟨raw, -, -, hsome⟩ := rest_of_braced hclean
    cases hsome.symm.trans hnone
  cases hfinds with
  | comment | unclosedComment | tag | expression | text => exact ⟨rfl, Node.brackets_leaf rfl rfl rfl⟩
  | unclosed _ _ hnone | noExpression _ hnone => exact (hunclosed hclean hnone).elim
  | unknown => cases hclean
  | @block c₁ _ _ _ heat _ hword hbegins =>
    subst hword
    have hhead := slice?_append (h.slice?_eat? heat)
      ((h.reaches (reaches_eat? heat).1).slice?_read (reaches_takeWhile c₁ Char.isAlpha) (rest_of_takeWhile c₁ _).1)
    refine ⟨rfl, hbegins.brackets ?_ (reaches_braced c₁.word.2).offset_le⟩
    rw [String.toList_ofList]
    exact hhead
  | element hrest hd hends =>
    have hclean' := hends.reaches.clean hclean
    have hreach := (reaches_moved_take c 1).trans (reaches_readOpeningTag c)
    exact hends.brackets (h.reaches hreach) (fun close c' => tag_readOpeningTag h ⟨_, _, hrest, hd⟩ hclean') hclean

/-- What is read without a fault stands as it should. -/
theorem brackets_readNode (h : c.On cs) (hclean : (readNode c).2.faults = []) :
    (readNode c).1.Brackets cs c.offset (readNode c).2.offset := (finds_readNode c).brackets h hclean

end Reading

/-! ### The end of a fragment -/

section Leaving

variable {c c' : Cursor} {start offset : Nat} {opened : Opened} {content : Fragment} {left : Left}

/-- What is left of a construct that starts at an offset stands as it should, up to another offset. -/
def Left.Brackets (cs : List Char) (start offset : Nat) : Left → Prop
  | .done n => n.Everywhere (Node.Brackets cs)
  | .next opened => opened.Brackets cs start offset
  | .branch elseif test consequent _ => (Opened.chain elseif test consequent).Brackets cs start offset

theorem Opened.Brackets.fragment {f : Fragment} (h : opened.Brackets cs start offset) (hcontent : content.Brackets cs)
    (hf : f ∈ opened.fragments ++ [content]) : f.Brackets cs :=
  List.forall_mem_append.2 ⟨h.fragments, List.forall_mem_singleton.2 hcontent⟩ f hf

/-- A block that is done, with its closing tag at a cursor. -/
theorem Opened.Brackets.done {n : Node} (h : opened.Brackets cs start offset) (hcontent : content.Brackets cs)
    (hname : n.name? = none) (hkeyword : n.keyword? = opened.keyword?)
    (hclose : ∀ keyword ∈ opened.keyword?, ∃ c : Cursor, c.On cs ∧ offset ≤ c.offset ∧
      (c.closeBlock keyword start).faults = [] ∧ n.span = (c.closeBlock keyword start).spanFrom start)
    (hfragments : ∀ f ∈ n.fragments, f ∈ opened.fragments ++ [content]) : n.Everywhere (Node.Brackets cs) := by
  refine Node.everywhere_brackets (by simp [hname]) (fun keyword hmem => ?_) fun f hf =>
    h.fragment hcontent (hfragments f hf)
  rw [hkeyword] at hmem
  obtain ⟨mid, hmid, hfirst⟩ := h.block keyword hmem
  obtain ⟨c, hc, hle, hclean, hspan⟩ := hclose keyword hmem
  rw [hspan]
  exact fences_closeBlock hc hclean hfirst (Nat.le_trans hmid hle)

/-- The next branch of a block. -/
theorem Opened.Brackets.next {opened' : Opened} {offset' : Nat} (h : opened.Brackets cs start offset)
    (hcontent : content.Brackets cs) (hnot : ∀ name attributes, opened' ≠ .element name attributes)
    (hkeyword : opened'.keyword? = opened.keyword?) (hle : offset ≤ offset')
    (hfragments : ∀ f ∈ opened'.fragments, f ∈ opened.fragments ++ [content]) :
    opened'.Brackets cs start offset' := by
  refine ⟨fun name attributes heq => absurd heq (hnot _ _), fun keyword hmem => ?_, fun f hf =>
    h.fragment hcontent (hfragments f hf)⟩
  rw [hkeyword] at hmem
  obtain ⟨mid, hmid, hfirst⟩ := h.block keyword hmem
  exact ⟨mid, Nat.le_trans hmid hle, hfirst⟩

variable (hc : c.On cs) (hle : offset ≤ c.offset) (hcontent : content.Brackets cs)

include hc hle hcontent

theorem brackets_ifNode {elseif : Bool} {test : Expression} {consequent : Fragment} {alternate : Option Fragment}
    (h : opened.Brackets cs start offset) (hopened : opened.keyword? = if elseif then none else some "if")
    (hclean : (Reader.ifNode c start elseif test consequent alternate).2.faults = [])
    (hfragments : ∀ f ∈ consequent :: alternate.toList, f ∈ opened.fragments ++ [content]) :
    (Reader.ifNode c start elseif test consequent alternate).1.Everywhere (Node.Brackets cs) := by
  refine h.done hcontent rfl hopened.symm (fun keyword hmem => ?_) hfragments
  cases elseif with
  | true =>
    rw [hopened] at hmem
    cases hmem
  | false =>
    rw [hopened] at hmem
    cases hmem
    exact ⟨c, hc, hle, hclean, rfl⟩

theorem brackets_closeBlock {n : Node} {keyword : String} {c₁ : Cursor} (h : opened.Brackets cs start offset)
    (hopened : opened.keyword? = some keyword) (hreach : c.Reaches c₁)
    (hclean : (c₁.closeBlock keyword start).faults = []) (hname : n.name? = none) (hkeyword : n.keyword? = some keyword)
    (hspan : n.span = (c₁.closeBlock keyword start).spanFrom start)
    (hfragments : ∀ f ∈ n.fragments, f ∈ opened.fragments ++ [content]) : n.Everywhere (Node.Brackets cs) := by
  refine h.done hcontent hname (hkeyword.trans hopened.symm) (fun keyword' hmem => ?_) hfragments
  cases hopened.symm.trans hmem
  exact ⟨c₁, hc.reaches hreach, Nat.le_trans hle hreach.offset_le, hclean, hspan⟩

/-- What a construct comes to when a fragment of it has ended without a fault. -/
theorem Leaves.brackets (hleave : Leaves start content c opened left c') (h : opened.Brackets cs start offset)
    (hclean : c'.faults = []) : left.Brackets cs start c'.offset := by
  have hle' := Nat.le_trans hle hleave.further.reaches.offset_le
  have hnext := reaches_continuation? c
  have hkept : ∀ f ∈ left.fragments, f ∈ opened.fragments ++ [content] := hleave.fragments.subset
  cases hleave with
  | element name attributes =>
    have hclean := (reaches_elementNode ..).clean hclean
    exact brackets_elementNode (tagged_closeTag hc hclean (h.tag _ _ rfl) hle) hcontent
  | endIf =>
    exact brackets_ifNode (hc.reaches hnext) (Nat.le_trans hle hnext.offset_le) hcontent h rfl hclean hkept
  | elseIf => exact h.next hcontent (by simp) rfl hle' hkept
  | orElse => exact h.next hcontent (by simp) rfl hle' hkept
  | alternate | chain => exact brackets_ifNode hc hle hcontent h rfl hclean hkept
  | endEach hends => cases hends <;> exact brackets_closeBlock hc hle hcontent h rfl hnext hclean rfl rfl rfl hkept
  | eachElse hends => cases hends <;> exact h.next hcontent (by simp) rfl hle' hkept
  | endAwait header branches slot hstored =>
    subst hstored
    exact brackets_closeBlock hc hle hcontent h rfl ((Reader.reaches_storeBranch ..).trans (reaches_continuation? _))
      hclean rfl rfl rfl hkept
  | awaitNext header branches slot hstored =>
    subst hstored
    exact h.next hcontent (by simp) rfl hle' hkept
  | key | snippet => exact brackets_closeBlock hc hle hcontent h rfl (.refl c) hclean rfl rfl rfl hkept

end Leaving

/-! ### The recursion -/

/-- Where the text of a job begins. -/
def Job.start (c : Cursor) : Job → Nat
  | .rest _ start => start
  | .node | .fragment => c.offset

/-- What a job needs to give nodes that stand as they should. -/
def Job.Brackets (cs : List Char) (c : Cursor) : Job → Prop
  | .node => c.rest ≠ []
  | .fragment => True
  | .rest opened start => start < c.offset ∧ opened.Brackets cs start c.offset

/-- A construct that has read a fragment without a fault. -/
theorem Yields.brackets_leave {opened : Opened} {start : Nat} {c c₁ c₂ : Cursor} {ns : List Node} {left : Left}
    (h : Yields .fragment c ns c₁)
    (hfragment : c₁.faults = [] → Tiles c.offset (ns.map Node.span) c₁.offset
      ∧ ∀ n ∈ ns, n.Everywhere (Node.Brackets cs))
    (hc : c.On cs) (hopened : opened.Brackets cs start c.offset) (hclean : c₂.faults = [])
    (hleave : leaving opened start ⟨ns, c₁.spanFrom c.offset⟩ c₁ = (left, c₂)) :
    left.Brackets cs start c₂.offset ∧ c.Reaches c₂ ∧ ((∀ n, left ≠ .done n) → c₁.offset < c₂.offset) := by
  have hleaves := leaves_of_leaving hleave
  have hfurther := hleaves.further
  obtain ⟨htiles, hnodes⟩ := hfragment (hfurther.reaches.clean hclean)
  have hcontent : (⟨ns, c₁.spanFrom c.offset⟩ : Fragment).Brackets cs := ⟨htiles, hnodes⟩
  have hleft := hleaves.brackets (hc.reaches h.reaches) h.reaches.offset_le hcontent hopened hclean
  exact ⟨hleft, h.reaches.trans hfurther.reaches, fun hnot => hfurther.reaches.offset_lt (hfurther.shorter hnot)⟩

/-- The nodes that a job gives without a fault stand side by side, and each as it should. -/
theorem Yields.brackets {job : Job} {c c' : Cursor} {ns : List Node} (h : Yields job c ns c') (hc : c.On cs)
    (hjob : job.Brackets cs c) (hclean : c'.faults = []) :
    Tiles (job.start c) (ns.map Node.span) c'.offset ∧ ∀ n ∈ ns, n.Everywhere (Node.Brackets cs) := by
  have one : ∀ {n : Node} {start stop : Nat}, n.span = ⟨start, stop⟩ → start < stop →
      n.Everywhere (Node.Brackets cs) →
      Tiles start ([n].map Node.span) stop ∧ ∀ m ∈ [n], m.Everywhere (Node.Brackets cs) := by
    intro n start stop hspan hlt hn
    refine ⟨?_, List.forall_mem_singleton.2 hn⟩
    rw [List.map_singleton, hspan]
    exact .single hlt
  induction h with
  | @leaf c n hfound =>
    have hnode := brackets_readNode hc hclean
    rw [hfound] at hnode
    exact one hnode.1 ((reaches_readNode c).offset_lt (length_readNode hjob)) hnode.2
  | nothing hfound =>
    have hnode := brackets_readNode hc hclean
    rw [hfound] at hnode
    exact hnode.elim
  | @opened c c' f ns hfound hrest ih =>
    have hnode := brackets_readNode hc (hrest.reaches.clean hclean)
    rw [hfound] at hnode
    obtain ⟨hstart, hopened⟩ := hnode
    have hlt := (reaches_readNode c).offset_lt (length_readNode hjob)
    rw [← hstart] at hlt hopened
    have hlast := ih (hc.reaches (reaches_readNode c)) ⟨hlt, hopened⟩ hclean
    rwa [show (Job.rest f.opened f.start).start (readNode c).2 = c.offset from hstart] at hlast
  | ends hends => exact ⟨rfl, by simp⟩
  | more hends hnode hmore ih ih' =>
    obtain ⟨htiles, hfirst⟩ := ih hc (rest_ne_nil hends) (hmore.reaches.clean hclean)
    obtain ⟨htiles', hlast⟩ := ih' (hc.reaches hnode.reaches) trivial hclean
    rw [List.map_append]
    refine ⟨htiles.append htiles', fun n hn => ?_⟩
    rcases List.mem_append.1 hn with hn | hn
    · exact hfirst n hn
    · exact hlast n hn
  | done hcontent hleave ih =>
    obtain ⟨hleft, hreach, -⟩ := hcontent.brackets_leave (ih hc trivial) hc hjob.2 hclean hleave
    exact one (leaves_of_leaving hleave).span (Nat.lt_of_lt_of_le hjob.1 hreach.offset_le) hleft
  | next hcontent hleave hrest ih ih' =>
    obtain ⟨hleft, hreach, -⟩ := hcontent.brackets_leave (ih hc trivial) hc hjob.2 (hrest.reaches.clean hclean) hleave
    exact ih' (hc.reaches hreach) ⟨Nat.lt_of_lt_of_le hjob.1 hreach.offset_le, hleft⟩ hclean
  | @branch opened start c c₁ c₂ c₃ ns n elseif test test' consequent hcontent hleave hrest ih ih' =>
    have hlast : c₃.Reaches (Reader.ifNode c₃ start elseif test consequent (some ⟨[n], n.span⟩)).2 :=
      Reader.reaches_ifNode ..
    have hclean' := hlast.clean hclean
    obtain ⟨hleft, hreach, hlt⟩ :=
      hcontent.brackets_leave (ih hc trivial) hc hjob.2 (hrest.reaches.clean hclean') hleave
    have hlt := hlt (by simp)
    -- an else-if block has no tags of its own
    have hopened : (Opened.consequent true test').Brackets cs c₁.offset c₂.offset :=
      ⟨by simp, by simp [Opened.keyword?], by simp [Opened.fragments]⟩
    obtain ⟨-, hbranch⟩ := ih' (hc.reaches hreach) ⟨hlt, hopened⟩ hclean'
    have halternate : (⟨[n], n.span⟩ : Fragment).Brackets cs := by
      refine ⟨.single ?_, hbranch⟩
      rw [hrest.span]
      exact Nat.lt_of_lt_of_le hlt hrest.reaches.offset_le
    have hnode := brackets_ifNode (hc.reaches (hreach.trans hrest.reaches)) hrest.reaches.offset_le halternate hleft
      rfl hclean (by simp [Opened.fragments])
    exact one rfl (Nat.lt_of_lt_of_le hjob.1 ((hreach.trans hrest.reaches).trans hlast).offset_le) hnode

/-! ### Scripts and styles -/

section Raw

variable {c : Cursor} {name : List Char}

theorem tagged_rawBlock (hc : c.On cs) (hat : c.atTag name = true) (hname : ∀ d ∈ name, endsTagName d = false)
    (hclean : (c.rawBlock name).cursor.faults = []) : ∃ selfClosing,
      Tagged cs ((c.rawBlock name).cursor.spanFrom c.offset) (String.ofList name) (c.rawBlock name).attributes
        selfClosing := by
  obtain ⟨t, hrest, -⟩ := rest_of_atTag hat
  have hreach : c.Reaches (c.moved ('<' :: name) t) := reaches_moved hrest
  have hhead : Text.slice? cs c.offset (c.moved ('<' :: name) t).offset =
      some ('<' :: (String.ofList name).toList) := by
    rw [String.toList_ofList]
    exact hc.slice?_read hreach hrest
  obtain ⟨hreads, hattributes, hread⟩ := readsRaw_rawBlock hclean hrest
  have hon := hc.reaches hreach
  have hgaps := hon.gapped_attributes (hread.clean hclean)
  have hon := hon.reaches (reaches_attributes _)
  rw [hattributes]
  cases hreads with
  | selfClosing hclose hspan => exact ⟨true, .selfClosing (.mk hhead hgaps (hon.slice?_read hread hclose))⟩
  | content text blanks hblanks hfree hclose hspan hcontent =>
    have hall := hon.slice?_read (t := ['>'] ++ (text ++ ('<' :: '/' :: (name ++ (blanks ++ ['>']))))) hread
      (by rw [hclose]; simp)
    obtain ⟨hopen, hinside⟩ := slice?_append_iff.1 hall
    exact ⟨false, .paired (.mk hhead hgaps hopen) ⟨by simpa using hname, blanks, hblanks, by simp⟩ hinside⟩

end Raw

/-! ### Documents -/

namespace Reader

variable {r r' : Reader}

/-- What has been read at the top of a document stands as it should. -/
structure Brackets (cs : List Char) (r : Reader) : Prop where
  root : ∃ spans, spans.Perm (r.nodes.map Node.span ++ r.raws.map Prod.fst) ∧ Tiles 0 spans r.cursor.offset
  nodes : ∀ n ∈ r.nodes, n.Everywhere (Node.Brackets cs)
  scripts : ∀ s ∈ r.moduleScript.toList ++ r.instanceScript.toList,
    ∃ selfClosing, Tagged cs s.span "script" s.attributes selfClosing
  style : ∀ s ∈ r.style, ∃ selfClosing, Tagged cs s.span "style" s.attributes selfClosing

/-- A script or style comes next. -/
theorem Brackets.root_raw (h : r.Brackets cs) (content : Span) (hlt : r.cursor.offset < r'.cursor.offset)
    (hnodes : r'.nodes = r.nodes) (hraws : r'.raws.Perm ((r'.cursor.spanFrom r.cursor.offset, content) :: r.raws)) :
    ∃ spans, spans.Perm (r'.nodes.map Node.span ++ r'.raws.map Prod.fst) ∧ Tiles 0 spans r'.cursor.offset := by
  obtain ⟨spans, hperm, htiles⟩ := h.root
  have hlast : Tiles r.cursor.offset [r'.cursor.spanFrom r.cursor.offset] r'.cursor.offset := .single hlt
  refine ⟨_, ?_, htiles.append hlast⟩
  rw [hnodes]
  calc
    spans ++ [r'.cursor.spanFrom r.cursor.offset] |>.Perm (r'.cursor.spanFrom r.cursor.offset :: spans) :=
      List.perm_append_singleton ..
    _ |>.Perm (r'.cursor.spanFrom r.cursor.offset :: (r.nodes.map Node.span ++ r.raws.map Prod.fst)) := hperm.cons _
    _ |>.Perm (r.nodes.map Node.span ++ r'.cursor.spanFrom r.cursor.offset :: r.raws.map Prod.fst) :=
      List.perm_middle.symm
    _ |>.Perm (r.nodes.map Node.span ++ r'.raws.map Prod.fst) := (hraws.map Prod.fst).symm.append_left _

theorem reaches_rawBlock_at {c : Cursor} {name : List Char} (hat : c.atTag name = true) :
    c.Reaches (c.rawBlock name).cursor ∧ c.offset < (c.rawBlock name).cursor.offset :=
  ⟨reaches_rawBlock_start c name, (reaches_rawBlock_start c name).offset_lt (length_of_atTag hat (reaches_rawBlock ..))⟩

/-- Without a fault a script is the first one of its kind. -/
theorem readScript_of_clean (hclean : r.readScript.cursor.faults = []) :
    (r.moduleScript = none ∧ r.readScript = { r with
      cursor := (r.cursor.rawBlock "script".toList).cursor
      moduleScript := some ((r.cursor.rawBlock "script".toList).script r.cursor.offset) }) ∨
    (r.instanceScript = none ∧ r.readScript = { r with
      cursor := (r.cursor.rawBlock "script".toList).cursor
      instanceScript := some ((r.cursor.rawBlock "script".toList).script r.cursor.offset) }) := by
  unfold readScript at hclean ⊢
  dsimp only at hclean ⊢
  split
  · next hcontext =>
    rw [hcontext] at hclean
    cases hscript : r.moduleScript with
    | none => exact .inl ⟨rfl, rfl⟩
    | some script =>
      rw [hscript] at hclean
      cases hclean
  · next hcontext =>
    rw [hcontext] at hclean
    cases hscript : r.instanceScript with
    | none => exact .inr ⟨rfl, rfl⟩
    | some script =>
      rw [hscript] at hclean
      cases hclean

theorem Brackets.readScript (h : r.Brackets cs) (hc : r.cursor.On cs) (hat : r.cursor.atTag "script".toList = true)
    (hclean : r.readScript.cursor.faults = []) : r.readScript.Brackets cs := by
  obtain ⟨-, hlt⟩ := reaches_rawBlock_at hat
  have htagged := tagged_rawBlock hc hat (forall_mem_of_all rfl)
  rcases readScript_of_clean hclean with ⟨hnone, heq⟩ | ⟨hnone, heq⟩
  · rw [heq] at hclean ⊢
    refine ⟨h.root_raw (r.cursor.rawBlock "script".toList).contentSpan hlt rfl ?_, h.nodes, fun s hs => ?_, h.style⟩
    · rw [raws, raws, hnone]
      exact .refl _
    · rcases List.mem_append.1 hs with hs | hs
      · rw [List.mem_singleton.1 hs]
        exact htagged hclean
      · exact h.scripts s (List.mem_append_right _ hs)
  · rw [heq] at hclean ⊢
    refine ⟨h.root_raw (r.cursor.rawBlock "script".toList).contentSpan hlt rfl ?_, h.nodes, fun s hs => ?_, h.style⟩
    · rw [raws, raws, hnone]
      simp only [rawSpans, List.map_append, Option.toList_none, Option.toList_some, List.map_cons, List.map_nil,
        List.append_nil, List.append_assoc]
      exact List.perm_middle
    · rcases List.mem_append.1 hs with hs | hs
      · exact h.scripts s (List.mem_append_left _ hs)
      · rw [List.mem_singleton.1 hs]
        exact htagged hclean

theorem Brackets.readStyle (h : r.Brackets cs) (hc : r.cursor.On cs) (hat : r.cursor.atTag "style".toList = true)
    (hclean : r.readStyle.cursor.faults = []) : r.readStyle.Brackets cs := by
  obtain ⟨-, hlt⟩ := reaches_rawBlock_at hat
  have htagged := tagged_rawBlock hc hat (forall_mem_of_all rfl)
  unfold Reader.readStyle at hclean ⊢
  dsimp only at hclean ⊢
  cases hstyle : r.style with
  | some style =>
    rw [hstyle] at hclean
    cases hclean
  | none =>
    rw [hstyle] at hclean
    refine ⟨h.root_raw (r.cursor.rawBlock "style".toList).contentSpan hlt rfl ?_, h.nodes, h.scripts, ?_⟩
    · rw [raws, raws, hstyle]
      simp only [rawSpans, Option.toList_none, List.map_nil, List.append_nil]
      exact List.perm_append_singleton ..
    · rintro s ⟨⟩
      exact htagged hclean

/-- What has been read stands as it should, if there was no fault in it. -/
structure Tracks (cs : List Char) (r : Reader) : Prop where
  on : r.cursor.On cs
  brackets : r.cursor.faults = [] → r.Brackets cs

theorem Tracks.advances (h : r.Tracks cs) (hstep : Advances r r') : r'.Tracks cs := by
  obtain ⟨hc, h⟩ := h
  refine ⟨hc.reaches hstep.leads.reaches, fun hclean => ?_⟩
  cases hstep with
  | node hframes hrest hreads hnode =>
    have h := h (hnode.reaches.clean hclean)
    obtain ⟨htiles, hnodes⟩ := hnode.brackets hc hrest hclean
    obtain ⟨spans, hperm, hspans⟩ := h.root
    refine ⟨⟨_, ?_, hspans.append htiles⟩, fun n hn => ?_, h.scripts, h.style⟩
    · rw [List.map_append, List.map_reverse, List.append_assoc]
      exact List.perm_append_comm.trans ((List.reverse_perm _).symm.append hperm)
    · rcases List.mem_append.1 hn with hn | hn
      · exact hnodes n (List.mem_reverse.1 hn)
      · exact h.nodes n hn
  | other hframes hrest hreads =>
    have h := h ((reaches_readTop r).clean hclean)
    cases takesTop hframes hreads with
    | script hat htop =>
      rw [htop] at hclean ⊢
      exact h.readScript hc hat hclean
    | style hat htop =>
      rw [htop] at hclean ⊢
      exact h.readStyle hc hat hclean
    | closingTag _ htop =>
      rw [htop] at hclean
      cases hclean
    | blockTag htop =>
      rw [htop] at hclean
      cases hclean

end Reader

/-- All that was read from a source stands in it between the tags that belong to it, and nothing stands
beside it. -/
structure Reading.Brackets (source : String) (r : Reading) : Prop where
  /-- The nodes of the document with its scripts and style are all of the source. -/
  root : ∃ spans, spans.Perm (r.document.fragment.nodes.map Node.span ++ r.document.raws.map Prod.fst) ∧
    Tiles 0 spans (width source.toList)
  nodes : ∀ n ∈ subnodes r.document.fragment.nodes, n.Brackets source.toList
  /-- Elements that are neither void nor self-closing. -/
  elements : ∀ n ∈ subnodes r.document.fragment.nodes, ∀ name ∈ n.name?, n.selfClosing? = some false →
    isVoidElement name = false → n.span.Fences source.toList ('<' :: name.toList) (ClosesTag name)
  scripts : ∀ s ∈ r.document.scripts,
    ∃ selfClosing, Tagged source.toList s.span "script" s.attributes selfClosing
  style : ∀ s ∈ r.document.style, ∃ selfClosing, Tagged source.toList s.span "style" s.attributes selfClosing

/-- Reading without faults takes in all of a source, tag by tag. -/
theorem brackets_read (source : String) (h : (read source).faults = []) : (read source).Brackets source := by
  have hclean : (Reader.ofText source).run.cursor.faults = [] := List.reverse_eq_nil_iff.1 h
  have hfirst : (Reader.ofText source).Tracks source.toList :=
    ⟨on_ofText _, fun _ =>
      ⟨⟨[], .refl _, rfl⟩, by simp [Reader.ofText], by simp [Reader.ofText], by simp [Reader.ofText]⟩⟩
  have hrun : (Reader.ofText source).run.Tracks source.toList :=
    Reader.run_induction rfl hfirst fun r r' hr hstep => hr.advances hstep
  obtain ⟨⟨spans, hperm, htiles⟩, hnodes, hscripts, hstyle⟩ := hrun.brackets hclean
  have hoffset : (Reader.ofText source).run.cursor.offset = width source.toList := by
    obtain ⟨before, hsource, hoffset⟩ := hrun.on
    rw [(Reader.advances_run rfl).2, List.append_nil] at hsource
    rw [hoffset, hsource]
  have hbrackets := forall_subnodes fun n hn => hnodes n (List.mem_reverse.1 hn)
  refine ⟨⟨spans, ?_, hoffset ▸ htiles⟩, hbrackets, fun n hn name hname hself hvoid => ?_, hscripts, hstyle⟩
  · refine hperm.trans (.append_right _ ?_)
    exact ((List.reverse_perm _).map _).symm
  · obtain ⟨selfClosing, hagree, htagged⟩ := (hbrackets n hn).element name hname
    obtain rfl := hagree false hself
    exact htagged.fences hvoid

/-- A page with a script, an if block of two branches, and an element between tags in each. -/
def branchedPage : String :=
  "<script>let a;</script>\x7b#if a\x7d<p class=\"b\" >c</p>\x7b:else if d\x7d<i>e<br></i>\x7b/if\x7d"

theorem brackets_read_branchedPage : (read branchedPage).faults = [] ∧ (read branchedPage).Brackets branchedPage := by
  have h : (read branchedPage).faults = [] := by decide +kernel
  exact ⟨h, brackets_read branchedPage h⟩

end Markup

end Restyle
