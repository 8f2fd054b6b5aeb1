import Restyle.Proofs.Markup.Alike
import Restyle.Proofs.Markup.Tags

/-! Nodes that are read again. A node that was read without a fault is read in the same way wherever its
text stands, if the two characters behind it are the same; what comes of it is alike but for places. -/

namespace Restyle.Markup

open Text

variable {R : List Attribute → List Attribute → Prop}

/-- The text of an expression does not depend on its place. -/
theorem text_eq_ofRaw (o o' : Nat) (raw : List Char) : (Expression.ofRaw o' raw).text = (Expression.ofRaw o raw).text :=
  rfl

/-! ### Elements -/

/-- A name with the prefix of special elements that none of them has. -/
def isUnknownSpecial (name : String) : Bool :=
  match strip? ['s', 'v', 'e', 'l', 't', 'e', ':'] name.toList with
  | none => false
  | some suffix => (SpecialElement.ofName? (String.ofList suffix)).isNone

theorem snd_elementNode (c : Cursor) (start : Nat) (name : String) (attributes : List Attribute)
    (content : Fragment) (selfClosing : Bool) :
    (elementNode c start name attributes content selfClosing).2 =
      if isUnknownSpecial name then c.fault (.invalidTagName name) (c.spanFrom start) else c := by
  unfold elementNode isUnknownSpecial
  cases strip? ['s', 'v', 'e', 'l', 't', 'e', ':'] name.toList with
  | none => rfl
  | some suffix =>
    dsimp only
    split
    · next kind hkind => exact (if_neg (by rw [hkind]; exact Bool.false_ne_true)).symm
    · next hnone => exact (if_pos (by rw [hnone]; rfl)).symm

section Elements

open Cursor

variable {c c' : Cursor} {t u z z' : List Char} {start start' : Nat}

/-- An element whose node is made without a fault. -/
theorem clean_elementNode {name : String} {attributes : List Attribute} {content : Fragment}
    {selfClosing : Bool} (h : (elementNode c start name attributes content selfClosing).2.faults = []) :
    isUnknownSpecial name = false ∧ (elementNode c start name attributes content selfClosing).2 = c := by
  rw [snd_elementNode] at h ⊢
  cases hname : isUnknownSpecial name with
  | true =>
    rw [hname] at h
    cases h
  | false => exact ⟨rfl, rfl⟩

theorem Cursor.Sees.elementNode {name : String} (h : c.Sees z) (hname : isUnknownSpecial name = false)
    (attributes : List Attribute) (content : Fragment) (selfClosing : Bool) :
    (Markup.elementNode c start name attributes content selfClosing).2.Sees z := by
  rw [snd_elementNode, hname]
  exact h

/-- The raw content of an element with its closing tag. -/
theorem Cursor.Sees.rawContent {name : String} (hclean : ((c.rawContent name).2.closeTag name start).faults = [])
    (hc : c.rest = t ++ z) (hz : ((c.rawContent name).2.closeTag name start).rest = z)
    (h : c'.Sees (t ++ z')) : LikeNodes R (c.rawContent name).1.nodes (c'.rawContent name).1.nodes
      ∧ ((c'.rawContent name).2.closeTag name start').Sees z' := by
  obtain ⟨hsplit, -⟩ := rest_of_breakWhere c (Text.startsWith ('<' :: '/' :: name.toList))
  obtain ⟨closing, hcloses, hclosing⟩ := rest_of_closeTag hclean
  rw [hz] at hclosing
  obtain ⟨hletters, blanks, hblanks, hform⟩ := hcloses
  have hpiece : (c.rawContent name).2.rest = ('<' :: '/' :: name.toList) ++ (blanks ++ '>' :: z) := by
    rw [hclosing, hform]
    simp
  have hfree : Free ('<' :: '/' :: name.toList)
      (c.breakWhere (Text.startsWith ('<' :: '/' :: name.toList))).1 := free_of_breakWhere hpiece
  obtain rfl : t = (c.breakWhere (Text.startsWith ('<' :: '/' :: name.toList))).1 ++ closing :=
    read_eq (hc.symm.trans hsplit) hclosing
  have hrest : c'.rest = (c.breakWhere (Text.startsWith ('<' :: '/' :: name.toList))).1
      ++ (('<' :: '/' :: name.toList) ++ (blanks ++ '>' :: z')) := by
    rw [h.rest, hform]
    simp
  have hbreak := breakWhere_of_append hrest (hfree.breakWhere _)
  have hsees : (c'.rawContent name).2.Sees (closing ++ z') := by
    show (c'.breakWhere _).2.Sees _
    rw [hbreak, hform]
    exact ⟨by simp, h.faults⟩
  refine ⟨?_, hsees.closeTag ⟨hletters, blanks, hblanks, hform⟩ start'⟩
  unfold Cursor.rawContent
  dsimp only
  rw [hbreak]
  dsimp only
  split
  · exact .nil
  · exact .singleton (.text _ _ _)

/-! ### Text and expressions -/

theorem textNodes_of_closing {closing : List Char} (hc : c.rest = closing ++ z) :
    c.textNodes closing = ([], c) := by
  rw [Cursor.textNodes]
  split
  · rfl
  · next d ds hrest =>
    have hstarts : Text.startsWith closing (d :: ds) = true := by
      rw [← hrest, hc]
      exact startsWith_iff.2 (List.prefix_append _ _)
    rw [dif_pos hstarts]

theorem textNodes_of_brace {closing ds : List Char} {e : Expression} (hc : c.rest = '{' :: ds)
    (hclosing : Text.startsWith closing ('{' :: ds) = false) (he : (c.moved ['{'] ds).braced.1 = some e) :
    c.textNodes closing =
      (.expression ((c.moved ['{'] ds).braced.2.spanFrom c.offset) e
        :: ((c.moved ['{'] ds).braced.2.textNodes closing).1,
        ((c.moved ['{'] ds).braced.2.textNodes closing).2) := by
  rw [Cursor.textNodes]
  split
  · next hnil =>
    rw [hc] at hnil
    cases hnil
  · next d ds' hrest =>
    rw [hc] at hrest
    cases hrest
    rw [dif_neg (by simp [hclosing]), dif_pos rfl]
    dsimp only
    rw [he]

/-- Where text of an element with text and expressions ends. -/
def endsText (closing cs : List Char) : Bool := cs.head? == some '{' || Text.startsWith closing cs

theorem textNodes_of_text {closing ds : List Char} {d : Char} (hc : c.rest = d :: ds)
    (hends : endsText closing (d :: ds) = false) :
    c.textNodes closing =
      (.text ((c.breakWhere (endsText closing)).2.spanFrom c.offset) (String.ofList (c.breakWhere (endsText closing)).1)
        :: ((c.breakWhere (endsText closing)).2.textNodes closing).1,
        ((c.breakWhere (endsText closing)).2.textNodes closing).2) := by
  simp only [endsText, List.head?_cons, Bool.or_eq_false_iff, beq_eq_false_iff_ne, ne_eq,
    Option.some.injEq] at hends
  rw [Cursor.textNodes]
  split
  · next hnil =>
    rw [hc] at hnil
    cases hnil
  · next d' ds' hrest =>
    rw [hc] at hrest
    cases hrest
    rw [dif_neg (by simp [hends.2]), dif_neg hends.1]
    rfl

/-- A text of this kind ends at the same place if the closing tag follows. -/
theorem endsText_before {closing x : List Char} (hx : x ≠ []) (y : List Char) :
    endsText closing (x ++ (closing ++ y)) = endsText closing (x ++ closing) := by
  unfold endsText
  rw [startsWith_before]
  cases x with
  | nil => exact absurd rfl hx
  | cons d x => rfl

theorem breakWhere_endsText {closing w y : List Char}
    (h : Text.breakWhere (endsText closing) (w ++ (t ++ (closing ++ y))) = (w, t ++ (closing ++ y)))
    (y' : List Char) :
    Text.breakWhere (endsText closing) (w ++ (t ++ (closing ++ y'))) = (w, t ++ (closing ++ y')) := by
  obtain ⟨hend, hall⟩ := breakWhere_append_iff.1 h
  refine breakWhere_append_iff.2 ⟨.inr ?_, fun d u hu => ?_⟩
  · cases t with
    | nil =>
      have hstarts : Text.startsWith closing (closing ++ y') = true :=
        startsWith_iff.2 (List.prefix_append _ _)
      simp [endsText, hstarts]
    | cons d t =>
      rcases hend with hnil | hend
      · cases hnil
      · rw [endsText_before (List.cons_ne_nil d t)] at hend ⊢
        exact hend
  · have := hall d u hu
    rw [← List.cons_append, ← List.append_assoc, endsText_before (by simp)] at this ⊢
    exact this

/-- Text and expressions are read again up to the closing tag. -/
theorem Cursor.Sees.textNodes {closing y y' : List Char} (hne : closing ≠ [])
    (hclean : (c.textNodes closing).2.faults = []) (hc : c.rest = t ++ (closing ++ y))
    (hz : (c.textNodes closing).2.rest = closing ++ y) (h : c'.Sees (t ++ (closing ++ y'))) :
    LikeNodes R (c.textNodes closing).1 (c'.textNodes closing).1
      ∧ (c'.textNodes closing).2.Sees (closing ++ y') := by
  fun_induction Cursor.textNodes closing c generalizing t c' with
  | case1 c hnil =>
    rw [hnil] at hz
    exact absurd (List.append_eq_nil_iff.1 hz.symm).1 hne
  | case2 c d ds hrest hclosing =>
    rw [← hz] at hc
    obtain rfl : t = [] := List.append_left_eq_self.1 hc.symm
    rw [List.nil_append] at h
    rw [textNodes_of_closing h.rest]
    exact ⟨.nil, h⟩
  | case3 c ds hrest hclosing inside =>
    rename_i more he ih
    have hinside := (reaches_textNodes closing inside.2).clean hclean
    obtain ⟨raw, -, -, hsome⟩ := rest_of_braced (c := c.moved ['{'] ds) hinside
    cases hsome.symm.trans he
  | case4 c ds e hrest hclosing inside more =>
    rename_i he ih
    have hmore := reaches_textNodes closing inside.2
    have hinside := hmore.clean hclean
    obtain ⟨t₂, ht₂, -⟩ := hmore
    rw [show (inside.2.textNodes closing).2.rest = _ from hz] at ht₂
    obtain ⟨raw, hds, hc', hfirst, hsome, hsees⟩ := h.inBraces hrest hinside hc ht₂
    obtain rfl := Option.some.inj (hfirst.symm.trans he)
    have hclosing' : Text.startsWith closing ('{' :: (raw ++ '}' :: (t₂ ++ (closing ++ y')))) = false := by
      have hsame : ∀ y, Text.startsWith closing (('{' :: raw ++ '}' :: t₂) ++ (closing ++ y)) = _ :=
        startsWith_before _
      rw [hds] at hclosing
      have hnot : ¬ Text.startsWith closing (('{' :: raw ++ '}' :: t₂) ++ (closing ++ y)) = true := by
        simpa using hclosing
      rw [hsame, ← hsame y'] at hnot
      simpa using hnot
    rw [textNodes_of_brace hc' hclosing' hsome]
    obtain ⟨hmore, hlast⟩ := ih hclean ht₂ hz hsees
    exact ⟨.cons (.expression _ _ (text_eq_ofRaw ..)) hmore, hlast⟩
  | case5 c d ds hrest hclosing hbrace text =>
    rename_i more ih
    obtain ⟨hsplit, hbreak⟩ := rest_of_breakWhere c (endsText closing)
    obtain ⟨t₂, ht₂, -⟩ := reaches_textNodes closing text.2
    rw [show (text.2.textNodes closing).2.rest = _ from hz] at ht₂
    obtain rfl : t = text.1 ++ t₂ := read_eq (hc.symm.trans hsplit) ht₂
    rw [List.append_assoc] at h
    rw [show (c.breakWhere (endsText closing)).2.rest = _ from ht₂] at hbreak
    have hbreak' := breakWhere_of_append h.rest (breakWhere_endsText hbreak y')
    -- the text begins with the character that the content goes on with
    have hends : endsText closing (d :: ds) = false := by
      simp only [endsText, List.head?_cons, Bool.or_eq_false_iff, beq_eq_false_iff_ne, ne_eq,
        Option.some.injEq]
      exact ⟨hbrace, by simpa using hclosing⟩
    obtain ⟨u, hword, -⟩ := exists_breakWhere_cons hrest hends
    rw [show text.1 = d :: u from hword] at h hbreak'
    rw [hword] at hbreak
    have hends' : endsText closing (d :: (u ++ (t₂ ++ (closing ++ y')))) = false :=
      (breakWhere_append_iff.1 (breakWhere_endsText hbreak y')).2 d u (List.suffix_refl _)
    rw [textNodes_of_text h.rest hends', hbreak']
    obtain ⟨hmore, hlast⟩ := ih hclean ht₂ hz (h.moved (t := d :: u))
    rw [show text.1 = d :: u from hword]
    exact ⟨.cons (.text _ _ _) hmore, hlast⟩

/-- Text and expressions of an element with its closing tag. -/
theorem Cursor.Sees.textContent {name : String}
    (hclean : ((c.textContent name).2.closeTag name start).faults = []) (hc : c.rest = t ++ z)
    (hz : ((c.textContent name).2.closeTag name start).rest = z) (h : c'.Sees (t ++ z')) :
    LikeNodes R (c.textContent name).1.nodes (c'.textContent name).1.nodes
      ∧ ((c'.textContent name).2.closeTag name start').Sees z' := by
  obtain ⟨read, hread, -⟩ := reaches_textNodes ('<' :: '/' :: name.toList) c
  obtain ⟨closing, hcloses, hclosing⟩ := rest_of_closeTag hclean
  rw [hz] at hclosing
  have hclosing' : (c.textNodes ('<' :: '/' :: name.toList)).2.rest = closing ++ z := hclosing
  obtain ⟨hletters, blanks, hblanks, hform⟩ := hcloses
  have hpiece : closing = ('<' :: '/' :: name.toList) ++ (blanks ++ ['>']) := by
    rw [hform]
    simp
  have htext : (c.textNodes ('<' :: '/' :: name.toList)).2.faults = [] :=
    (reaches_closeTag _ name start).clean hclean
  obtain rfl : t = read ++ closing := read_eq (hc.symm.trans hread) hclosing'
  rw [hpiece, List.append_assoc] at hclosing'
  rw [List.append_assoc, hpiece, List.append_assoc] at h hc
  obtain ⟨hlike, hsees⟩ := h.textNodes (R := R) (by simp) htext hc hclosing'
  have hsees : (c'.textContent name).2.Sees (closing ++ z') := by
    rw [hpiece, List.append_assoc]
    exact hsees
  exact ⟨hlike, hsees.closeTag ⟨hletters, blanks, hblanks, hform⟩ start'⟩

/-! ### Opening tags -/

theorem element_of_selfClosing {tag : OpeningTag} (h : tag.cursor.eat? ['/', '>'] = some c) :
    tag.element start = tag.leaf start ⟨[], .point c.offset⟩ true c := by
  rw [OpeningTag.element, h]

theorem element_of_open {tag : OpeningTag} (h : tag.cursor.eat? ['/', '>'] = none)
    (hopen : tag.cursor.eat? ['>'] = some c) : tag.element start =
      if isRawTextElement tag.name then
        tag.leaf start (c.rawContent tag.name).1 false ((c.rawContent tag.name).2.closeTag tag.name start)
      else if isTextElement tag.name then
        tag.leaf start (c.textContent tag.name).1 false ((c.textContent tag.name).2.closeTag tag.name start)
      else if isVoidElement tag.name then tag.leaf start ⟨[], .point tag.cursor.offset⟩ false c
      else (.opened ⟨.element tag.name tag.attributes, start, c.offset, []⟩, c) := by
  rw [OpeningTag.element, h, hopen]

theorem reaches_element_of_open {tag : OpeningTag} (h : tag.cursor.eat? ['/', '>'] = none)
    (hopen : tag.cursor.eat? ['>'] = some c) : c.Reaches (tag.element start).2 := by
  rw [element_of_open h hopen]
  split
  · exact ((reaches_rawContent ..).trans (reaches_closeTag ..)).trans (reaches_leaf ..)
  · split
    · exact ((reaches_textContent ..).trans (reaches_closeTag ..)).trans (reaches_leaf ..)
    · split
      · exact reaches_leaf ..
      · exact .refl c

theorem clean_leaf {tag : OpeningTag} {content : Fragment} {selfClosing : Bool}
    (h : (tag.leaf start content selfClosing c).2.faults = []) :
    isUnknownSpecial tag.name = false ∧ (tag.leaf start content selfClosing c).2 = c :=
  clean_elementNode h

/-- An element that is read whole is read again if its content is. -/
theorem like_leaf {tag tag' : OpeningTag} {content content' : Fragment} {selfClosing : Bool}
    (hname : tag'.name = tag.name) (htag : R tag.attributes tag'.attributes)
    (hclean : (tag.leaf start content selfClosing c).2.faults = [])
    (hz : (tag.leaf start content selfClosing c).2.rest = z)
    (h : c.faults = [] → c.rest = z → LikeNodes R content.nodes content'.nodes ∧ c'.Sees z') :
    (tag.leaf start content selfClosing c).1.Like R (tag'.leaf start' content' selfClosing c').1
      ∧ (tag'.leaf start' content' selfClosing c').2.Sees z' := by
  obtain ⟨hspecial, hlast⟩ := clean_leaf hclean
  rw [hlast] at hclean hz
  rw [← hname] at hspecial
  obtain ⟨hcontent, hsees⟩ := h hclean hz
  refine ⟨.node ?_, hsees.elementNode hspecial _ _ _⟩
  rw [hname]
  exact like_elementNode htag hcontent

/-- What an opening tag begins is read again. -/
theorem Cursor.Sees.element {tag tag' : OpeningTag} (hname : tag'.name = tag.name)
    (htag : R tag.attributes tag'.attributes) (hclean : (tag.element start).2.faults = [])
    (hc : tag.cursor.rest = t ++ z) (hz : (tag.element start).2.rest = z) (h : tag'.cursor.Sees (t ++ z')) :
    (tag.element start).1.Like R (tag'.element start').1 ∧ (tag'.element start').2.Sees z' := by
  cases hself : tag.cursor.eat? ['/', '>'] with
  | some r =>
    rw [element_of_selfClosing hself] at hclean hz ⊢
    have hrest := (rest_of_eat? hself).1
    rw [(clean_leaf hclean).2] at hz
    rw [hz] at hrest
    obtain rfl : t = ['/', '>'] := List.append_cancel_right (hc.symm.trans hrest)
    rw [element_of_selfClosing (eat?_of_append h.rest)]
    exact like_leaf hname htag hclean rfl fun _ _ => ⟨.nil, rfl, h.faults⟩
  | none =>
    cases hopen : tag.cursor.eat? ['>'] with
    | none =>
      rw [OpeningTag.element, hself, hopen] at hclean
      cases (reaches_leaf ..).clean hclean
    | some r =>
      rw [element_of_open hself hopen] at hclean hz ⊢
      have hrest := (rest_of_eat? hopen).1
      have hreach : r.Reaches (tag.element start).2 := reaches_element_of_open hself hopen
      obtain ⟨inside, hinside, -⟩ := hreach
      rw [element_of_open hself hopen, hz] at hinside
      obtain rfl : t = ['>'] ++ inside := read_eq (hc.symm.trans hrest) hinside
      have hc' : tag'.cursor.rest = ['>'] ++ (inside ++ z') := by simp [h.rest]
      have hself' : tag'.cursor.eat? ['/', '>'] = none := by
        rw [eat?, hc']
        rfl
      have hmoved : (tag'.cursor.moved ['>'] (inside ++ z')).Sees (inside ++ z') := ⟨rfl, h.faults⟩
      -- nothing more is read where the content is that of no script or text
      have hnothing : r.rest = z → (tag'.cursor.moved ['>'] (inside ++ z')).Sees z' := by
        intro hz
        obtain rfl : inside = [] := List.append_left_eq_self.1 (hinside.symm.trans hz)
        exact hmoved
      rw [element_of_open hself' (eat?_of_append hc'), hname]
      by_cases hraw : isRawTextElement tag.name = true
      · rw [if_pos hraw] at hclean hz
        rw [if_pos hraw, if_pos hraw]
        exact like_leaf hname htag hclean hz fun hclean hz => hmoved.rawContent hclean hinside hz
      · rw [if_neg hraw] at hclean hz
        rw [if_neg hraw, if_neg hraw]
        by_cases htext : isTextElement tag.name = true
        · rw [if_pos htext] at hclean hz
          rw [if_pos htext, if_pos htext]
          exact like_leaf hname htag hclean hz fun hclean hz => hmoved.textContent hclean hinside hz
        · rw [if_neg htext] at hclean hz
          rw [if_neg htext, if_neg htext]
          by_cases hvoid : isVoidElement tag.name = true
          · rw [if_pos hvoid] at hclean hz
            rw [if_pos hvoid, if_pos hvoid]
            exact like_leaf hname htag hclean hz fun _ hz => ⟨.nil, hnothing hz⟩
          · rw [if_neg hvoid] at hclean hz
            rw [if_neg hvoid, if_neg hvoid]
            exact ⟨.of_opened (.element _ htag) .., hnothing hz⟩

end Elements

/-! ### Other nodes -/

section Others

open Cursor

variable {c c' : Cursor} {t z z' : List Char} {start start' : Nat}

theorem Cursor.Sees.readComment (hclean : (readComment c start).2.faults = []) (hc : c.rest = t ++ z)
    (hz : (readComment c start).2.rest = z) (h : c'.Sees (t ++ z')) :
    (Markup.readComment c start).1.Like R (Markup.readComment c' start').1
      ∧ (Markup.readComment c' start').2.Sees z' := by
  unfold Markup.readComment at hclean hz ⊢
  dsimp only at hclean hz ⊢
  obtain ⟨hsplit, -⟩ := rest_of_breakWhere c (Text.startsWith ['-', '-', '>'])
  cases heat : (c.breakWhere (Text.startsWith ['-', '-', '>'])).2.eat? ['-', '-', '>'] with
  | none =>
    rw [heat] at hclean
    cases hclean
  | some r =>
    rw [heat] at hclean hz
    have hafter := (rest_of_eat? heat).1
    rw [show r.rest = z from hz] at hafter
    have hfree : Free ['-', '-', '>'] (c.breakWhere (Text.startsWith ['-', '-', '>'])).1 :=
      free_of_breakWhere hafter
    obtain rfl : t = (c.breakWhere (Text.startsWith ['-', '-', '>'])).1 ++ ['-', '-', '>'] :=
      read_eq (hc.symm.trans hsplit) hafter
    rw [List.append_assoc] at h
    have hbreak := breakWhere_of_append h.rest (hfree.breakWhere z')
    rw [hbreak, eat?_of_append (z := z') rfl]
    exact ⟨.node (.comment _ _ _), rfl, h.faults⟩

theorem Cursor.Sees.readTag (hclean : (readTag c start).2.faults = []) (hc : c.rest = t ++ z)
    (hz : (readTag c start).2.rest = z) (h : c'.Sees (t ++ z')) :
    (Markup.readTag c start).1.Like R (Markup.readTag c' start').1 ∧ (Markup.readTag c' start').2.Sees z' := by
  have hinside : c.word.2.braced.2.Reaches (Markup.readTag c start).2 := by
    unfold Markup.readTag
    dsimp only
    split
    · exact .refl _
    · split
      · exact .refl _
      · exact reaches_fault (.refl _)
  obtain ⟨raw, hk, hrest, hexpression⟩ := rest_of_keyed (hinside.clean hclean)
  unfold Markup.readTag at hclean hz ⊢
  dsimp only at hclean hz ⊢
  rw [hexpression] at hclean hz ⊢
  dsimp only at hclean hz ⊢
  cases hkind : TagKind.ofName? (String.ofList c.word.1) with
  | none =>
    rw [hkind] at hclean
    cases hclean
  | some kind =>
    rw [hkind] at hz
    rw [show c.word.2.braced.2.rest = z from hz] at hrest
    obtain rfl : t = c.word.1 ++ (raw ++ ['}']) := by
      refine List.append_cancel_right (hc.symm.trans (hrest.trans ?_))
      simp
    obtain ⟨hword, hsome, hsees⟩ := Cursor.Sees.keyed (z := z') hk (by simpa using h)
    rw [hsome, hword]
    dsimp only
    rw [hkind]
    exact ⟨.node (.tag _ _ kind (text_eq_ofRaw ..)), hsees⟩

theorem Cursor.Sees.readExpression (hclean : (readExpression c start).2.faults = [])
    (hc : c.rest = t ++ z) (hz : (readExpression c start).2.rest = z) (h : c'.Sees (t ++ z')) :
    (Markup.readExpression c start).1.Like R (Markup.readExpression c' start').1
      ∧ (Markup.readExpression c' start').2.Sees z' := by
  have hinside : c.braced.2.Reaches (Markup.readExpression c start).2 := by
    unfold Markup.readExpression
    dsimp only
    split <;> exact .refl _
  obtain ⟨raw, hraw, hrest, hexpression⟩ := rest_of_braced (hinside.clean hclean)
  unfold Markup.readExpression at hz ⊢
  dsimp only at hz ⊢
  rw [hexpression] at hz ⊢
  dsimp only at hz ⊢
  rw [hz] at hrest
  obtain rfl : t = raw ++ ['}'] := by
    refine List.append_cancel_right (hc.symm.trans (hrest.trans ?_))
    simp
  obtain ⟨hsome, hsees⟩ := Cursor.Sees.braced (z := z') hraw (by simpa using h)
  rw [hsome]
  exact ⟨.node (.expression _ _ (text_eq_ofRaw ..)), hsees⟩

theorem Cursor.Sees.readBlock (hclean : (readBlock c start).2.faults = []) (hc : c.rest = t ++ z)
    (hz : (readBlock c start).2.rest = z) (h : c'.Sees (t ++ z')) :
    (Markup.readBlock c start).1.Like R (Markup.readBlock c' start').1
      ∧ (Markup.readBlock c' start').2.Sees z' := by
  have hinside : c.word.2.braced.2.Reaches (Markup.readBlock c start).2 := by
    unfold Markup.readBlock
    dsimp only
    split
    · exact .refl _
    · split
      · exact .refl _
      · exact .refl _
      · exact .refl _
      · exact .refl _
      · exact .refl _
      · exact reaches_fault (.refl _)
  obtain ⟨raw, hk, hrest, hexpression⟩ := rest_of_keyed (hinside.clean hclean)
  have hafter : c.word.2.braced.2.rest = z := by
    rw [← hz]
    unfold Markup.readBlock
    dsimp only
    rw [hexpression]
    dsimp only
    split <;> rfl
  rw [hafter] at hrest
  obtain rfl : t = c.word.1 ++ (raw ++ ['}']) := by
    refine List.append_cancel_right (hc.symm.trans (hrest.trans ?_))
    simp
  obtain ⟨hword, hsome, hsees⟩ := Cursor.Sees.keyed (z := z') hk (by simpa using h)
  unfold Markup.readBlock at hclean ⊢
  dsimp only at hclean ⊢
  rw [hexpression] at hclean ⊢
  rw [hsome, hword]
  dsimp only at hclean ⊢
  split
  · exact ⟨.of_opened (.consequent false (text_eq_ofRaw ..)) .., hsees⟩
  · exact ⟨.of_opened (.eachBody (text_eq_ofRaw ..)) .., hsees⟩
  · exact ⟨.of_opened (.awaitBranch (text_eq_ofRaw ..) .empty rfl) .., hsees⟩
  · exact ⟨.of_opened (.key (text_eq_ofRaw ..)) .., hsees⟩
  · exact ⟨.of_opened (.snippet ..) .., hsees⟩
  · -- a block of no known kind is a fault
    split at hclean <;> contradiction

/-! ### Any node but an element -/

/-- The same character comes first, and if it may open markup, so does the same second one. -/
structure SameMark (z z' : List Char) : Prop where
  first : z'.head? = z.head?
  second : ∀ d ∈ z.head?, d = '<' ∨ d = '{' → z'.tail.head? = z.tail.head?

theorem SameMark.opensMarkup (h : SameMark z z') : Markup.opensMarkup z' = Markup.opensMarkup z := by
  obtain ⟨hfirst, hsecond⟩ := h
  cases z with
  | nil =>
    cases z' with
    | nil => rfl
    | cons d z' => cases hfirst
  | cons d z =>
    cases z' with
    | nil => cases hfirst
    | cons d' z' =>
      cases hfirst
      by_cases hd : d = '<'
      · subst hd
        have htail : z'.head? = z.head? := hsecond '<' rfl (.inl rfl)
        cases z <;> cases z' <;> first | rfl | cases htail
        rfl
      · by_cases hbrace : d = '{'
        · subst hbrace
          rfl
        · cases z <;> cases z' <;> simp [Markup.opensMarkup, hd, hbrace]

/-- Whether a piece of two characters begins that may open markup. -/
theorem SameMark.startsWith {d : Char} (h : SameMark z z') (hd : d = '<' ∨ d = '{') (e : Char) :
    Text.startsWith [d, e] z' = Text.startsWith [d, e] z := by
  obtain ⟨hfirst, hsecond⟩ := h
  have hhead : ∀ cs : List Char, Text.startsWith [d, e] cs = true ↔
      cs.head? = some d ∧ cs.tail.head? = some e := by
    intro cs
    rw [startsWith_iff]
    constructor
    · rintro ⟨rest, rfl⟩
      exact ⟨rfl, rfl⟩
    · rintro ⟨hcs, htail⟩
      obtain ⟨cs, rfl⟩ := List.head?_eq_some_iff.1 hcs
      obtain ⟨cs, rfl⟩ := List.head?_eq_some_iff.1 htail
      exact ⟨cs, rfl⟩
  rw [Bool.eq_iff_iff, hhead, hhead, hfirst]
  refine and_congr_right fun hz => ?_
  rw [hsecond d hz hd]

/-- Only angle brackets and braces open markup. -/
theorem head?_of_opensMarkup (h : opensMarkup z = true) : ∀ d ∈ z.head?, d = '<' ∨ d = '{' := by
  intro d hd
  cases z with
  | nil => cases hd
  | cons e z =>
    cases hd
    by_contra hnot
    obtain ⟨hangle, hbrace⟩ := not_or.1 hnot
    cases z <;> simp [opensMarkup, hangle, hbrace] at h

theorem looksAtTwo_opensMarkup : LooksAtTwo opensMarkup := by
  intro d cs cs' h
  by_cases hd : d = '<'
  · subst hd
    cases cs <;> cases cs' <;> first | rfl | cases h
    rfl
  · by_cases hbrace : d = '{'
    · subst hbrace
      rfl
    · cases cs <;> cases cs' <;> simp [opensMarkup, hd, hbrace]

/-- A piece that begins in a text cannot end behind it, if the next character is not one of the piece. -/
theorem not_startsWith_append {piece : List Char} (h : Text.startsWith piece (t ++ z) = false) (ht : t ≠ [])
    (hhead : z'.head? = z.head?) (hz : ∀ d ∈ z.head?, d ∉ piece.tail) :
    Text.startsWith piece (t ++ z') = false := by
  rw [← Bool.not_eq_true, startsWith_iff] at h ⊢
  intro hpiece
  rcases List.prefix_or_prefix_of_prefix hpiece (List.prefix_append t z') with hle | ⟨v, rfl⟩
  · exact h (List.prefix_append_of_prefix hle)
  · rw [List.prefix_append_right_inj] at hpiece
    cases v with
    | nil => exact h (by simp)
    | cons e v =>
      obtain ⟨rest, rfl⟩ := hpiece
      refine hz e (by rw [← hhead]; rfl) ?_
      cases t with
      | nil => exact absurd rfl ht
      | cons d t => simp

theorem eat?_eq_none {piece : List Char} (h : Text.startsWith piece c.rest = false) : c.eat? piece = none := by
  rw [Text.startsWith, Option.isSome_eq_false_iff, Option.isNone_iff_eq_none] at h
  rw [eat?, h]
  rfl

theorem startsWith_eq_false {d : Char} {ds : List Char} (h : c.rest.head? ≠ some d) :
    Text.startsWith (d :: ds) c.rest = false := by
  rw [← Bool.not_eq_true, startsWith_iff]
  rintro ⟨rest, hrest⟩
  exact h (by rw [← hrest]; rfl)

theorem readNode_of_comment {r : Cursor} (h : c.eat? ['<', '!', '-', '-'] = some r) :
    readNode c = readComment r c.offset := by
  rw [readNode, h]

theorem readNode_of_block (h : c.rest = '{' :: '#' :: t) :
    readNode c = readBlock (c.moved ['{', '#'] t) c.offset := by
  rw [readNode, eat?_eq_none (startsWith_eq_false (by simp [h])),
    eat?_of_append (show c.rest = ['{', '#'] ++ t from h)]

theorem readNode_of_tag (h : c.rest = '{' :: '@' :: t) :
    readNode c = readTag (c.moved ['{', '@'] t) c.offset := by
  have hblock : c.eat? ['{', '#'] = none := by
    rw [eat?, h]
    rfl
  rw [readNode, eat?_eq_none (startsWith_eq_false (by simp [h])), hblock,
    eat?_of_append (show c.rest = ['{', '@'] ++ t from h)]

theorem readNode_of_expression (h : c.rest = '{' :: t) (hblock : t.head? ≠ some '#')
    (htag : t.head? ≠ some '@') : readNode c = readExpression (c.moved ['{'] t) c.offset := by
  have hnone : ∀ d, t.head? ≠ some d → c.eat? ['{', d] = none := by
    intro d hd
    rw [eat?, h]
    cases t with
    | nil => rfl
    | cons e t =>
      have hne : ¬ d = e := by
        rintro rfl
        exact hd rfl
      simp [strip?, hne]
  rw [readNode, eat?_eq_none (startsWith_eq_false (by simp [h])), hnone _ hblock, hnone _ htag,
    eat?_of_append (show c.rest = ['{'] ++ t from h)]

theorem readNode_of_element (h : c.AtElement) : readNode c = readElement c := by
  obtain ⟨d, rest, hrest, hd⟩ := h
  have hcomment : c.eat? ['<', '!', '-', '-'] = none := by
    rw [eat?, hrest]
    have hne : ¬ '!' = d := by
      rintro rfl
      cases hd
    simp [strip?, hne]
  have hbrace : c.rest.head? ≠ some '{' := by simp [hrest]
  simp only [readNode, hcomment, eat?_eq_none (startsWith_eq_false hbrace), hrest, hd, if_true]

theorem readNode_of_text (hcomment : c.eat? ['<', '!', '-', '-'] = none) (h : c.rest.head? ≠ some '{')
    (hnot : ¬ c.AtElement) : readNode c = readText c := by
  simp only [readNode, hcomment, eat?_eq_none (startsWith_eq_false h)]
  split
  · next d rest hrest =>
    rw [if_neg]
    exact fun hd => hnot ⟨d, rest, hrest, hd⟩
  · rfl

/-- Text ends where markup opens. -/
theorem head?_readText (c : Cursor) : ∀ d ∈ (readText c).2.rest.head?, d = '<' ∨ d = '{' := by
  obtain ⟨-, hbreak⟩ := rest_of_breakWhere (c.moved (c.rest.take 1) (c.rest.drop 1)) opensMarkup
  rcases (breakWhere_append_iff.1 hbreak).1 with hnil | hends
  · intro d hd
    rw [show (readText c).2.rest = [] from hnil] at hd
    cases hd
  · exact head?_of_opensMarkup hends

/-- Text is read up to the next markup, so the same text is read where the same markup follows. -/
theorem Cursor.Sees.readText (hc : c.rest = t ++ z) (hz : (readText c).2.rest = z)
    (hmark : SameMark z z') (h : c'.Sees (t ++ z')) (hne : c.rest ≠ []) :
    (Markup.readText c).1.Like R (Markup.readText c').1 ∧ (Markup.readText c').2.Sees z' := by
  obtain ⟨d, ds, hrest⟩ := List.exists_cons_of_ne_nil hne
  unfold Markup.readText at hz ⊢
  rw [hrest] at hz
  obtain ⟨hsplit, hbreak⟩ := rest_of_breakWhere (c.moved [d] ds) opensMarkup
  have hz : ((c.moved [d] ds).breakWhere opensMarkup).2.rest = z := hz
  rw [hz] at hsplit hbreak
  obtain rfl : t = d :: ((c.moved [d] ds).breakWhere opensMarkup).1 := by
    refine List.append_cancel_right (hc.symm.trans (hrest.trans ?_))
    rw [List.cons_append, ← hsplit]
    rfl
  have hends : z' = [] ∨ opensMarkup z' = true := by
    rcases (breakWhere_append_iff.1 hbreak).1 with rfl | hends
    · exact .inl (by simpa using hmark.first)
    · exact .inr (hmark.opensMarkup.trans hends)
  have hrest' : (c'.moved (c'.rest.take 1) (c'.rest.drop 1)).rest =
      ((c.moved [d] ds).breakWhere opensMarkup).1 ++ z' := by
    rw [h.rest]
    rfl
  dsimp only
  rw [breakWhere_of_append hrest' (looksAtTwo_opensMarkup.breakWhere hbreak hmark.first hends)]
  rw [hrest, h.rest]
  exact ⟨.node (.text _ _ _), rfl, h.faults⟩

/-- What was read behind a piece makes up what was read, and is there again. -/
theorem Cursor.Sees.past {r last : Cursor} (piece : List Char) (hc : c.rest = t ++ z)
    (hpiece : c.rest = piece ++ r.rest) (hreach : r.Reaches last) (hz : last.rest = z)
    (h : c'.Sees (t ++ z')) : ∃ t₁, r.rest = t₁ ++ z ∧ c'.rest = piece ++ (t₁ ++ z')
      ∧ (c'.moved piece (t₁ ++ z')).Sees (t₁ ++ z') := by
  obtain ⟨t₁, ht₁, -⟩ := hreach
  rw [hz] at ht₁
  obtain rfl : t = piece ++ t₁ := read_eq (hc.symm.trans hpiece) ht₁
  exact ⟨t₁, ht₁, by simp [h.rest], rfl, h.faults⟩

/-- What begins with a brace is read again. -/
theorem Cursor.Sees.readNode_of_brace {ds : List Char} (hrest : c.rest = '{' :: ds)
    (hclean : (readNode c).2.faults = []) (hc : c.rest = t ++ z) (hz : (readNode c).2.rest = z) (hmark : SameMark z z')
    (h : c'.Sees (t ++ z')) :
    (Markup.readNode c).1.Like R (Markup.readNode c').1 ∧ (Markup.readNode c').2.Sees z' := by
  by_cases hblock : ds.head? = some '#'
  · obtain ⟨ds, rfl⟩ := List.head?_eq_some_iff.1 hblock
    rw [Markup.readNode_of_block hrest] at hclean hz ⊢
    obtain ⟨t₁, ht₁, hc', hsees⟩ := h.past (r := c.moved ['{', '#'] ds) ['{', '#'] hc hrest (reaches_readBlock ..) hz
    rw [Markup.readNode_of_block hc']
    exact hsees.readBlock hclean ht₁ hz
  by_cases htag : ds.head? = some '@'
  · obtain ⟨ds, rfl⟩ := List.head?_eq_some_iff.1 htag
    rw [Markup.readNode_of_tag hrest] at hclean hz ⊢
    obtain ⟨t₁, ht₁, hc', hsees⟩ := h.past (r := c.moved ['{', '@'] ds) ['{', '@'] hc hrest (reaches_readTag ..) hz
    rw [Markup.readNode_of_tag hc']
    exact hsees.readTag hclean ht₁ hz
  rw [Markup.readNode_of_expression hrest hblock htag] at hclean hz ⊢
  obtain ⟨t₁, ht₁, hc', hsees⟩ := h.past (r := c.moved ['{'] ds) ['{'] hc hrest (reaches_readExpression ..) hz
  have hhead : (t₁ ++ z').head? = ds.head? := by
    rw [show ds = _ from ht₁]
    exact head?_append_congr hmark.first t₁
  rw [← hhead] at hblock htag
  rw [Markup.readNode_of_expression (t := t₁ ++ z') hc' hblock htag]
  exact hsees.readExpression hclean ht₁ hz

/-- A text in which no element begins has none in it when another one follows that begins as the first does. -/
theorem Cursor.Sees.not_atElement (hnot : ¬ c.AtElement) (hc : c.rest = t ++ z) (ht : t ≠ [])
    (hends : ∀ d ∈ z.head?, d = '<' ∨ d = '{') (hmark : SameMark z z') (h : c'.Sees (t ++ z')) : ¬ c'.AtElement := by
  rintro ⟨e, rest, hrest, he⟩
  rw [h.rest] at hrest
  obtain ⟨d, u, rfl⟩ := List.exists_cons_of_ne_nil ht
  cases u with
  | nil =>
    obtain ⟨rfl, hz'⟩ := List.cons.inj hrest
    have hhead := hmark.first
    rw [show z' = e :: rest from hz'] at hhead
    rcases hends e hhead.symm with rfl | rfl <;> cases he
  | cons e' u =>
    obtain ⟨rfl, hmore⟩ := List.cons.inj hrest
    obtain ⟨rfl, -⟩ := List.cons.inj hmore
    exact hnot ⟨e', _, hc, he⟩

/-- A node that is not an element is read again. -/
theorem Cursor.Sees.readNode (hnot : ¬ c.AtElement) (hclean : (readNode c).2.faults = [])
    (hc : c.rest = t ++ z) (hz : (readNode c).2.rest = z) (hmark : SameMark z z')
    (h : c'.Sees (t ++ z')) (hne : c.rest ≠ []) :
    (Markup.readNode c).1.Like R (Markup.readNode c').1 ∧ (Markup.readNode c').2.Sees z' := by
  by_cases hbrace : c.rest.head? = some '{'
  · obtain ⟨ds, hrest⟩ := List.head?_eq_some_iff.1 hbrace
    exact h.readNode_of_brace hrest hclean hc hz hmark
  cases hcomment : c.eat? ['<', '!', '-', '-'] with
  | some r =>
    rw [readNode_of_comment hcomment] at hclean hz ⊢
    obtain ⟨t₁, ht₁, hc', hsees⟩ := h.past ['<', '!', '-', '-'] hc (rest_of_eat? hcomment).1 (reaches_readComment ..) hz
    rw [readNode_of_comment (eat?_of_append hc')]
    exact hsees.readComment hclean ht₁ hz
  | none =>
    rw [readNode_of_text hcomment hbrace hnot] at hz ⊢
    have hends := head?_readText c
    rw [hz] at hends
    have ht : t ≠ [] := by
      rintro rfl
      have hlt := length_of_moved hne (reaches_readText c)
      rw [hz, hc] at hlt
      exact Nat.lt_irrefl _ hlt
    have hcomment' : c'.eat? ['<', '!', '-', '-'] = none := by
      refine eat?_eq_none ?_
      rw [h.rest]
      refine not_startsWith_append (z := z) ?_ ht hmark.first fun e he => ?_
      · rw [← hc]
        simpa [Text.startsWith, eat?] using hcomment
      · rcases hends e he with rfl | rfl <;> simp
    have hbrace' : c'.rest.head? ≠ some '{' := by
      rw [h.rest, head?_append_congr hmark.first, ← hc]
      exact hbrace
    rw [readNode_of_text hcomment' hbrace' (h.not_atElement hnot hc ht hends hmark)]
    exact h.readText hc hz hmark hne

end Others

end Restyle.Markup
