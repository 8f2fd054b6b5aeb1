import Restyle.Proofs.Markup.Following
import Restyle.Proofs.Markup.Printing
import Restyle.Proofs.Source.Slices

/-! Printed tags are read back. An attribute that is printed where blanks or the end of a tag follow is read as
it was, and so are the attributes of a tag one after the other, up to the end of the tag. -/

namespace Restyle.Markup

open Text Cursor

/-! ### Expressions -/

theorem Expression.unplaced_congr {e e' : Expression} (h : e'.text = e.text) : e'.unplaced = e.unplaced :=
  congrArg (Expression.mk (.point 0)) h

theorem Expression.text_ofRaw {e : Expression} {raw : List Char} (h : trim raw = e.text.toList) (o : Nat) :
    (Expression.ofRaw o raw).text = e.text := by
  show String.ofList (trim raw) = e.text
  rw [h, String.ofList_toList]

theorem Expression.unplaced_ofRaw {e : Expression} {raw : List Char} (h : trim raw = e.text.toList) (o : Nat) :
    (Expression.ofRaw o raw).unplaced = e.unplaced := unplaced_congr (text_ofRaw h o)

theorem Expression.Fits.trim_blank {e : Expression} (h : e.Fits [' ']) : trim (' ' :: e.text.toList) = e.text.toList :=
  (trim_cons (by decide) _).trans h.trimmed

/-- A printed expression behind its opening brace. -/
theorem Cursor.Sees.braced_print {c : Cursor} {z before : List Char} {e : Expression} (he : e.Fits before)
    (h : c.Sees (e.braced before ++ z)) : ∃ ds, c.rest = '{' :: ds ∧
      (c.moved ['{'] ds).braced.1 = some (.ofRaw (c.moved ['{'] ds).offset (before ++ e.text.toList)) ∧
      (c.moved ['{'] ds).braced.2.Sees z := by
  have hrest : c.rest = '{' :: ((before ++ e.text.toList) ++ '}' :: z) := by
    rw [h.rest]
    simp [Expression.braced]
  have hmoved : (c.moved ['{'] ((before ++ e.text.toList) ++ '}' :: z)).Sees _ := ⟨rfl, h.faults⟩
  exact ⟨_, hrest, hmoved.braced he.closed⟩

/-! ### Values -/

/-- What ends an attribute: nothing in it can belong to a name or to a value without quotes. -/
structure EndsAttribute (z : List Char) : Prop where
  name : endsName z = true
  value : endsValue none z = true
  unequal : (z.dropWhile isBlank).head? ≠ some '='

section Values

variable {c : Cursor} {z : List Char}

theorem Cursor.Sees.value_braced {e : Expression} (he : e.Fits []) (hz : EndsAttribute z)
    (h : c.Sees (e.braced [] ++ z)) : c.value.1.unplaced = .expression (.point 0) e.unplaced ∧ c.value.2.Sees z := by
  obtain ⟨ds, hrest, hsome, hsees⟩ := h.braced_print he
  have hbegins : endsValue none ('{' :: ds) = false := by simp [endsValue, isBlank]
  have hnone := valueParts_of_ends (c := (c.moved ['{'] ds).braced.2) (by rw [hsees.rest]; exact hz.value)
  have hparts := valueParts_of_brace hrest hbegins hsome
  rw [hnone] at hparts
  rw [value_of_not_quote (by simp [hrest]), unquoted_of_ne_nil (by rw [hparts]; simp), hparts]
  exact ⟨congrArg (AttributeValue.expression (.point 0)) (Expression.unplaced_ofRaw he.trimmed _), hsees⟩

theorem Cursor.Sees.value_quoted {value : List Char} (hvalue : ∀ d ∈ value, d ≠ '"' ∧ d ≠ '{')
    (h : c.Sees ('"' :: (value ++ '"' :: z))) :
    c.value.1.unplaced = .parts [.text (.point 0) (String.ofList value)] ∧ c.value.2.Sees z := by
  have hends : endsValue (some '"') ('"' :: z) = true := by simp [endsValue]
  have hmoved : (c.moved ['"'] (value ++ '"' :: z)).Sees (value ++ '"' :: z) := ⟨rfl, h.faults⟩
  cases value with
  | nil =>
    have hparts := valueParts_of_ends (c := c.moved ['"'] ('"' :: z)) hends
    rw [value_of_quote h.rest (.inl rfl) (r := (c.moved ['"'] ('"' :: z)).moved ['"'] z)
      (by rw [List.nil_append, hparts]; exact eat?_of_append rfl), List.nil_append, hparts]
    exact ⟨rfl, rfl, h.faults⟩
  | cons d u =>
    have hfree : ∀ e ∈ d :: u, ∀ rest, endsValueText (some '"') (e :: rest) = false := by
      intro e he rest
      obtain ⟨hquote, hbrace⟩ := hvalue e he
      simp [endsValueText, endsValue, hquote, hbrace]
    have hbreak : (c.moved ['"'] (d :: u ++ '"' :: z)).breakWhere (endsValueText (some '"')) = (d :: u, _) :=
      breakWhere_of_append (z := '"' :: z) rfl (breakWhere_append_iff.2
        ⟨.inr (by simp [endsValueText, hends]), fun e v hv => hfree e (hv.subset (List.mem_cons_self ..)) _⟩)
    have hend : endsValue (some '"') (d :: (u ++ '"' :: z)) = false := by
      have := hfree d (List.mem_cons_self ..) (u ++ '"' :: z)
      simp only [endsValueText, Bool.or_eq_false_iff] at this
      exact this.1
    have hparts := valueParts_of_text hmoved.rest hend (hvalue d (List.mem_cons_self ..)).2
    have hnone := valueParts_of_ends (c := (c.moved ['"'] (d :: u ++ '"' :: z)).moved (d :: u) ('"' :: z)) hends
    rw [hbreak, hnone] at hparts
    rw [value_of_quote h.rest (.inl rfl) (by rw [hparts]; exact eat?_of_append (z := z) rfl), hparts]
    exact ⟨rfl, rfl, h.faults⟩

end Values

/-! ### Attributes -/

section Attributes

variable {c : Cursor} {z : List Char} {a : Attribute}

theorem IsAttributeName.breakWhere {name : String} (h : IsAttributeName name) (hz : endsName z = true) :
    Text.breakWhere endsName (name.toList ++ z) = (name.toList, z) := by
  refine breakWhere_append_iff.2 ⟨.inr hz, fun d u hu => ?_⟩
  obtain ⟨hblank, hother⟩ := h.letters d (hu.subset (List.mem_cons_self ..))
  simp only [List.mem_cons, List.not_mem_nil, or_false, not_or] at hother
  simp [endsName, hblank, hother]

theorem IsAttributeName.toList_ne_nil {name : String} (h : IsAttributeName name) : name.toList ≠ [] := by
  intro hnil
  exact h.nonempty (String.toList_eq_nil_iff.1 hnil)

theorem IsAttributeName.head {name : String} (h : IsAttributeName name) :
    ∃ d u, name.toList = d :: u ∧ isBlank d = false ∧ d ≠ '=' ∧ d ≠ '{' := by
  obtain ⟨d, u, hname⟩ := List.exists_cons_of_ne_nil h.toList_ne_nil
  obtain ⟨hblank, hother⟩ := h.letters d (by rw [hname]; exact List.mem_cons_self ..)
  exact ⟨d, u, hname, hblank, by rintro rfl; simp at hother, by rintro rfl; simp at hother⟩

theorem IsAttributeName.head_rest {name : String} {rest : List Char} (h : IsAttributeName name)
    (hc : c.rest = name.toList ++ rest) : ∀ d ∈ c.rest.head?, d ≠ '{' := by
  obtain ⟨d, u, hcons, -, -, hbrace⟩ := h.head
  rw [hc, hcons]
  simpa using hbrace

/-- Without a colon a name is not that of a directive. -/
theorem IsAttributeName.namedAttribute {name : String} (h : IsAttributeName name) (span : Span)
    (value : AttributeValue) : namedAttribute span name.toList value = .normal span name value := by
  have hcolon : name.toList.dropWhile (fun d => decide (d ≠ ':')) = [] := by
    refine List.dropWhile_eq_nil_iff.2 fun d hd => ?_
    have := (h.letters d hd).2
    simp only [List.mem_cons, List.not_mem_nil, or_false, not_or] at this
    simp [this]
  unfold Cursor.namedAttribute
  rw [hcolon, String.ofList_toList]

/-- An attribute begins with a brace or a letter of its name. -/
theorem Attribute.Printable.head (h : a.Printable) : ∃ d u, a.print = d :: u ∧ isBlank d = false ∧ d ≠ '=' := by
  cases h with
  | bare hname =>
    obtain ⟨d, u, hprint, hblank, hequal, -⟩ := hname.head
    exact ⟨d, u, hprint, hblank, hequal⟩
  | braced hname _ =>
    obtain ⟨d, u, hprint, hblank, hequal, -⟩ := hname.head
    exact ⟨d, _, by rw [Attribute.print, hprint]; rfl, hblank, hequal⟩
  | quoted hname _ =>
    obtain ⟨d, u, hprint, hblank, hequal, -⟩ := hname.head
    exact ⟨d, _, by rw [Attribute.print, hprint]; rfl, hblank, hequal⟩
  | spread _ => exact ⟨'{', _, rfl, rfl, by decide⟩
  | shorthand _ _ _ _ => exact ⟨'{', _, rfl, rfl, by decide⟩

theorem Cursor.EndsTag.endsAttribute {close : List Char} (h : EndsTag close) (z : List Char) :
    EndsAttribute (close ++ z) := by
  rcases h with rfl | rfl
  · exact ⟨by simp [endsName], by simp [endsValue], by simp [isBlank]⟩
  · exact ⟨by simp [endsName], by simp [endsValue], by simp [isBlank]⟩

theorem Attribute.Printable.endsAttribute (h : a.Printable) (z : List Char) :
    EndsAttribute (' ' :: (a.print ++ z)) := by
  obtain ⟨d, u, hprint, hblank, hequal⟩ := h.head
  refine ⟨by simp [endsName, isBlank], by simp [endsValue, isBlank], ?_⟩
  rw [hprint, List.dropWhile_cons_of_pos (by decide), List.cons_append, List.dropWhile_cons_of_neg (by simp [hblank])]
  simpa using hequal

/-- A name with a value behind it. -/
theorem Cursor.Sees.name_value {name : String} {v : AttributeValue} {rest : List Char} (span : Span)
    (hname : IsAttributeName name) (h : c.Sees (name.toList ++ '=' :: rest))
    (hrest : ∀ d ∈ rest.head?, isBlank d = false)
    (hvalue : ∀ c' : Cursor, c'.Sees rest → c'.value.1.unplaced = v.unplaced ∧ c'.value.2.Sees z) :
    c.GivesAttribute (.normal span name v) z := by
  have h : c.Sees (name.toList ++ ([] ++ (['='] ++ ([] ++ rest)))) := h
  have hgives := h.gives_valued span (hname.breakWhere (by simp [endsName])) hname.toList_ne_nil
    (hname.head_rest h.rest) (by simp [Blank]) (by simp [Blank]) hrest hvalue
  rwa [hname.namedAttribute] at hgives

theorem bracedAttribute_spread {e : Expression} (he : e.Fits ['.', '.', '.']) (span : Span) (o : Nat) :
    ∃ a, bracedAttribute span (.ofRaw o (['.', '.', '.'] ++ e.text.toList)) = some a
      ∧ a.unplaced = (Attribute.spread span e).unplaced := by
  have htrim := trim_append_of_trimmed ['.', '.', '.'] he.trimmed (by simp) (by simp; decide) fun _ => by simp; decide
  obtain ⟨a, ha, hsame⟩ := bracedAttribute_of_dots htrim span o
  exact ⟨a, ha, hsame.trans (congrArg (Attribute.spread (.point 0)) (Expression.unplaced_ofRaw he.trimmed _))⟩

theorem bracedAttribute_shorthand {e : Expression} (he : e.Fits []) (hne : e.text ≠ "")
    (hdots : ¬ ['.', '.', '.'] <+: e.text.toList) (hattach : ¬ ['@', 'a', 't', 't', 'a', 'c', 'h'] <+: e.text.toList)
    (span : Span) (o : Nat) : ∃ e', bracedAttribute span (.ofRaw o e.text.toList) = some (.shorthand span e')
      ∧ e'.unplaced = e.unplaced := by
  have htext := Expression.text_ofRaw he.trimmed o
  unfold bracedAttribute
  dsimp only
  rw [htext, strip?_eq_none hdots, strip?_eq_none hattach]
  exact ⟨_, if_neg hne, Expression.unplaced_ofRaw he.trimmed _⟩

/-- A printed attribute is read back. -/
theorem Cursor.Sees.attribute?_print (ha : a.Printable) (hz : EndsAttribute z) (h : c.Sees (a.print ++ z)) :
    c.GivesAttribute a z := by
  cases ha with
  | @bare span name hname =>
    have h : c.Sees (name.toList ++ z) := h
    have hgives := h.gives_bare span (hname.breakWhere hz.name) hname.toList_ne_nil (hname.head_rest h.rest) hz.unequal
    rwa [hname.namedAttribute] at hgives
  | @braced span s name e hname he =>
    have h : c.Sees (name.toList ++ '=' :: (e.braced [] ++ z)) := by simpa [Attribute.print] using h
    exact h.name_value span hname (by simp [Expression.braced, isBlank]) fun c' hc' => hc'.value_braced he hz
  | @quoted span s name value hname hvalue =>
    have h : c.Sees (name.toList ++ '=' :: ('"' :: (value.toList ++ '"' :: z))) := by simpa [Attribute.print] using h
    refine h.name_value span hname (by simp [isBlank]) fun c' hc' => ?_
    simpa [AttributeValue.unplaced, ValuePart.unplaced] using hc'.value_quoted hvalue
  | @spread span e he =>
    have h : c.Sees ('{' :: ((['.', '.', '.'] ++ e.text.toList) ++ '}' :: z)) := by
      simpa [Attribute.print, Expression.braced] using h
    exact h.gives_braced he.closed fun s o => bracedAttribute_spread he s o
  | @shorthand span e he hne hdots hattach =>
    refine Sees.gives_braced he.closed (fun s o => ?_) (by simpa [Attribute.print, Expression.braced] using h)
    obtain ⟨e', he', hsame⟩ := bracedAttribute_shorthand he hne hdots hattach s o
    exact ⟨_, he', congrArg (Attribute.shorthand (.point 0)) hsame⟩

/-- Printed attributes are read back up to the end of their tag. -/
theorem Cursor.Sees.attributes_print {attributes : List Attribute} {close : List Char}
    (ha : ∀ a ∈ attributes, a.Printable) (hclose : EndsTag close)
    (h : c.Sees (printAttributes attributes ++ (close ++ z))) :
    c.attributes.1.map Attribute.unplaced = attributes.map Attribute.unplaced ∧ c.attributes.2.Sees (close ++ z) := by
  induction attributes generalizing c with
  | nil =>
    have hsees : c.skipBlanks.Sees (close ++ z) := by
      refine Sees.skipBlanks (t := []) h (by simp [Blank]) ?_
      rcases hclose with rfl | rfl <;> simp [isBlank]
    rw [attributes_of_ends (hclose.endsAttributes hsees.rest)]
    exact ⟨rfl, hsees⟩
  | cons a as ih =>
    have hfirst := ha a (List.mem_cons_self ..)
    obtain ⟨d, u, hprint, hblank, -⟩ := hfirst.head
    have h : c.Sees ([' '] ++ (a.print ++ (printAttributes as ++ (close ++ z)))) := by simpa [printAttributes] using h
    have hsees := h.skipBlanks (by simp [Blank, isBlank]) (by rw [hprint]; simpa using hblank)
    -- behind the attribute comes the blank before the next one, or the end of the tag
    have hends : EndsAttribute (printAttributes as ++ (close ++ z)) := by
      cases as with
      | nil => exact hclose.endsAttribute z
      | cons b as =>
        have := (ha b (by simp)).endsAttribute (printAttributes as ++ (close ++ z))
        simpa [printAttributes] using this
    obtain ⟨a', ha', hsame, hlast⟩ := hsees.attribute?_print hfirst hends
    obtain ⟨hmore, hend⟩ := ih (fun b hb => ha b (List.mem_cons_of_mem a hb)) hlast
    rw [attributes_of_some ha']
    exact ⟨by rw [List.map_cons, List.map_cons, hsame, hmore], hend⟩

end Attributes

/-! ### Tags -/

section Tags

variable {c : Cursor} {z close : List Char} {attributes : List Attribute}

theorem IsMarkupName.exists_cons {name : String} (h : IsMarkupName name) :
    ∃ d u, name.toList = d :: u ∧ d.isAlpha = true := by
  obtain ⟨d, hd, halpha⟩ := h.first
  obtain ⟨u, hcons⟩ := List.head?_eq_some_iff.1 hd
  exact ⟨d, u, hcons, halpha⟩

/-- A blank or the end of the tag comes behind its name. -/
theorem head?_printAttributes (hclose : EndsTag close) (attributes : List Attribute) (z : List Char) :
    ∃ d ∈ (printAttributes attributes ++ (close ++ z)).head?, endsTagName d = true := by
  cases attributes with
  | nil => rcases hclose with rfl | rfl <;> exact ⟨_, rfl, rfl⟩
  | cons a as => exact ⟨' ', rfl, rfl⟩

theorem Cursor.Sees.openingTag {name : String} (hname : IsMarkupName name) (ha : ∀ a ∈ attributes, a.Printable)
    (hclose : EndsTag close) (h : c.Sees (openingTag name attributes close ++ z)) : c.AtElement
      ∧ (readOpeningTag c).name = name
      ∧ (readOpeningTag c).attributes.map Attribute.unplaced = attributes.map Attribute.unplaced
      ∧ (readOpeningTag c).cursor.Sees (close ++ z) := by
  have hrest : c.rest = '<' :: (name.toList ++ (printAttributes attributes ++ (close ++ z))) := by
    rw [h.rest]
    simp [Markup.openingTag]
  obtain ⟨d, u, hcons, halpha⟩ := hname.exists_cons
  have hone : (c.moved (c.rest.take 1) (c.rest.drop 1)).rest =
      name.toList ++ (printAttributes attributes ++ (close ++ z)) := by
    rw [hrest]
    rfl
  have hword : (c.moved (c.rest.take 1) (c.rest.drop 1)).takeWhile (!endsTagName ·) = (name.toList, _) :=
    takeWhile_of_append hone (fun e he => by simp [(hname.letters e he).1]) fun e he => by
      obtain ⟨f, hf, hends⟩ := head?_printAttributes hclose attributes z
      rw [Option.mem_def.1 hf] at he
      cases he
      simp [hends]
  have hsees : ((c.moved (c.rest.take 1) (c.rest.drop 1)).moved name.toList
      (printAttributes attributes ++ (close ++ z))).Sees _ := ⟨rfl, h.faults⟩
  obtain ⟨hsame, hlast⟩ := hsees.attributes_print ha hclose
  refine ⟨⟨d, _, by rw [hrest, hcons]; rfl, halpha⟩, ?_⟩
  rw [readOpeningTag, hword]
  exact ⟨String.ofList_toList, hsame, hlast⟩

theorem closesTag_closingTag {name : String} (h : ∀ d ∈ name.toList, endsTagName d = false) :
    ClosesTag name (closingTag name) := ⟨h, [], by simp [Blank], by simp [closingTag]⟩

theorem closesBlock_blockTag {keyword : String} (h : ∀ d ∈ keyword.toList, d.isAlpha = true) :
    ClosesBlock keyword (blockTag '/' keyword []) := ⟨h, [], by simp [Blank], by simp [blockTag]⟩

/-! ### Scripts and styles -/

/-- A printed script or style is read back. -/
theorem Cursor.Sees.rawBlock_print {name content : String}
    (ha : ∀ a ∈ attributes, a.Printable) (hcontent : Free ('<' :: '/' :: name.toList) content.toList)
    (h : c.Sees (printRaw name attributes content ++ z)) : c.atTag name.toList = true
      ∧ (c.rawBlock name.toList).attributes.map Attribute.unplaced = attributes.map Attribute.unplaced
      ∧ (c.rawBlock name.toList).content = content ∧ (c.rawBlock name.toList).cursor.Sees z := by
  have hrest : c.rest = '<' :: (name.toList ++ (printAttributes attributes ++ (['>'] ++ (content.toList
      ++ (('<' :: '/' :: name.toList) ++ ([] ++ '>' :: z)))))) := by
    rw [h.rest]
    simp [printRaw, Markup.openingTag, closingTag]
  obtain ⟨d, hd, hends⟩ := head?_printAttributes (.inl rfl) attributes
    (content.toList ++ (('<' :: '/' :: name.toList) ++ ([] ++ '>' :: z)))
  have hat : c.atTag name.toList = true := atTag_of_rest hrest fun e he => by
    rw [Option.mem_def.1 hd] at he
    cases he
    exact hends
  have hsees : (c.moved ('<' :: name.toList) (printAttributes attributes ++ (['>'] ++ (content.toList
      ++ (('<' :: '/' :: name.toList) ++ ([] ++ '>' :: z)))))).Sees _ := ⟨rfl, h.faults⟩
  obtain ⟨hsame, hlast⟩ := hsees.attributes_print ha (.inl rfl)
  obtain ⟨hattributes, htext, hend⟩ := Sees.rawBlock_content hrest (by simp [Blank]) hcontent hlast
  exact ⟨hat, by rw [hattributes, hsame], by rw [htext, String.ofList_toList], hend⟩

end Tags

end Restyle.Markup
