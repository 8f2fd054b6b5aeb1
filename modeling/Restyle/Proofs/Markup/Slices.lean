import Restyle.Proofs.Markup.Nodes
import Restyle.Proofs.Source.Slices

/-! What the parts of a tag hold. An expression is the slice of its span, without spaces around it; so is a
text in an attribute value. This does not depend on faults: what is kept of a faulty attribute was read
from where its span says. -/

namespace Restyle.Markup

open Text Restyle.Span

variable {source : String}

/-! ### Parts in place -/

/-- The expression is the slice of its span and has no spaces around it. -/
structure Expression.Placed (source : String) (e : Expression) : Prop where
  cuts : e.span.Cuts source.toList
  slice : e.span.slice? source = some e.text
  trimmed : trim e.text.toList = e.text.toList

def ValuePart.Placed (source : String) : ValuePart → Prop
  | text span value => span.Cuts source.toList ∧ span.slice? source = some value
  | expression span e => span.Cuts source.toList ∧ e.Placed source

def AttributeValue.Placed (source : String) : AttributeValue → Prop
  | absent => True
  | expression span e => span.Cuts source.toList ∧ e.Placed source
  | parts ps => ∀ p ∈ ps, p.Placed source

/-- The attribute lies on boundaries of the source, and so does all that is in it. -/
structure Attribute.Placed (source : String) (a : Attribute) : Prop where
  cuts : a.span.Cuts source.toList
  inside : match a with
    | normal _ _ value => value.Placed source
    | spread _ e | shorthand _ e | attach _ e => e.Placed source
    | directive _ _ _ _ value => ∀ v ∈ value, v.Placed source

theorem Expression.placed_ofRaw {o : Nat} {raw : List Char} (h : Stands source.toList o raw) :
    (Expression.ofRaw o raw).Placed source := by
  have hstands : Stands source.toList (o + width (raw.takeWhile isSpace)) (trim raw) := by
    obtain ⟨spaces, hraw⟩ := exists_trim raw
    rw [hraw] at h
    exact h.right.left
  exact ⟨cuts_of_stands hstands rfl, slice?_of_stands hstands rfl, by simp [ofRaw, trim_trim]⟩

/-- What follows a piece in an expression is an expression in place. -/
theorem Expression.Placed.suffix {e : Expression} {piece rest : List Char} (h : e.Placed source)
    (he : e.text.toList = piece ++ rest) : (Expression.ofRaw (e.span.start + width piece) rest).Placed source := by
  have hstands := (stands_of_slice? h.slice).1
  rw [he] at hstands
  exact placed_ofRaw hstands.right

namespace Cursor

variable {c : Cursor}

theorem On.stands {cs t z : List Char} (h : c.On cs) (hc : c.rest = t ++ z) : Stands cs c.offset t := by
  obtain ⟨before, hcs, hoffset⟩ := h
  exact ⟨before, z, by rw [hcs, hc], hoffset.symm⟩

theorem On.slice {t z : List Char} (h : c.On source.toList) (hc : c.rest = t ++ z) :
    ((c.moved t z).spanFrom c.offset).slice? source = some (String.ofList t) :=
  slice?_of_stands (h.stands hc) rfl

/-- What is read up to the first place where a test holds is the slice of its span. -/
theorem On.slice_breakWhere (h : c.On source.toList) (test : List Char → Bool) :
    ((c.breakWhere test).2.spanFrom c.offset).slice? source = some (String.ofList (c.breakWhere test).1) :=
  h.slice (breakWhere_append test c.rest).symm

theorem On.placed_braced (h : c.On source.toList) {e : Expression} (he : c.braced.1 = some e) : e.Placed source := by
  unfold braced at he
  split at he
  · next raw rest hsplit =>
    cases he
    exact Expression.placed_ofRaw (h.stands (Embedded.eq_of_split? hsplit))
  · cases he

/-! ### Values -/

theorem On.placed_valueParts (h : c.On source.toList) (quote : Option Char) :
    ∀ p ∈ (c.valueParts quote).1, p.Placed source := by
  fun_induction valueParts quote c with
  | case1 c hc => simp
  | case2 c d ds hc hend => simp
  | case3 c ds hc => simp
  | case4 c ds e hc hend inside he more ih =>
    have hone := h.reaches (reaches_moved_one hc)
    have hinside := (reaches_moved_one hc).trans (reaches_braced (c.moved ['{'] ds))
    intro p hp
    rcases List.mem_cons.1 hp with rfl | hp
    · exact ⟨h.cuts hinside, hone.placed_braced he⟩
    · exact ih (h.reaches hinside) p hp
  | case5 c d ds hc hend hbrace text more ih =>
    have htext := reaches_breakWhere c (endsValueText quote)
    intro p hp
    rcases List.mem_cons.1 hp with rfl | hp
    · exact ⟨h.cuts htext, h.slice_breakWhere _⟩
    · exact ih (h.reaches htext) p hp

theorem On.placed_value (h : c.On source.toList) : c.value.1.Placed source := by
  have plain : (value.unquoted c).1.Placed source := by
    have hparts := h.placed_valueParts none
    unfold value.unquoted
    dsimp only
    split
    · next span e heq => exact hparts (.expression span e) (by rw [heq]; exact List.mem_singleton_self _)
    · exact fun p hp => by cases hp
    · exact hparts
  unfold value
  split
  · next d ds hc =>
    split
    · have hone := reaches_moved_one hc
      have hinside := (reaches_valueParts (some d) (c.moved [d] ds))
      have hparts := (h.reaches hone).placed_valueParts (some d)
      have hpoint := ((h.reaches hone).reaches hinside)
      have hall : ∀ p ∈ (if ((c.moved [d] ds).valueParts (some d)).1.isEmpty then
          [ValuePart.text (.point ((c.moved [d] ds).valueParts (some d)).2.offset) ""]
          else ((c.moved [d] ds).valueParts (some d)).1), p.Placed source := by
        split
        · intro p hp
          rw [List.mem_singleton.1 hp]
          exact ⟨hpoint.cuts_point, hpoint.slice (t := []) rfl⟩
        · exact hparts
      dsimp only
      split
      · exact hall
      · exact hall
    · exact plain
  · exact plain

/-! ### Attributes -/

theorem placed_bracedAttribute {span : Span} {inner : Expression} {a : Attribute} (hspan : span.Cuts source.toList)
    (hinner : inner.Placed source) (h : bracedAttribute span inner = some a) : a.Placed source := by
  have hrest : ∀ {piece : List Char} {e : Expression}, (strip? piece inner.text.toList).map
      (fun rest => Expression.ofRaw (inner.span.start + width piece) rest) = some e → e.Placed source := by
    intro piece e he
    obtain ⟨rest, hstrip, rfl⟩ := Option.map_eq_some_iff.1 he
    exact hinner.suffix (strip?_eq_some_iff.1 hstrip)
  unfold bracedAttribute at h
  dsimp only at h
  split at h
  · next he =>
    cases h
    exact ⟨hspan, hrest he⟩
  · next he =>
    cases h
    exact ⟨hspan, hrest he⟩
  · split at h
    · cases h
    · cases h
      exact ⟨hspan, hinner⟩

theorem placed_namedAttribute {span : Span} (hspan : span.Cuts source.toList) (name : List Char)
    {value : AttributeValue} (hvalue : value.Placed source) : (namedAttribute span name value).Placed source := by
  unfold namedAttribute
  dsimp only
  split
  · exact ⟨hspan, hvalue⟩
  · split
    · exact ⟨hspan, hvalue⟩
    · refine ⟨hspan, ?_⟩
      cases value with
      | absent => simp
      | _ => simpa using hvalue

theorem On.placed_attribute? (h : c.On source.toList) {a : Attribute} :
    c.attribute?.1 = some a → a.Placed source := by
  unfold attribute?
  split
  · rintro ⟨⟩
  · next d ds hc =>
    split
    · have hone := reaches_moved_one hc
      have hinner := hone.trans (reaches_braced (c.moved [d] ds))
      dsimp only
      split
      · rintro ⟨⟩
      · next e he =>
        split
        · next a' ha =>
          rintro ⟨⟩
          exact placed_bracedAttribute (h.cuts hinner) ((h.reaches hone).placed_braced he) ha
        · rintro ⟨⟩
    · have hname := reaches_breakWhere c endsName
      dsimp only
      split
      · rintro ⟨⟩
      · split
        · next r heat =>
          rintro ⟨⟩
          have hvalue := hname.trans ((reaches_skipBlanks _).trans ((reaches_eat? heat).1.trans (reaches_skipBlanks _)))
          exact placed_namedAttribute (h.cuts (hvalue.trans (reaches_value _))) _ (h.reaches hvalue).placed_value
        · rintro ⟨⟩
          exact placed_namedAttribute (h.cuts hname) _ trivial

theorem On.placed_attributes (h : c.On source.toList) : ∀ a ∈ c.attributes.1, a.Placed source := by
  fun_induction attributes c with
  | case1 c _ => simp
  | case2 c hend first more ih =>
    have hblanks := h.reaches (reaches_skipBlanks c)
    intro a ha
    rcases List.mem_append.1 ha with ha | ha
    · exact hblanks.placed_attribute? (Option.mem_toList.1 ha)
    · exact ih (hblanks.reaches (reaches_attribute? c.skipBlanks)) a ha

end Cursor

/-! ### Expressions in braces -/

theorem Expression.enclosed_ofRaw (o : Nat) (raw : List Char) :
    (⟨o, o + width raw⟩ : Span).Encloses (Expression.ofRaw o raw).span := by
  obtain ⟨spaces, hraw⟩ := exists_trim raw
  have hwidth := congrArg width hraw
  simp only [width_append] at hwidth
  simp only [Encloses, ofRaw]
  omega

/-- The only expression of the value has a brace on either side inside the attribute. -/
def Attribute.Braced : Attribute → Prop
  | normal span _ value => ∀ e ∈ value.single?, span.Surrounds e.span
  | spread .. | shorthand .. | directive .. | attach .. => True

theorem AttributeValue.eq_of_single?_parts {ps : List ValuePart} {e : Expression}
    (h : (AttributeValue.parts ps).single? = some e) : ∃ span, ps = [.expression span e] := by
  unfold single? at h
  split at h
  · next heq => cases heq
  · next heq =>
    cases h
    cases heq
    exact ⟨_, rfl⟩
  · cases h

namespace Cursor

variable {c : Cursor}

theorem surrounds_braced {d : Char} {ds : List Char} {e : Expression}
    (he : (c.moved [d] ds).braced.1 = some e) :
    (⟨c.offset, (c.moved [d] ds).braced.2.offset⟩ : Span).Surrounds e.span := by
  unfold braced at he ⊢
  split at he
  · next raw rest hsplit =>
    cases he
    have henclosed := Expression.enclosed_ofRaw (c.moved [d] ds).offset raw
    have := d.utf8Size_pos
    simp only [Surrounds, Encloses, moved, width_cons, width_nil] at henclosed ⊢
    omega
  · cases he

theorem surrounds_valueParts (quote : Option Char) {span : Span} {e : Expression}
    (h : .expression span e ∈ (c.valueParts quote).1) :
    (⟨c.offset, (c.valueParts quote).2.offset⟩ : Span).Surrounds e.span := by
  fun_induction valueParts quote c with
  | case1 c hc => cases h
  | case2 c d ds hc hend => cases h
  | case3 c ds hc => cases h
  | case4 c ds e' hc hend inside he more ih =>
    rcases List.mem_cons.1 h with heq | hmem
    · cases heq
      exact (surrounds_braced he).mono (Nat.le_refl _) (reaches_valueParts quote inside.2).offset_le
    · exact (ih hmem).mono ((reaches_moved_one hc).trans (reaches_braced _)).offset_le (Nat.le_refl _)
  | case5 c d ds hc hend hbrace text more ih =>
    rcases List.mem_cons.1 h with heq | hmem
    · cases heq
    · exact (ih hmem).mono (reaches_breakWhere c _).offset_le (Nat.le_refl _)

theorem surrounds_value {e : Expression} (he : c.value.1.single? = some e) :
    (⟨c.offset, c.value.2.offset⟩ : Span).Surrounds e.span := by
  have plain : (value.unquoted c).1.single? = some e →
      (⟨c.offset, (value.unquoted c).2.offset⟩ : Span).Surrounds e.span := by
    unfold value.unquoted
    dsimp only
    split
    · next span e' heq =>
      intro he
      cases he
      exact surrounds_valueParts none (by rw [heq]; exact List.mem_singleton_self _)
    · rintro ⟨⟩
    · intro he
      obtain ⟨span, hspan⟩ := AttributeValue.eq_of_single?_parts he
      exact surrounds_valueParts none (by rw [hspan]; exact List.mem_singleton_self _)
  revert he
  unfold value
  split
  · next d ds hc =>
    split
    · have hone := (reaches_moved_one hc).offset_le
      have hparts : ∀ {hi : Nat}, ((c.moved [d] ds).valueParts (some d)).2.offset ≤ hi →
          (AttributeValue.parts (if ((c.moved [d] ds).valueParts (some d)).1.isEmpty then
            [ValuePart.text (.point ((c.moved [d] ds).valueParts (some d)).2.offset) ""]
            else ((c.moved [d] ds).valueParts (some d)).1)).single? = some e →
          (⟨c.offset, hi⟩ : Span).Surrounds e.span := by
        intro hi hle he
        obtain ⟨span, hspan⟩ := AttributeValue.eq_of_single?_parts he
        split at hspan
        · cases hspan
        · exact (surrounds_valueParts (some d) (by rw [hspan]; exact List.mem_singleton_self _)).mono hone hle
      dsimp only
      split
      · next heat => exact hparts (reaches_eat? heat).1.offset_le
      · exact hparts (Nat.le_refl _)
    · exact plain
  · exact plain

theorem braced_namedAttribute {span : Span} (name : List Char) {value : AttributeValue}
    (hvalue : ∀ e ∈ value.single?, span.Surrounds e.span) : (namedAttribute span name value).Braced := by
  unfold namedAttribute
  dsimp only
  split
  · exact hvalue
  · split
    · exact hvalue
    · trivial

theorem braced_attribute? {a : Attribute} : c.attribute?.1 = some a → a.Braced := by
  unfold attribute?
  split
  · rintro ⟨⟩
  · next d ds hc =>
    split
    · dsimp only
      split
      · rintro ⟨⟩
      · split
        · next ha =>
          rintro ⟨⟩
          unfold bracedAttribute at ha
          dsimp only at ha
          split at ha
          · cases ha
            trivial
          · cases ha
            trivial
          · split at ha <;> cases ha
            trivial
        · rintro ⟨⟩
    · dsimp only
      split
      · rintro ⟨⟩
      · split
        · next r heat =>
          rintro ⟨⟩
          have hvalue := (reaches_breakWhere c endsName).trans
            ((reaches_skipBlanks _).trans ((reaches_eat? heat).1.trans (reaches_skipBlanks _)))
          exact braced_namedAttribute _ fun e he =>
            (surrounds_value (Option.mem_def.1 he)).mono hvalue.offset_le (Nat.le_refl _)
        · rintro ⟨⟩
          exact braced_namedAttribute _ (by simp [AttributeValue.single?])

theorem braced_attributes : ∀ a ∈ c.attributes.1, a.Braced := by
  fun_induction attributes c with
  | case1 c _ => simp
  | case2 c hend first more ih =>
    intro a ha
    rcases List.mem_append.1 ha with ha | ha
    · exact braced_attribute? (Option.mem_toList.1 ha)
    · exact ih a ha

end Cursor

/-- All that a tag shows is in place. -/
theorem tagShows_placed {c : Cursor} (h : c.On source.toList) : TagShows (Attribute.Placed source) c := by
  intro _
  exact ((h.reaches (reaches_moved_take c 1)).reaches (Cursor.reaches_takeWhile _ _)).placed_attributes

/-- Expressions of a tag are in braces. -/
theorem tagShows_braced (c : Cursor) : TagShows Attribute.Braced c := fun _ => Cursor.braced_attributes

end Restyle.Markup
