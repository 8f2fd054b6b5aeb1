import Restyle.Proofs.Markup.Tags
import Restyle.Proofs.Text.Weave

/-! Attributes in a woven text. Attributes of a tag may give way to spreads or be dropped; what is left of
the tag is still read without a fault, and up to the same place. -/

namespace Restyle.Markup

open Text

namespace Cursor

variable {w : Weave} {c c' c₁ : Cursor} {t z : List Char}

theorem Reaches.offset_eq (h : c.Reaches c₁) (hc : c.rest = t ++ c₁.rest) :
    c₁.offset = c.offset + width t := by
  obtain ⟨read, hread, hoffset, -⟩ := h
  rw [hoffset, List.append_cancel_right (hc.symm.trans hread)]

/-- The second cursor stands before what becomes of the text before the first one. -/
def Follows (w : Weave) (c c' : Cursor) : Prop := c'.Sees (w.text c.offset c.rest)

/-- What is read where nothing happens comes through. -/
theorem Reaches.text_of_quiet (h : c.Reaches c₁) (hc : c.rest = t ++ c₁.rest)
    (hquiet : w.Quiet c.offset c₁.offset) :
    w.text c.offset c.rest = t ++ w.text c₁.offset c₁.rest := by
  have hoffset := h.offset_eq hc
  rw [hoffset] at hquiet ⊢
  rw [hc]
  exact hquiet.text_append _

/-- What is read gives way to a new text. -/
theorem Reaches.text_of_replaces {new : List Char} (h : c.Reaches c₁) (hc : c.rest = t ++ c₁.rest)
    (ht : t ≠ []) (hreplaces : w.Replaces (c₁.spanFrom c.offset) new) :
    w.text c.offset c.rest = new ++ w.text c₁.offset c₁.rest := by
  have hoffset := h.offset_eq hc
  rw [spanFrom, hoffset] at hreplaces
  rw [hoffset, hc]
  exact hreplaces.text_append ht _

theorem Follows.sees (h : c.Follows w c') (hreach : c.Reaches c₁) (hc : c.rest = t ++ c₁.rest)
    (hquiet : w.Quiet c.offset c₁.offset) : c'.Sees (t ++ w.text c₁.offset c₁.rest) := by
  rw [← hreach.text_of_quiet hc hquiet]
  exact h

end Cursor

/-! ### Edits of attributes -/

/-- The attribute is written with a name that does not begin with a slash. -/
def Attribute.Named : Attribute → Prop
  | .normal _ name _ => name.toList.head? ≠ some '/'
  | _ => False

/-- The attribute is a spread or a shorthand, or is written with such a name. -/
def Attribute.Expandable : Attribute → Prop
  | .spread .. | .shorthand .. => True
  | a => a.Named

/-- What may become of an attribute. -/
inductive Edits (w : Weave) (a : Attribute) : Prop where
  | keep (h : w.Quiet a.span.start a.span.stop)
  | spread (raw : List Char) (h : w.Replaces a.span ('{' :: (raw ++ ['}']))) (hraw : Embedded.Closed raw)
    (hdots : ['.', '.', '.'] <+: trim raw) (ha : a.Expandable)
  | drop (h : w.Replaces a.span []) (ha : a.Named)

/-- The attributes of a tag, and those that are read of what becomes of it. -/
inductive Rewoven (w : Weave) : List Attribute → List Attribute → Prop where
  | nil : Rewoven w [] []
  | keep {a a' : Attribute} {as as' : List Attribute} (h : w.Quiet a.span.start a.span.stop)
    (hsame : a'.unplaced = a.unplaced) (hmore : Rewoven w as as') : Rewoven w (a :: as) (a' :: as')
  | spread {a a' : Attribute} {as as' : List Attribute} {raw rest : List Char}
    (h : w.Replaces a.span ('{' :: (raw ++ ['}']))) (hraw : trim raw = ['.', '.', '.'] ++ rest)
    (hsame : a'.unplaced = (Attribute.spread (.point 0) (.ofRaw 0 rest)).unplaced) (hmore : Rewoven w as as') :
    Rewoven w (a :: as) (a' :: as')
  | drop {a : Attribute} {as as' : List Attribute} (h : w.Replaces a.span []) (hmore : Rewoven w as as') :
    Rewoven w (a :: as) as'

/-- Where nothing happens the same attributes are read. -/
theorem Rewoven.of_quiet {w : Weave} {lo hi : Nat} {as as' : List Attribute} (h : Rewoven w as as')
    (hquiet : w.Quiet lo hi) (hin : ∀ a ∈ as, lo ≤ a.span.start ∧ a.span.start < a.span.stop ∧ a.span.stop ≤ hi) :
    as'.map Attribute.unplaced = as.map Attribute.unplaced := by
  induction h with
  | nil => rfl
  | keep _ hsame _ ih =>
    rw [List.map_cons, List.map_cons, hsame, ih fun b hb => hin b (List.mem_cons_of_mem _ hb)]
  | spread h _ _ _ _ =>
    obtain ⟨hlo, hlt, hhi⟩ := hin _ (List.mem_cons_self ..)
    exact absurd hquiet (h.not_quiet hlt hlo (by omega))
  | drop h _ _ =>
    obtain ⟨hlo, hlt, hhi⟩ := hin _ (List.mem_cons_self ..)
    exact absurd hquiet (h.not_quiet hlt hlo (by omega))

/-- The weave does nothing between two offsets but to the given attributes. -/
structure Suits (w : Weave) (lo : Nat) (attributes : List Attribute) (hi : Nat) : Prop where
  still : ∀ o, lo ≤ o → o < hi → (∀ a ∈ attributes, a.span.contains o = false) →
    w.put o = [] ∧ w.drops o = false
  edits : ∀ a ∈ attributes, Edits w a

namespace Cursor

variable {w : Weave} {c c' c₁ : Cursor} {t y y' z z' : List Char} {a : Attribute}

theorem Written.of_named (h : Written c a) (ha : a.Named) :
    endsName c.rest = false ∧ c.rest.head? ≠ some '/' := by
  cases a with
  | normal span name value =>
    obtain ⟨hends, hhead⟩ := h.of_normal
    rw [← hhead]
    exact ⟨hends, ha⟩
  | _ => cases ha

theorem Written.of_expandable (h : Written c a) (ha : a.Expandable) : c.rest.head? ≠ some '/' := by
  have of_name : ∀ {s name v}, a = namedAttribute s name v → c.rest.head? ≠ some '/' := by
    rintro s name v rfl
    rcases namedAttribute_cases s name v with hnormal | ⟨_, _, _, _, hdirective⟩
    · rw [hnormal] at h ha
      exact (h.of_named ha).2
    · rw [hdirective] at ha
      cases ha
  cases h with
  | brace ds e hc =>
    rw [hc]
    simp
  | name _ _ _ ha => exact of_name ha
  | value _ _ _ _ ha => exact of_name ha

/-- Blanks before what is ready. -/
theorem Ready.blanks {blanks : List Char} (hblanks : Blank blanks) (h : Ready z z') :
    Ready (blanks ++ z) (blanks ++ z') := by
  cases blanks with
  | nil => exact h
  | cons b blanks =>
    have hb : isBlank b = true := hblanks b (List.mem_cons_self ..)
    refine ⟨fun _ => ⟨by simp [endsName, hb], rfl⟩, fun hslash => hslash, ?_⟩
    rw [List.dropWhile_append_of_pos hblanks]
    exact h.unequal

/-- An attribute that is kept. -/
theorem Ready.keep (h : Written c a) (hc : c.rest = t ++ z) (ht : t ≠ []) (z' : List Char) :
    Ready (t ++ z) (t ++ z') := by
  have hbegins := h.begins
  rw [hc] at hbegins
  cases t with
  | nil => exact absurd rfl ht
  | cons d t =>
    rcases hbegins with ⟨ds, hbrace⟩ | hends
    · obtain ⟨rfl, -⟩ := List.cons.inj hbrace
      exact ⟨fun _ => ⟨rfl, rfl⟩, fun hslash => hslash, by simp [isBlank]⟩
    · have hblank : isBlank d = false ∧ d ≠ '=' := by
        simp only [List.cons_append, endsName, Bool.or_eq_false_iff, beq_eq_false_iff_ne] at hends
        tauto
      refine ⟨fun he => ?_, fun hslash => hslash, by simp [hblank]⟩
      rw [hends] at he
      cases he

/-- An attribute that gives way to a spread. -/
theorem Ready.spread (h : Written c a) (ha : a.Expandable) (z' : List Char) : Ready c.rest ('{' :: z') := by
  refine ⟨fun hends => ⟨rfl, ?_⟩, fun hslash => absurd hslash (h.of_expandable ha), by simp [isBlank]⟩
  rcases h.begins with ⟨ds, hbrace⟩ | hnot
  · rw [hbrace]
    rfl
  · rw [hnot] at hends
    cases hends

/-- An attribute that is dropped. -/
theorem Ready.drop (h : Written c a) (ha : a.Named) (hready : Ready z z') : Ready c.rest z' := by
  obtain ⟨hends, hslash⟩ := h.of_named ha
  refine ⟨fun he => ?_, fun hs => absurd hs hslash, hready.unequal⟩
  rw [hends] at he
  cases he

/-- A spread is read as an attribute. -/
theorem Sees.spread {raw rest : List Char} (hraw : Embedded.Closed raw) (hdots : trim raw = ['.', '.', '.'] ++ rest)
    (h : c.Sees ('{' :: (raw ++ '}' :: z))) : (∃ a, c.attribute?.1 = some a
      ∧ a.unplaced = (Attribute.spread (.point 0) (.ofRaw 0 rest)).unplaced) ∧ c.attribute?.2.Sees z := by
  obtain ⟨a, ha, hsame, hsees⟩ := h.gives_braced hraw (a := .spread (.point 0) (.ofRaw 0 rest))
    fun span o => bracedAttribute_of_dots hdots span o
  exact ⟨⟨a, ha, hsame⟩, hsees⟩

/-! ### The attributes of a tag -/

/-- The end of an opening tag. -/
def EndsTag (close : List Char) : Prop := close = ['>'] ∨ close = ['/', '>']

theorem EndsTag.ready {close : List Char} (h : EndsTag close) (z z' : List Char) :
    Ready (close ++ z) (close ++ z') := by
  rcases h with rfl | rfl
  · exact ⟨fun _ => ⟨by simp [endsName], rfl⟩, fun hs => hs, by simp [isBlank]⟩
  · exact ⟨fun _ => ⟨by simp [endsName], rfl⟩, fun hs => hs, by simp [isBlank]⟩

theorem EndsTag.endsAttributes {close : List Char} (h : EndsTag close) (hc : c.rest = close ++ z) :
    c.endsAttributes = true := by
  simp only [Cursor.endsAttributes, atEnd, startsWith, Bool.or_eq_true, List.isEmpty_iff, startsWith_iff, hc]
  rcases h with rfl | rfl
  · exact .inl (.inr (List.prefix_append _ _))
  · exact .inr (List.prefix_append _ _)

/-- A tag without attributes. -/
theorem follows_end {close : List Char} (hclose : c.skipBlanks.rest = close ++ z) (hends : EndsTag close)
    (hquiet : w.Quiet c.offset (c.skipBlanks.offset + width close)) :
    Ready c.rest (w.text c.offset c.rest) ∧ ∀ c' : Cursor, c.Follows w c' →
      c.skipBlanks.Follows w c'.attributes.2 ∧ c'.attributes.1 = [] := by
  obtain ⟨blanks, hblanks, hrest, -⟩ := rest_of_skipBlanks c
  have hskip := reaches_skipBlanks c
  have hbefore : w.Quiet c.offset c.skipBlanks.offset := hquiet.mono (Nat.le_refl _) (by omega)
  have htext : w.text c.skipBlanks.offset c.skipBlanks.rest =
      close ++ w.text (c.skipBlanks.offset + width close) z := by
    rw [hclose]
    exact (hquiet.mono hskip.offset_le (Nat.le_refl _)).text_append z
  refine ⟨?_, fun c' h => ?_⟩
  · rw [hskip.text_of_quiet hrest hbefore, hrest, htext, hclose]
    exact (hends.ready _ _).blanks hblanks
  · have hsees := (h.sees hskip hrest hbefore).skipBlanks hblanks (by
      rw [htext]
      rcases hends with rfl | rfl <;> simp [isBlank])
    rw [attributes_of_ends (hends.endsAttributes (hsees.rest.trans htext))]
    exact ⟨hsees, rfl⟩

/-- The first attribute of a tag, and what follows it. -/
theorem follows_first {last : Cursor} {as : List Attribute} (ha : c.skipBlanks.attribute?.1 = some a)
    (hfirst : c.skipBlanks.attribute?.2.faults = []) (hbefore : w.Quiet c.offset c.skipBlanks.offset)
    (hedits : Edits w a) (hready : Ready c.skipBlanks.attribute?.2.rest
      (w.text c.skipBlanks.attribute?.2.offset c.skipBlanks.attribute?.2.rest))
    (hmore : ∀ c' : Cursor, c.skipBlanks.attribute?.2.Follows w c' →
      last.Follows w c'.attributes.2 ∧ Rewoven w as c'.attributes.1) :
    Ready c.rest (w.text c.offset c.rest) ∧ ∀ c' : Cursor, c.Follows w c' →
      last.Follows w c'.attributes.2 ∧ Rewoven w (a :: as) c'.attributes.1 := by
  obtain ⟨blanks, hblanks, hrest, hnonblank⟩ := rest_of_skipBlanks c
  have hskip := reaches_skipBlanks c
  have hreach := reaches_attribute? c.skipBlanks
  have hwritten := written_of_attribute? ha
  have hspan := span_attribute? ha
  have hlt := length_attribute? (r := c.skipBlanks) (by
    intro hnil
    rw [attribute?, hnil] at ha
    cases ha)
  obtain ⟨t, ht, -⟩ := reaches_attribute? c.skipBlanks
  have htne : t ≠ [] := by
    rintro rfl
    rw [ht] at hlt
    exact Nat.lt_irrefl _ hlt
  rw [hskip.text_of_quiet hrest hbefore]
  cases hedits with
  | keep hkept =>
    have hquiet := hkept
    rw [hspan] at hquiet
    rw [hreach.text_of_quiet ht hquiet]
    refine ⟨?_, fun c' h => ?_⟩
    · conv_lhs => rw [hrest, ht]
      exact (Ready.keep hwritten ht htne _).blanks hblanks
    · have hsees := h.sees hskip hrest hbefore
      rw [hreach.text_of_quiet ht hquiet] at hsees
      have hsees := hsees.skipBlanks hblanks (by
        cases t with
        | nil => exact absurd rfl htne
        | cons d t =>
          rw [ht] at hnonblank
          exact hnonblank)
      obtain ⟨a', ha', hunplaced, hsees⟩ := hsees.attribute? hfirst ha ht rfl hready
      obtain ⟨hfollows, hsame⟩ := hmore _ hsees
      rw [attributes_of_some ha']
      exact ⟨hfollows, .keep hkept hunplaced hsame⟩
  | spread raw hreplaces hraw hdots hexpandable =>
    have htext := hreach.text_of_replaces ht htne (hspan ▸ hreplaces)
    rw [htext]
    refine ⟨?_, fun c' h => ?_⟩
    · conv_lhs => rw [hrest]
      exact (Ready.spread hwritten hexpandable _).blanks hblanks
    · have hsees := h.sees hskip hrest hbefore
      rw [htext] at hsees
      have hsees := hsees.skipBlanks hblanks (by simp [isBlank])
      obtain ⟨rest, hrest⟩ := hdots
      obtain ⟨⟨a', ha', hunplaced⟩, hsees⟩ := Sees.spread hraw hrest.symm (by simpa using hsees)
      obtain ⟨hfollows, hsame⟩ := hmore _ hsees
      rw [attributes_of_some ha']
      exact ⟨hfollows, .spread hreplaces hrest.symm hunplaced hsame⟩
  | drop hreplaces hnamed =>
    have htext := hreach.text_of_replaces ht htne (hspan ▸ hreplaces)
    rw [List.nil_append] at htext
    rw [htext]
    refine ⟨?_, fun c' h => ?_⟩
    · conv_lhs => rw [hrest]
      exact (hready.drop hwritten hnamed).blanks hblanks
    · have hsees := h.sees hskip hrest hbefore
      rw [htext] at hsees
      obtain ⟨hfollows, hsame⟩ := hmore (c'.moved blanks _) ⟨rfl, hsees.faults⟩
      rw [attributes_moved hblanks hsees.rest] at hfollows hsame
      exact ⟨hfollows, .drop hreplaces hsame⟩

/-- What is left of a tag is read up to the end of the tag. -/
theorem follows_attributes {close : List Char} (hclean : c.attributes.2.faults = [])
    (hclose : c.attributes.2.rest = close ++ z) (hends : EndsTag close)
    (hw : Suits w c.offset c.attributes.1 (c.attributes.2.offset + width close)) :
    Ready c.rest (w.text c.offset c.rest) ∧ ∀ c' : Cursor, c.Follows w c' →
      c.attributes.2.Follows w c'.attributes.2 ∧ Rewoven w c.attributes.1 c'.attributes.1 := by
  fun_induction Cursor.attributes c with
  | case1 c =>
    have hquiet : w.Quiet c.offset (c.skipBlanks.offset + width close) := fun o hlo hhi =>
      hw.still o hlo hhi (by simp)
    obtain ⟨hready, hfollows⟩ := follows_end hclose hends hquiet
    refine ⟨hready, fun c' h => ?_⟩
    obtain ⟨hlast, hnil⟩ := hfollows c' h
    rw [hnil]
    exact ⟨hlast, .nil⟩
  | case2 c hmore first more ih =>
    have hsome : c.skipBlanks.rest ≠ [] := by
      intro hnil
      exact hmore (by simp [endsAttributes, atEnd, hnil])
    have hlast : first.2.Reaches more.2 := reaches_attributes first.2
    have hfirst : first.2.faults = [] := hlast.clean hclean
    obtain ⟨a, ha⟩ := exists_of_attribute? hfirst hsome
    have hspan : a.span = first.2.spanFrom c.skipBlanks.offset := span_attribute? ha
    have hlist : first.1.toList ++ more.1 = a :: more.1 := by
      rw [show first.1 = some a from ha]
      rfl
    have hblanks := (reaches_skipBlanks c).offset_le
    have hreach : c.skipBlanks.offset ≤ first.2.offset := (reaches_attribute? c.skipBlanks).offset_le
    have hle := hlast.offset_le
    have hlater : ∀ b ∈ more.1, first.2.offset ≤ b.span.start := fun b hb =>
      ((inOrder_attributes first.2).of_mem (List.mem_map_of_mem hb)).1
    dsimp only at hw ⊢
    rw [hlist] at hw ⊢
    have hbefore : w.Quiet c.offset c.skipBlanks.offset := by
      intro o hlo hhi
      refine hw.still o hlo (by omega) fun b hb => ?_
      have hstart : c.skipBlanks.offset ≤ b.span.start := by
        rcases List.mem_cons.1 hb with rfl | hb
        · rw [hspan]
          exact Nat.le_refl _
        · exact Nat.le_trans hreach (hlater b hb)
      exact Span.contains_eq_false_iff.2 (.inl (by omega))
    have hw' : Suits w first.2.offset more.1 (more.2.offset + width close) := by
      refine ⟨fun o hlo hhi hnone => hw.still o (by omega) hhi fun b hb => ?_, fun b hb =>
        hw.edits b (List.mem_cons_of_mem a hb)⟩
      rcases List.mem_cons.1 hb with rfl | hb
      · rw [hspan]
        exact Span.contains_eq_false_iff.2 (.inr hlo)
      · exact hnone b hb
    obtain ⟨hready, hfollows⟩ := ih hclean hclose hw'
    exact follows_first ha hfirst hbefore (hw.edits a (List.mem_cons_self ..)) hready hfollows

end Cursor

end Restyle.Markup
