import Restyle.Proofs.Markup.Rereading
import Restyle.Proofs.Markup.Woven

/-! Tags in a woven text. An element whose attributes give way to others, and a script that takes in texts,
are read up to the same place as before. -/

namespace Restyle.Markup

open Text Cursor

variable {w : Weave} {c c' c₁ : Cursor} {t z z' close : List Char} {lo hi : Nat}

/-! ### Opening tags -/

theorem Suits.of_quiet {attributes : List Attribute} (h : w.Quiet lo hi)
    (hin : ∀ a ∈ attributes, lo ≤ a.span.start ∧ a.span.stop ≤ hi) : Suits w lo attributes hi where
  still o hlo hhi _ := h o hlo hhi
  edits a ha := .keep (h.mono (hin a ha).1 (hin a ha).2)

theorem Suits.mono {lo' hi' : Nat} {attributes : List Attribute} (h : Suits w lo attributes hi)
    (hlo : lo ≤ lo') (hhi : hi' ≤ hi) : Suits w lo' attributes hi' where
  still o ho ho' := h.still o (Nat.le_trans hlo ho) (Nat.lt_of_lt_of_le ho' hhi)
  edits := h.edits

/-- Nothing happens before the attributes. -/
theorem Suits.before {attributes : List Attribute} (h : Suits w lo attributes hi) {mid : Nat}
    (hmid : ∀ a ∈ attributes, mid ≤ a.span.start) (hle : mid ≤ hi) : w.Quiet lo mid := by
  intro o hlo hhi
  refine h.still o hlo (by omega) fun a ha => ?_
  have := hmid a ha
  exact Span.contains_eq_false_iff.2 (.inl (by omega))

/-- Nothing happens behind the attributes. -/
theorem Suits.behind {attributes : List Attribute} (h : Suits w lo attributes hi) {mid : Nat}
    (hmid : ∀ a ∈ attributes, a.span.stop ≤ mid) (hle : lo ≤ mid) : w.Quiet mid hi := by
  intro o hlo hhi
  refine h.still o (by omega) hhi fun a ha => ?_
  have := hmid a ha
  exact Span.contains_eq_false_iff.2 (.inr (by omega))

/-- What comes behind the name of a tag still ends it. -/
theorem Cursor.Ready.endsTagName (h : Ready z z') (hz : ∃ d ∈ z.head?, endsTagName d = true) :
    ∃ d ∈ z'.head?, Markup.endsTagName d = true := by
  obtain ⟨d, hd, hends⟩ := hz
  have hd := Option.mem_def.1 hd
  by_cases hslash : d = '/'
  · subst hslash
    exact ⟨'/', h.slash hd, rfl⟩
  · refine ⟨d, ?_, hends⟩
    rw [Option.mem_def, ← hd]
    refine (h.ends ?_).2
    obtain ⟨rest, rfl⟩ : ∃ rest, z = d :: rest := by
      cases z with
      | nil => cases hd
      | cons e rest =>
        cases hd
        exact ⟨rest, rfl⟩
    simp only [Markup.endsTagName, Bool.or_eq_true, beq_iff_eq, hslash, or_false] at hends
    simp only [endsName, Bool.or_eq_true, beq_iff_eq]
    tauto

/-- A tag from its name on. -/
theorem Cursor.Follows.attributes {name : List Char} (hc : c.rest = '<' :: (name ++ c₁.rest))
    (hreach : c.Reaches c₁) (hclean : c₁.attributes.2.faults = []) (hclose : c₁.attributes.2.rest = close ++ z)
    (hends : EndsTag close) (hw : Suits w c.offset c₁.attributes.1 (c₁.attributes.2.offset + width close))
    (h : c.Follows w c') : Ready c₁.rest (w.text c₁.offset c₁.rest)
      ∧ c'.rest = '<' :: (name ++ w.text c₁.offset c₁.rest) ∧ ∀ c₁' : Cursor, c₁.Follows w c₁' →
        c₁.attributes.2.Follows w c₁'.attributes.2 ∧ Rewoven w c₁.attributes.1 c₁'.attributes.1 := by
  have hle := (reaches_attributes c₁).offset_le
  have hbefore : w.Quiet c.offset c₁.offset := hw.before
    (fun a ha => ((inOrder_attributes c₁).of_mem (List.mem_map_of_mem ha)).1) (by omega)
  obtain ⟨hready, hfollows⟩ := follows_attributes hclean hclose hends
    (hw.mono hreach.offset_le (Nat.le_refl _))
  exact ⟨hready, (h.sees (t := '<' :: name) hreach hc hbefore).rest, hfollows⟩

/-- The tag at a cursor has the given name, and another cursor stands behind it. -/
structure OpensWith (c : Cursor) (name : List Char) (c₁ : Cursor) : Prop where
  first : ∃ d u, name = d :: u ∧ d.isAlpha = true
  letters : ∀ d ∈ name, endsTagName d = false
  ends : ∀ d ∈ c₁.rest.head?, endsTagName d = true
  rest : c.rest = '<' :: (name ++ c₁.rest)
  reaches : c.Reaches c₁
  tag : readOpeningTag c = ⟨String.ofList name, c₁.attributes.1, c₁.attributes.2⟩

theorem not_endsTagName {d : Char} (h : d.isAlpha = true) : endsTagName d = false := by
  simp only [endsTagName, isBlank, Bool.or_eq_false_iff, beq_eq_false_iff_ne]
  refine ⟨⟨⟨⟨⟨⟨?_, ?_⟩, ?_⟩, ?_⟩, ?_⟩, ?_⟩, ?_⟩ <;> rintro rfl <;> cases h

theorem exists_opensWith (hat : c.AtElement) : ∃ name c₁, OpensWith c name c₁ := by
  obtain ⟨d, rest, hrest, hd⟩ := hat
  have hone : c.moved (c.rest.take 1) (c.rest.drop 1) = c.moved ['<'] (d :: rest) := by
    rw [hrest]
    rfl
  have hfirst : (c.moved ['<'] (d :: rest)).takeWhile (!endsTagName ·) =
      (d :: rest.takeWhile (!endsTagName ·),
        (c.moved ['<'] (d :: rest)).moved (d :: rest.takeWhile (!endsTagName ·))
          (rest.dropWhile (!endsTagName ·))) := by
    simp [Cursor.takeWhile, not_endsTagName hd]
  obtain ⟨hsplit, hname, hends⟩ := rest_of_takeWhile (c.moved ['<'] (d :: rest)) (!endsTagName ·)
  have hreach := reaches_takeWhile (c.moved ['<'] (d :: rest)) (!endsTagName ·)
  rw [hfirst] at hsplit hname hends hreach
  refine ⟨_, _, ⟨d, _, rfl, hd⟩, fun e he => by simpa using hname e he,
    fun e he => by simpa using hends e he, ?_, (reaches_moved_one hrest).trans hreach, ?_⟩
  · rw [hrest, ← hsplit]
    rfl
  · rw [readOpeningTag, hone, hfirst]

/-- Something comes behind the name of a tag that ends. -/
theorem exists_head?_of_attributes (hclose : c.attributes.2.rest = close ++ z) (hends : EndsTag close) :
    ∃ d, d ∈ c.rest.head? := by
  obtain ⟨read, hread, -⟩ := reaches_attributes c
  rw [hclose] at hread
  cases hrest : c.rest with
  | nil =>
    rw [hrest] at hread
    rcases hends with rfl | rfl <;> simp at hread
  | cons d rest => exact ⟨d, rfl⟩

/-- The opening tag of an element. -/
theorem Cursor.Follows.readOpeningTag (hat : c.AtElement) (hclean : (readOpeningTag c).cursor.faults = [])
    (hclose : (readOpeningTag c).cursor.rest = close ++ z) (hends : EndsTag close)
    (hw : Suits w c.offset (readOpeningTag c).attributes ((readOpeningTag c).cursor.offset + width close))
    (h : c.Follows w c') : c'.AtElement ∧ (Markup.readOpeningTag c').name = (Markup.readOpeningTag c).name
      ∧ Rewoven w (Markup.readOpeningTag c).attributes (Markup.readOpeningTag c').attributes
      ∧ (Markup.readOpeningTag c).cursor.Follows w (Markup.readOpeningTag c').cursor := by
  obtain ⟨name, c₁, hopens⟩ := exists_opensWith hat
  rw [hopens.tag] at hclean hclose hw ⊢
  obtain ⟨hready, hc', hfollows⟩ := h.attributes hopens.rest hopens.reaches hclean hclose hends hw
  obtain ⟨d, u, rfl, hd⟩ := hopens.first
  obtain ⟨e, he⟩ := exists_head?_of_attributes hclose hends
  obtain ⟨e, he, hends'⟩ := hready.endsTagName ⟨e, he, hopens.ends e he⟩
  have hone : (c'.moved (c'.rest.take 1) (c'.rest.drop 1)).rest = (d :: u) ++ w.text c₁.offset c₁.rest := by
    rw [hc']
    rfl
  have hword : (c'.moved (c'.rest.take 1) (c'.rest.drop 1)).takeWhile (!endsTagName ·) = (d :: u, _) :=
    takeWhile_of_append hone (fun e he => by simp [hopens.letters e he]) fun e' he' => by
      rw [Option.mem_def.1 he] at he'
      cases he'
      simp [hends']
  have hmoved : c₁.Follows w ((c'.moved (c'.rest.take 1) (c'.rest.drop 1)).moved (d :: u)
      (w.text c₁.offset c₁.rest)) := ⟨rfl, h.faults⟩
  obtain ⟨hlast, hattributes⟩ := hfollows _ hmoved
  rw [Markup.readOpeningTag, hword]
  exact ⟨⟨d, _, hc', hd⟩, rfl, hattributes, hlast⟩

/-- Without a fault an opening tag ends. -/
theorem exists_endsTag {tag : OpeningTag} {start : Nat} (hclean : (tag.element start).2.faults = []) :
    ∃ close z, EndsTag close ∧ tag.cursor.rest = close ++ z
      ∧ tag.cursor.offset + width close ≤ (tag.element start).2.offset := by
  obtain ⟨close, c, hends, heat, hreach⟩ | hfault := (tag.ends_element start).reaches_end
  · have hafter := (reaches_eat? heat).1.offset_eq (rest_of_eat? heat).1
    refine ⟨close, c.rest, hends, (rest_of_eat? heat).1, ?_⟩
    rw [← hafter]
    exact hreach.offset_le
  · cases hfault.clean hclean

/-- An element is read up to the same place, whatever becomes of its attributes. -/
theorem Cursor.Follows.readElement (hat : c.AtElement) (hclean : (readElement c).2.faults = [])
    (hw : Suits w c.offset (Markup.readOpeningTag c).attributes (readElement c).2.offset) (h : c.Follows w c') :
    c'.AtElement ∧ (Markup.readOpeningTag c').name = (Markup.readOpeningTag c).name
      ∧ (Markup.readElement c).1.Like (Rewoven w) (Markup.readElement c').1
      ∧ (Markup.readElement c).2.Follows w (Markup.readElement c').2 := by
  have hreach := reaches_element (Markup.readOpeningTag c) c.offset
  obtain ⟨close, z, hends, hclose, hle⟩ := exists_endsTag hclean
  obtain ⟨hat', hname, hattributes, hfollows⟩ := h.readOpeningTag hat (hreach.clean hclean) hclose hends
    (hw.mono (Nat.le_refl _) hle)
  obtain ⟨t, ht, -⟩ := reaches_element (Markup.readOpeningTag c) c.offset
  have htag : c.offset ≤ (Markup.readOpeningTag c).cursor.offset :=
    ((reaches_moved_take c 1).trans (reaches_readOpeningTag c)).offset_le
  have hquiet : w.Quiet (Markup.readOpeningTag c).cursor.offset (Markup.readElement c).2.offset := by
    refine hw.behind (fun a ha => ?_) htag
    exact ((inOrder_attributes _).of_mem (List.mem_map_of_mem ha)).2.2
  have hagain : _ ∧ ((Markup.readOpeningTag c').element c'.offset).2.Sees _ :=
    Cursor.Sees.element hname hattributes hclean ht rfl (hfollows.sees hreach ht hquiet)
  obtain ⟨hlike, hsees⟩ := hagain
  exact ⟨hat', hname, hlike, hsees⟩

/-! ### Scripts and styles -/

section Raw

variable {name blanks : List Char} {b : RawBlock}

theorem rest_of_atTag (h : c.atTag name = true) :
    ∃ rest, c.rest = '<' :: (name ++ rest) ∧ ∀ d ∈ rest.head?, endsTagName d = true := by
  unfold Cursor.atTag at h
  split at h
  · next hstrip => exact ⟨[], strip?_eq_some_iff.1 hstrip, by simp⟩
  · next d rest hstrip =>
    refine ⟨d :: rest, strip?_eq_some_iff.1 hstrip, ?_⟩
    rintro e he
    cases he
    exact h
  · cases h

theorem atTag_of_rest {rest : List Char} (hc : c.rest = '<' :: (name ++ rest))
    (h : ∀ d ∈ rest.head?, endsTagName d = true) : c.atTag name = true := by
  rw [Cursor.atTag, strip?_eq_some_iff.2 (show c.rest = ('<' :: name) ++ rest from hc)]
  cases rest with
  | nil => rfl
  | cons d rest => exact h d rfl

/-- How a raw block was read from behind its name on. -/
inductive Cursor.ReadsRaw (name : List Char) (c₁ : Cursor) (b : RawBlock) : Prop where
  | selfClosing (hclose : c₁.attributes.2.rest = ['/', '>'] ++ b.cursor.rest)
    (hspan : b.contentSpan = .point b.cursor.offset)
  | content (t blanks : List Char) (hblanks : Blank blanks) (hfree : Free ('<' :: '/' :: name) t)
    (hclose : c₁.attributes.2.rest =
      '>' :: (t ++ (('<' :: '/' :: name) ++ (blanks ++ '>' :: b.cursor.rest))))
    (hspan : b.contentSpan = ⟨c₁.attributes.2.offset + 1, c₁.attributes.2.offset + 1 + width t⟩)
    (hcontent : b.content = String.ofList t)

theorem rawBlock_moved (hc : c.rest = '<' :: (name ++ z)) (c₁ : Cursor) (hc₁ : c.moved ('<' :: name) z = c₁) :
    c.moved (c.rest.take (name.length + 1)) (c.rest.drop (name.length + 1)) = c₁ := by
  have htake : c.rest.take (name.length + 1) = '<' :: name := by simp [hc]
  have hdrop : c.rest.drop (name.length + 1) = z := by simp [hc]
  rw [htake, hdrop, hc₁]

/-- A raw block without a fault. -/
theorem readsRaw_rawBlock (hclean : (c.rawBlock name).cursor.faults = [])
    (hc : c.rest = '<' :: (name ++ z)) : (c.moved ('<' :: name) z).ReadsRaw name (c.rawBlock name)
      ∧ (c.rawBlock name).attributes = (c.moved ('<' :: name) z).attributes.1
      ∧ (c.moved ('<' :: name) z).attributes.2.Reaches (c.rawBlock name).cursor := by
  generalize hc₁ : c.moved ('<' :: name) z = c₁
  have hmoved := rawBlock_moved hc c₁ hc₁
  unfold Cursor.rawBlock at hclean ⊢
  dsimp only at hclean ⊢
  rw [hmoved] at hclean ⊢
  cases hself : c₁.attributes.2.eat? ['/', '>'] with
  | some r =>
    rw [hself] at hclean
    exact ⟨.selfClosing (rest_of_eat? hself).1 rfl, rfl, (reaches_eat? hself).1⟩
  | none =>
    rw [hself] at hclean
    dsimp only at hclean ⊢
    have hbody := reaches_expect c₁.attributes.2 ['>']
    obtain ⟨hsplit, -⟩ := rest_of_breakWhere (c₁.attributes.2.expect ['>'])
      (Text.startsWith ('<' :: '/' :: name))
    have htext := reaches_breakWhere (c₁.attributes.2.expect ['>']) (Text.startsWith ('<' :: '/' :: name))
    cases heat : ((c₁.attributes.2.expect ['>']).breakWhere
        (Text.startsWith ('<' :: '/' :: name))).2.eat? ('<' :: '/' :: name) with
    | none =>
      rw [heat] at hclean
      cases hclean
    | some r =>
      rw [heat] at hclean
      dsimp only at hclean ⊢
      have hend := (reaches_skipBlanks r).trans (reaches_expect _ ['>'])
      have hclosing := (rest_of_eat? heat).1
      have hopen := rest_of_expect (htext.clean ((reaches_eat? heat).1.trans hend |>.clean hclean))
      obtain ⟨blanks, hblanks, hr, -⟩ := rest_of_skipBlanks r
      rw [rest_of_expect hclean] at hr
      refine ⟨.content _ blanks hblanks (free_of_breakWhere hclosing) ?_ ?_ rfl, rfl,
        hbody.trans (htext.trans ((reaches_eat? heat).1.trans hend))⟩
      · refine hopen.trans (congrArg ('>' :: ·) (hsplit.trans (congrArg (_ ++ ·) (hclosing.trans ?_))))
        rw [hr]
        rfl
      · have hoffset := hbody.offset_eq hopen
        simp only [spanFrom, htext.offset_eq hsplit, hoffset]
        rfl

/-- A raw block without content. -/
theorem Cursor.Sees.rawBlock_selfClosing (hc : c.rest = '<' :: (name ++ z))
    (h : (c.moved ('<' :: name) z).attributes.2.Sees (['/', '>'] ++ z')) :
    (c.rawBlock name).attributes = (c.moved ('<' :: name) z).attributes.1 ∧ (c.rawBlock name).content = ""
      ∧ (c.rawBlock name).cursor.Sees z' := by
  unfold Cursor.rawBlock
  dsimp only
  rw [rawBlock_moved hc _ rfl, eat?_of_append h.rest]
  exact ⟨rfl, rfl, rfl, h.faults⟩

/-- A raw block with content. -/
theorem Cursor.Sees.rawBlock_content (hc : c.rest = '<' :: (name ++ z)) (hblanks : Blank blanks)
    (hfree : Free ('<' :: '/' :: name) t) (h : (c.moved ('<' :: name) z).attributes.2.Sees
      ('>' :: (t ++ (('<' :: '/' :: name) ++ (blanks ++ '>' :: z'))))) :
    (c.rawBlock name).attributes = (c.moved ('<' :: name) z).attributes.1
      ∧ (c.rawBlock name).content = String.ofList t ∧ (c.rawBlock name).cursor.Sees z' := by
  have hself : (c.moved ('<' :: name) z).attributes.2.eat? ['/', '>'] = none := by
    rw [eat?, h.rest]
    rfl
  have hbody : ((c.moved ('<' :: name) z).attributes.2.expect ['>']).Sees _ := Sees.expect h
  have htext := breakWhere_of_append hbody.rest (hfree.breakWhere _)
  have hclosing := hbody.moved
  have hlast : (((((c.moved ('<' :: name) z).attributes.2.expect ['>']).moved t
      (('<' :: '/' :: name) ++ (blanks ++ '>' :: z'))).moved ('<' :: '/' :: name)
        (blanks ++ '>' :: z')).skipBlanks.expect ['>']).Sees z' :=
    (hclosing.moved.skipBlanks hblanks (by simp [isBlank])).expect
  unfold Cursor.rawBlock
  dsimp only
  rw [rawBlock_moved hc _ rfl, hself]
  dsimp only
  rw [htext, eat?_of_append rfl]
  exact ⟨rfl, rfl, hlast⟩

/-- The tag of a script or style, up to the end of the tag. -/
theorem Cursor.Follows.rawTag (hat : c.atTag name = true) (hc : c.rest = '<' :: (name ++ t))
    (hclean : (c.moved ('<' :: name) t).attributes.2.faults = [])
    (hclose : (c.moved ('<' :: name) t).attributes.2.rest = close ++ z) (hends : EndsTag close)
    (hquiet : w.Quiet c.offset ((c.moved ('<' :: name) t).attributes.2.offset + width close))
    (h : c.Follows w c') : c'.atTag name = true ∧ ∃ t', c'.rest = '<' :: (name ++ t')
      ∧ (c.moved ('<' :: name) t).attributes.2.Follows w (c'.moved ('<' :: name) t').attributes.2
      ∧ (c'.moved ('<' :: name) t').attributes.1.map Attribute.unplaced =
        (c.moved ('<' :: name) t).attributes.1.map Attribute.unplaced := by
  have hreach : c.Reaches (c.moved ('<' :: name) t) := reaches_moved hc
  have hle := (reaches_attributes (c.moved ('<' :: name) t)).offset_le
  have hstart := hreach.offset_le
  have hinside : ∀ a ∈ (c.moved ('<' :: name) t).attributes.1, c.offset ≤ a.span.start
      ∧ a.span.stop ≤ (c.moved ('<' :: name) t).attributes.2.offset + width close := by
    intro a ha
    have := (inOrder_attributes _).of_mem (List.mem_map_of_mem ha)
    omega
  obtain ⟨hready, hc', hfollows⟩ := h.attributes hc hreach hclean hclose hends (.of_quiet hquiet hinside)
  obtain ⟨d, hd⟩ := exists_head?_of_attributes hclose hends
  obtain ⟨rest, hrest, hname⟩ := rest_of_atTag hat
  obtain rfl : t = rest := List.append_cancel_left (List.cons.inj (hc.symm.trans hrest)).2
  obtain ⟨hlast, hattributes⟩ := hfollows (c'.moved ('<' :: name) _) ⟨rfl, h.faults⟩
  have hsame := hattributes.of_quiet hquiet fun a ha => by
    have := (inOrder_attributes _).of_mem (List.mem_map_of_mem ha)
    omega
  obtain ⟨e, he, hends'⟩ := hready.endsTagName ⟨d, hd, hname d hd⟩
  refine ⟨atTag_of_rest hc' fun e' he' => ?_, _, hc', hlast, hsame⟩
  rw [Option.mem_def.1 he] at he'
  cases he'
  exact hends'

/-- The weave puts texts at most at the ends of the content of a raw block, and the closing tag comes after
them as before. -/
structure Fills (w : Weave) (name : List Char) (lo : Nat) (b : RawBlock) : Prop where
  put : ∀ o, lo ≤ o → o < b.cursor.offset →
    (b.contentSpan.stop < b.cursor.offset → o ≠ b.contentSpan.start ∧ o ≠ b.contentSpan.stop) →
      w.put o = []
  drops : ∀ o, lo ≤ o → o < b.cursor.offset → w.drops o = false
  free : b.contentSpan.stop < b.cursor.offset →
    Free ('<' :: '/' :: name) (w.filled b.contentSpan.start b.content.toList)

/-- What becomes of a raw block from the end of its opening tag on. -/
theorem Fills.text_content {content : List Char} {start : Nat} (hw : Fills w name start b) (hle : start ≤ lo)
    (hspan : b.contentSpan = ⟨lo + 1, lo + 1 + width content⟩) (hoffset : b.cursor.offset =
      lo + width ('>' :: (content ++ (('<' :: '/' :: name) ++ (blanks ++ ['>']))))) (z : List Char) :
    w.Quiet start (lo + 1) ∧ b.contentSpan.stop < b.cursor.offset
      ∧ w.text lo ('>' :: (content ++ (('<' :: '/' :: name) ++ (blanks ++ '>' :: z)))) =
        '>' :: (w.filled (lo + 1) content
          ++ (('<' :: '/' :: name) ++ (blanks ++ '>' :: w.text b.cursor.offset z))) := by
  have hangle : Char.utf8Size '>' = 1 := by decide
  have hopen : Char.utf8Size '<' = 1 := by decide
  have hslash : 0 < Char.utf8Size '/' := by decide
  simp only [width_cons, width_append, width_nil, hangle, hopen] at hoffset
  have hput : ∀ o, start ≤ o → o < b.cursor.offset → o ≠ lo + 1 → o ≠ lo + 1 + width content →
      w.put o = [] := by
    intro o ho ho' hstart hstop
    refine hw.put o ho ho' fun _ => ?_
    rw [hspan]
    exact ⟨hstart, hstop⟩
  have hbefore : w.Quiet start (lo + 1) := fun o ho ho' =>
    ⟨hput o ho (by omega) (by omega) (by omega), hw.drops o ho (by omega)⟩
  have hone : w.Quiet lo (lo + width ['>']) := hbefore.mono hle (Nat.le_refl _)
  have hend : lo + 1 + width content + 1 + width ('/' :: (name ++ (blanks ++ ['>']))) = b.cursor.offset := by
    simp only [width_cons, width_append, width_nil, hangle]
    omega
  have hclosing : w.Quiet (lo + 1 + width content + 1)
      (lo + 1 + width content + 1 + width ('/' :: (name ++ (blanks ++ ['>'])))) := by
    rw [hend]
    exact fun o ho ho' => ⟨hput o (by omega) ho' (by omega) (by omega), hw.drops o (by omega) ho'⟩
  have hfilled : w.text (lo + 1) (content ++ '<' :: ('/' :: (name ++ (blanks ++ ['>'])) ++ z)) = _ :=
    Weave.text_filled (fun o ho ho' => hput o (by omega) (by omega) (by omega) (by omega))
      fun o ho ho' => hw.drops o (by omega) (by omega)
  rw [hopen, hclosing.text_append, hend] at hfilled
  refine ⟨hbefore, by rw [hspan]; show lo + 1 + width content < _; omega, ?_⟩
  have hsplit : '>' :: (content ++ (('<' :: '/' :: name) ++ (blanks ++ '>' :: z))) =
      ['>'] ++ (content ++ '<' :: ('/' :: (name ++ (blanks ++ ['>'])) ++ z)) := by simp
  rw [hsplit, hone.text_append, show lo + width ['>'] = lo + 1 from rfl, hfilled]
  simp

/-- A raw block to which nothing happens. -/
theorem Fills.of_quiet (hat : c.atTag name = true) (hclean : (c.rawBlock name).cursor.faults = [])
    (h : w.Quiet c.offset (c.rawBlock name).cursor.offset) : Fills w name c.offset (c.rawBlock name) := by
  refine ⟨fun o ho ho' _ => (h o ho ho').1, fun o ho ho' => (h o ho ho').2, fun hlt => ?_⟩
  obtain ⟨t, hc, -⟩ := rest_of_atTag hat
  obtain ⟨hreads, -⟩ := readsRaw_rawBlock hclean hc
  have hle : c.offset ≤ (c.moved ('<' :: name) t).attributes.2.offset :=
    ((reaches_moved hc).trans (reaches_attributes (c.moved ('<' :: name) t))).offset_le
  cases hreads with
  | selfClosing _ hspan =>
    rw [hspan] at hlt
    exact absurd hlt (Nat.lt_irrefl _)
  | content content blanks hblanks hfree hclose hspan hcontent =>
    rw [hspan] at hlt
    dsimp only at hlt
    have hfilled : w.filled (c.rawBlock name).contentSpan.start (c.rawBlock name).content.toList = content := by
      rw [hspan, hcontent, String.toList_ofList, Weave.filled, (h _ (by dsimp only; omega) (by dsimp only; omega)).1,
        (h _ (by dsimp only; omega) (by dsimp only; omega)).1]
      simp
    rw [hfilled]
    exact hfree

/-- What becomes of the content of a script or style that stops at an offset. One that is closed in its opening
tag has no content that could take in anything. -/
def refill (w : Weave) (contentSpan : Span) (content : String) (stop : Nat) : List Char :=
  if contentSpan.stop < stop then w.filled contentSpan.start content.toList else []

/-- A script or style is read up to the same place, whatever is put at the ends of its content. -/
theorem Cursor.Follows.rawBlock (hat : c.atTag name = true) (hclean : (c.rawBlock name).cursor.faults = [])
    (hw : Fills w name c.offset (c.rawBlock name)) (h : c.Follows w c') : c'.atTag name = true
      ∧ (c'.rawBlock name).attributes.map Attribute.unplaced =
        (c.rawBlock name).attributes.map Attribute.unplaced
      ∧ (c'.rawBlock name).content.toList =
        refill w (c.rawBlock name).contentSpan (c.rawBlock name).content (c.rawBlock name).cursor.offset
      ∧ (c.rawBlock name).cursor.Follows w (c'.rawBlock name).cursor := by
  obtain ⟨t, hc, -⟩ := rest_of_atTag hat
  obtain ⟨hreads, hattributes, hreach⟩ := readsRaw_rawBlock hclean hc
  have htag := hreach.clean hclean
  rw [hattributes]
  cases hreads with
  | selfClosing hclose hspan =>
    have hoffset := hreach.offset_eq hclose
    have hquiet : w.Quiet c.offset ((c.moved ('<' :: name) t).attributes.2.offset + width ['/', '>']) := by
      rw [← hoffset]
      refine fun o hlo hhi => ⟨hw.put o hlo hhi fun hlt => ?_, hw.drops o hlo hhi⟩
      rw [hspan] at hlt
      exact absurd hlt (Nat.lt_irrefl _)
    obtain ⟨hat', t', hc', hfollows, hsame⟩ := h.rawTag hat hc htag hclose (.inr rfl) hquiet
    have hle : c.offset ≤ (c.moved ('<' :: name) t).attributes.2.offset :=
      ((reaches_moved hc).trans (reaches_attributes (c.moved ('<' :: name) t))).offset_le
    have hsees := hfollows.sees hreach hclose (by rw [hoffset]; exact hquiet.mono hle (Nat.le_refl _))
    obtain ⟨hattributes', hcontent, hlast⟩ := Sees.rawBlock_selfClosing hc' hsees
    rw [hattributes', hcontent, refill, hspan]
    exact ⟨hat', hsame, (if_neg (Nat.lt_irrefl _)).symm, hlast⟩
  | content content blanks hblanks hfree hclose hspan hcontent =>
    generalize hlo : (c.moved ('<' :: name) t).attributes.2.offset = lo at hspan
    generalize hb : c.rawBlock name = b at *
    have hoffset := hreach.offset_eq (t := '>' :: (content ++ (('<' :: '/' :: name) ++ (blanks ++ ['>']))))
      (by rw [hclose]; simp)
    rw [hlo] at hoffset
    have hle : c.offset ≤ lo := by
      rw [← hlo]
      exact ((reaches_moved hc).trans (reaches_attributes (c.moved ('<' :: name) t))).offset_le
    obtain ⟨hquiet, hstop, htext⟩ := hw.text_content hle hspan hoffset b.cursor.rest
    obtain ⟨hat', t', hc', hfollows, hsame⟩ := h.rawTag hat hc htag
      (show (c.moved ('<' :: name) t).attributes.2.rest = ['>'] ++ _ from hclose) (.inl rfl)
      (by rw [hlo]; exact hquiet)
    have hfilledfree : Free ('<' :: '/' :: name) (w.filled (lo + 1) content) := by
      have := hw.free hstop
      rw [hspan, hcontent, String.toList_ofList] at this
      exact this
    rw [Follows, hlo, hclose, htext] at hfollows
    obtain ⟨hattributes', hcontent', hlast⟩ := Sees.rawBlock_content hc' hblanks hfilledfree hfollows
    rw [hattributes', hcontent', refill, if_pos hstop, hspan, hcontent, String.toList_ofList, String.toList_ofList]
    exact ⟨hat', hsame, rfl, hlast⟩

end Raw

end Restyle.Markup
