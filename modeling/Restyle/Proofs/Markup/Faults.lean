import Restyle.Proofs.Markup.Descent
import Restyle.Proofs.Markup.Slices

/-! Where faults lie. Every operation of the reader notes its faults with spans on boundaries of the source:
from the start of what it reads, which is a boundary before it, or at the brace in front of an expression,
which is one byte wide. -/

namespace Restyle.Markup

open Text Restyle.Span

variable {cs : List Char}

namespace Cursor

variable {c c' c'' : Cursor} {start : Nat}

/-- The faults that the second cursor has and the first one has not lie on boundaries of the text. -/
def Notes (cs : List Char) (c c' : Cursor) : Prop := ∀ f ∈ c'.faults, f ∈ c.faults ∨ f.span.Cuts cs

theorem Notes.of_eq (h : c'.faults = c.faults) : Notes cs c c' := fun _ hf => .inl (h ▸ hf)

theorem Notes.refl (c : Cursor) : Notes cs c c := .of_eq rfl

theorem Notes.trans (h : Notes cs c c') (h' : Notes cs c' c'') : Notes cs c c'' := by
  intro f hf
  rcases h' f hf with hf | hcuts
  · exact h f hf
  · exact .inr hcuts

theorem Notes.fault (h : Notes cs c c') {span : Span} (hspan : span.Cuts cs) (kind : FaultKind) :
    Notes cs c (c'.fault kind span) := by
  intro f hf
  rcases List.mem_cons.1 hf with rfl | hf
  · exact .inr hspan
  · exact h f hf

theorem notes_eat? {piece : List Char} (h : c.eat? piece = some c') : Notes cs c c' := by
  obtain ⟨rest, -, rfl⟩ := Option.map_eq_some_iff.1 h
  exact .of_eq rfl

theorem notes_expect (h : c.On cs) (piece : List Char) : Notes cs c (c.expect piece) := by
  unfold expect
  split
  · next heat => exact notes_eat? heat
  · split
    · exact (Notes.refl c).fault h.cuts_point _
    · exact (Notes.refl c).fault h.cuts_point _

/-- From a boundary to a cursor behind it. -/
theorem On.cuts_from (h : c.On cs) (hstart : Text.isBoundary cs start = true) (hle : start ≤ c.offset) :
    (c.spanFrom start).Cuts cs := ⟨hle, hstart, h.isBoundary⟩

/-! ### Expressions -/

theorem utf8Size_of_isAlpha {d : Char} (h : d.isAlpha = true) : d.utf8Size = 1 := by
  have hsmall : d.val ≤ 127 := by
    have h : (decide (d.val ≥ 'A'.val ∧ d.val ≤ 'Z'.val) || d.val ≥ 'a'.val && d.val ≤ 'z'.val) = true := h
    simp only [Bool.or_eq_true, Bool.and_eq_true, decide_eq_true_eq] at h
    rcases h with h | h
    · exact UInt32.le_trans h.2 (by decide)
    · exact UInt32.le_trans h.2 (by decide)
  simp [Char.utf8Size, hsmall]

/-- One byte before the cursor there is a boundary. -/
def Back (cs : List Char) (c : Cursor) : Prop := Text.isBoundary cs (c.offset - 1) = true

theorem Back.of_read {read : List Char} (h : c.On cs) (hrest : c.rest = read ++ c'.rest)
    (hoffset : c'.offset = c.offset + width read) (hne : read ≠ []) (hsize : ∀ d ∈ read, d.utf8Size = 1) :
    c'.Back cs := by
  obtain ⟨first, last, rfl⟩ : ∃ first last, read = first ++ [last] :=
    ⟨_, _, (List.dropLast_append_getLast hne).symm⟩
  have hlast := hsize last (by simp)
  have hback : c'.offset - 1 = c.offset + width first := by
    rw [hoffset, width_append]
    simp [hlast, ← Nat.add_assoc]
  rw [Back, hback]
  exact (h.stands hrest).right.isBoundary

theorem On.notes_braced (h : c.On cs) (hback : c.Back cs) : Notes cs c c.braced.2 := by
  have hend := h.reaches (reaches_toEnd c)
  unfold braced
  split
  · exact .of_eq rfl
  · refine (Notes.of_eq rfl).fault (hend.cuts_from hback ?_) _
    have := (reaches_toEnd c).offset_le
    omega

theorem On.notes_moved_braced {ds : List Char} (h : c.On cs) (hc : c.rest = '{' :: ds) :
    Notes cs c (c.moved ['{'] ds).braced.2 := by
  have hback : (c.moved ['{'] ds).Back cs := .of_read h hc rfl (by simp) fun d hd => by
    rw [List.mem_singleton.1 hd]
    rfl
  exact (Notes.of_eq rfl).trans ((h.reaches (reaches_moved_one hc)).notes_braced hback)

/-- An expression behind a keyword, in a tag that opens with a brace and a sign. -/
theorem On.notes_keyed {sign : Char} (h : c.On cs) (heat : c.eat? ['{', sign] = some c')
    (hsign : sign.utf8Size = 1) : Notes cs c c'.word.2.braced.2 := by
  obtain ⟨rest, hrest, rfl⟩ := Option.map_eq_some_iff.1 heat
  have hopen := (reaches_eat? heat).1
  have hword := reaches_takeWhile (c.moved ['{', sign] rest) Char.isAlpha
  have hc : c.rest = ('{' :: sign :: (c.moved ['{', sign] rest).word.1) ++ (c.moved ['{', sign] rest).word.2.rest := by
    rw [strip?_eq_some_iff.1 hrest]
    simp [word, takeWhile, List.takeWhile_append_dropWhile]
  have hback : (c.moved ['{', sign] rest).word.2.Back cs := by
    refine .of_read h hc ?_ (by simp) fun d hd => ?_
    · simp only [word, takeWhile, moved, width_cons, width_nil]
      omega
    · rcases List.mem_cons.1 hd with rfl | hd
      · rfl
      · rcases List.mem_cons.1 hd with rfl | hd
        · exact hsign
        · exact utf8Size_of_isAlpha (List.mem_takeWhile_imp hd)
  exact (Notes.of_eq rfl).trans ((h.reaches (hopen.trans hword)).notes_braced hback)

/-! ### Attributes -/

theorem On.notes_valueParts (h : c.On cs) (quote : Option Char) : Notes cs c (c.valueParts quote).2 := by
  fun_induction valueParts quote c with
  | case1 c hc => exact .refl c
  | case2 c d ds hc hend => exact .refl c
  | case3 c ds hc => exact h.notes_moved_braced hc
  | case4 c ds e hc hend inside he more ih =>
    exact (h.notes_moved_braced hc).trans (ih (h.reaches ((reaches_moved_one hc).trans (reaches_braced _))))
  | case5 c d ds hc hend hbrace text more ih =>
    exact (Notes.of_eq rfl).trans (ih (h.reaches (reaches_breakWhere c _)))

theorem On.notes_value (h : c.On cs) : Notes cs c c.value.2 := by
  have plain : Notes cs c (value.unquoted c).2 := by
    have hparts := h.notes_valueParts none
    unfold value.unquoted
    dsimp only
    split
    · exact hparts
    · exact hparts.fault (h.cuts (reaches_valueParts none c)) _
    · exact hparts
  unfold value
  split
  · next d ds hc =>
    split
    · have hone := reaches_moved_one hc
      have hparts : Notes cs c ((c.moved [d] ds).valueParts (some d)).2 :=
        (Notes.of_eq rfl).trans ((h.reaches hone).notes_valueParts (some d))
      dsimp only
      split
      · next heat => exact hparts.trans (notes_eat? heat)
      · exact hparts.fault (h.cuts (hone.trans (reaches_valueParts (some d) _))) _
    · exact plain
  · exact plain

theorem On.notes_attribute? (h : c.On cs) : Notes cs c c.attribute?.2 := by
  unfold attribute?
  split
  · exact .refl c
  · next d ds hc =>
    have hone := reaches_moved_one hc
    split
    · next hd =>
      subst hd
      have hinner := h.notes_moved_braced hc
      dsimp only
      split
      · exact hinner
      · split
        · exact hinner
        · exact hinner.fault (h.cuts (hone.trans (reaches_braced _))) _
    · dsimp only
      split
      · exact (Notes.of_eq rfl).fault (h.cuts hone) _
      · split
        · next r heat =>
          have hvalue := (reaches_breakWhere c endsName).trans ((reaches_skipBlanks _).trans
            ((reaches_eat? heat).1.trans (reaches_skipBlanks r)))
          have hfaults : Notes cs c r.skipBlanks := by
            obtain ⟨rest, -, rfl⟩ := Option.map_eq_some_iff.1 heat
            exact .of_eq rfl
          exact hfaults.trans (h.reaches hvalue).notes_value
        · exact .of_eq rfl

theorem On.notes_attributes (h : c.On cs) : Notes cs c c.attributes.2 := by
  fun_induction attributes c with
  | case1 c _ => exact .of_eq rfl
  | case2 c hend first more ih =>
    have hblanks := h.reaches (reaches_skipBlanks c)
    have hfirst : Notes cs c first.2 := (Notes.of_eq rfl).trans hblanks.notes_attribute?
    exact hfirst.trans (ih (hblanks.reaches (reaches_attribute? c.skipBlanks)))

/-! ### Closing tags -/

section Closing

variable (hstart : Text.isBoundary cs start = true) (hle : start ≤ c.offset)

include hstart hle

theorem On.notes_closeTag (h : c.On cs) (name : String) : Notes cs c (c.closeTag name start) := by
  unfold closeTag
  split
  · exact (Notes.refl c).fault (h.cuts_from hstart hle) _
  · next c' heat =>
    have hread := (reaches_eat? heat).1.trans ((reaches_takeWhile c' (!endsTagName ·)).trans (reaches_skipBlanks _))
    have hclose : Notes cs c ((c'.takeWhile (!endsTagName ·)).2.skipBlanks.expect ['>']) :=
      ((notes_eat? heat).trans (.of_eq rfl)).trans (notes_expect (h.reaches hread) _)
    dsimp only
    split
    · exact hclose
    · exact hclose.fault (h.cuts (hread.trans (reaches_expect _ _))) _

theorem On.notes_closeBlock (h : c.On cs) (keyword : String) : Notes cs c (c.closeBlock keyword start) := by
  unfold closeBlock
  split
  · exact (Notes.refl c).fault (h.cuts_from hstart hle) _
  · next c' heat =>
    have hread := (reaches_eat? heat).1.trans ((reaches_takeWhile c' Char.isAlpha).trans (reaches_skipBlanks _))
    have hclose : Notes cs c (c'.word.2.skipBlanks.expect ['}']) :=
      ((notes_eat? heat).trans (.of_eq rfl)).trans (notes_expect (h.reaches hread) _)
    dsimp only
    split
    · exact hclose
    · exact hclose.fault (h.cuts (hread.trans (reaches_expect _ _))) _

end Closing

theorem On.notes_continuation? (h : c.On cs) : Notes cs c c.continuation?.2 := by
  unfold continuation?
  split
  · exact .refl c
  · next heat => exact h.notes_keyed heat rfl

end Cursor

/-! ### Nodes -/

open Cursor

section Nodes

variable {c c' : Cursor} {start : Nat}

theorem notes_elementNode (h : c.On cs) (hstart : isBoundary cs start = true) (hle : start ≤ c.offset) (name : String)
    (attributes : List Attribute) (content : Fragment) (selfClosing : Bool) :
    Notes cs c (elementNode c start name attributes content selfClosing).2 := by
  unfold elementNode
  dsimp only
  split
  · exact .refl c
  · split
    · exact .refl c
    · exact (Notes.refl c).fault (h.cuts_from hstart hle) _

theorem Cursor.On.notes_textNodes (h : c.On cs) (closing : List Char) : Notes cs c (c.textNodes closing).2 := by
  fun_induction textNodes closing c with
  | case1 c hc => exact .refl c
  | case2 c d ds hc hclosing => exact .refl c
  | case3 c ds hc hclosing inside more he ih =>
    exact (h.notes_moved_braced hc).trans (ih (h.reaches ((reaches_moved_one hc).trans (reaches_braced _))))
  | case4 c ds e hc hclosing inside more he ih =>
    exact (h.notes_moved_braced hc).trans (ih (h.reaches ((reaches_moved_one hc).trans (reaches_braced _))))
  | case5 c d ds hc hclosing hbrace text more ih =>
    exact (Notes.of_eq rfl).trans (ih (h.reaches (reaches_breakWhere c _)))

theorem OpeningTag.Ends.notes {t : OpeningTag} {found : Found} (hends : t.Ends start found c') (h : t.cursor.On cs)
    (hstart : isBoundary cs start = true) (hle : start ≤ t.cursor.offset) : Notes cs t.cursor c' := by
  have leaf : ∀ {c' : Cursor}, t.cursor.Reaches c' → Notes cs t.cursor c' → ∀ content selfClosing,
      Notes cs t.cursor (elementNode c' start t.name t.attributes content selfClosing).2 :=
    fun hreach hnotes content selfClosing => hnotes.trans (notes_elementNode (h.reaches hreach) hstart
      (Nat.le_trans hle hreach.offset_le) t.name t.attributes content selfClosing)
  have closed : ∀ {c' : Cursor}, t.cursor.Reaches c' → Notes cs t.cursor c' → ∀ content,
      Notes cs t.cursor (elementNode (c'.closeTag t.name start) start t.name t.attributes content false).2 :=
    fun hreach hnotes content => leaf (hreach.trans (reaches_closeTag ..)) (hnotes.trans
      ((h.reaches hreach).notes_closeTag hstart (Nat.le_trans hle hreach.offset_le) _)) content false
  cases hends with
  | selfClosing hself => exact leaf (reaches_eat? hself).1 (notes_eat? hself) _ _
  | unclosed _ hfault =>
    subst hfault
    exact leaf (reaches_fault (.refl _)) ((Notes.refl _).fault (h.cuts_from hstart hle) _) _ _
  | raw hopen _ hclose =>
    subst hclose
    exact closed ((reaches_eat? hopen).1.trans (reaches_rawContent ..)) ((notes_eat? hopen).trans (.of_eq rfl)) _
  | text hopen _ hclose =>
    subst hclose
    have hc := (reaches_eat? hopen).1
    exact closed (hc.trans (reaches_textContent ..))
      ((notes_eat? hopen).trans ((h.reaches hc).notes_textNodes _)) _
  | void hopen => exact leaf (reaches_eat? hopen).1 (notes_eat? hopen) _ _
  | opened hopen => exact notes_eat? hopen

theorem notes_readOpeningTag (h : c.On cs) : Notes cs c (readOpeningTag c).cursor :=
  (Notes.of_eq rfl).trans
    (h.reaches ((reaches_moved_take c 1).trans (reaches_takeWhile _ (!endsTagName ·)))).notes_attributes

theorem Finds.notes {found : Found} (hfinds : Finds c found c') (h : c.On cs) : Notes cs c c' := by
  have keyed {sign : Char} {c₁ : Cursor} (hsign : sign = '#' ∨ sign = '@') (heat : c.eat? ['{', sign] = some c₁) :
      Notes cs c c₁.word.2.braced.2 := by
    rcases hsign with rfl | rfl <;> exact h.notes_keyed heat rfl
  cases hfinds with
  | @comment c₁ _ heat hend =>
    have hdata : Notes cs c₁ (c₁.breakWhere (Text.startsWith ['-', '-', '>'])).2 := .of_eq rfl
    exact ((notes_eat? heat).trans hdata).trans (notes_eat? hend)
  | @unclosedComment c₁ _ heat hdata =>
    subst hdata
    have hreach := (reaches_eat? heat).1.trans (reaches_breakWhere c₁ (Text.startsWith ['-', '-', '>']))
    have hnotes : Notes cs c (c₁.breakWhere (Text.startsWith ['-', '-', '>'])).2 := (notes_eat? heat).trans (.of_eq rfl)
    exact hnotes.fault (h.cuts hreach) _
  | unclosed hsign heat => exact keyed hsign heat
  | @unknown _ c₁ _ _ hsign heat =>
    have hreach := (reaches_eat? heat).1.trans ((reaches_takeWhile c₁ Char.isAlpha).trans (reaches_braced _))
    exact (keyed hsign heat).fault (h.cuts hreach) _
  | block heat => exact keyed (.inl rfl) heat
  | tag _ heat => exact keyed (.inr rfl) heat
  | noExpression heat | expression heat =>
    obtain ⟨ds, hds, rfl⟩ := Option.map_eq_some_iff.1 heat
    exact h.notes_moved_braced (strip?_eq_some_iff.1 hds)
  | element _ _ hends =>
    have htag := (reaches_moved_take c 1).trans (reaches_readOpeningTag c)
    exact (notes_readOpeningTag h).trans (hends.notes (h.reaches htag) h.isBoundary htag.offset_le)
  | text hone =>
    subst hone
    exact .of_eq rfl

theorem notes_readNode (h : c.On cs) : Notes cs c (readNode c).2 := (finds_readNode c).notes h

end Nodes

end Restyle.Markup
