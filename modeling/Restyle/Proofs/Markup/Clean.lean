import Mathlib.Data.List.TakeWhile
import Restyle.Proofs.Markup.Document
import Restyle.Proofs.Text.Search

/-! Reading without faults. When an operation of the reader finds no fault, the text it has read has the
form that the operation is for, and wherever a text of that form stands, with whatever behind it, the
operation reads it again. -/

namespace Restyle.Markup

open Text

/-! ### Embedded expressions -/

namespace Embedded

/-- How an expression is split does not depend on what comes after its closing brace. -/
theorem Scanner.split?_append {s : Scanner} {cs raw rest : List Char}
    (h : s.split? cs = some (raw, rest)) (z : List Char) : s.split? (raw ++ '}' :: z) = some (raw, z) := by
  induction cs generalizing s raw with
  | nil => cases h
  | cons c cs ih =>
    rw [split?] at h
    split at h
    · next hstep =>
      cases h
      have hc := step_eq_none hstep
      rw [List.nil_append, split?]
      have hnone : ∀ next, s.step '}' next = none := by
        intro next
        subst hc
        cases hm : s.mode <;> simp_all [step]
      rw [hnone]
    · next s' hstep =>
      obtain ⟨⟨a, b⟩, hsplit, heq⟩ := Option.map_eq_some_iff.1 h
      obtain ⟨rfl, rfl⟩ := Prod.mk.inj heq
      have hhead : (a ++ '}' :: z).head? = cs.head? := by
        rw [eq_of_split? hsplit]
        cases a <;> rfl
      rw [List.cons_append, split?, hhead, hstep]
      dsimp only
      rw [ih hsplit]
      rfl

/-- A text that the brace behind it closes. -/
def Closed (raw : List Char) : Prop := split? (raw ++ ['}']) = some (raw, [])

theorem Closed.split?_eq {raw : List Char} (h : Closed raw) (z : List Char) :
    split? (raw ++ '}' :: z) = some (raw, z) := Scanner.split?_append h z

theorem closed_of_split? {cs raw rest : List Char} (h : split? cs = some (raw, rest)) : Closed raw :=
  Scanner.split?_append h []

end Embedded

namespace Cursor

variable {c c' : Cursor} {t y z : List Char}

theorem Reaches.clean (h : c.Reaches c') (hc : c'.faults = []) : c.faults = [] := by
  obtain ⟨-, -, -, hsuffix⟩ := h
  rw [hc] at hsuffix
  exact List.suffix_nil.1 hsuffix

/-- The cursor stands before a text, and no fault has been found. -/
structure Sees (c : Cursor) (cs : List Char) : Prop where
  rest : c.rest = cs
  faults : c.faults = []

theorem Sees.moved (h : c.Sees (t ++ z)) : (c.moved t z).Sees z := ⟨rfl, h.faults⟩

/-! ### Pieces -/

theorem eat?_of_append {piece : List Char} (h : c.rest = piece ++ z) :
    c.eat? piece = some (c.moved piece z) := by
  rw [eat?, strip?_eq_some_iff.2 h]
  rfl

theorem rest_of_eat? {piece : List Char} (h : c.eat? piece = some c') :
    c.rest = piece ++ c'.rest ∧ c'.faults = c.faults := by
  obtain ⟨rest, hrest, rfl⟩ := Option.map_eq_some_iff.1 h
  exact ⟨strip?_eq_some_iff.1 hrest, rfl⟩

theorem Sees.expect {piece : List Char} (h : c.Sees (piece ++ z)) : (c.expect piece).Sees z := by
  rw [Cursor.expect, eat?_of_append h.rest]
  exact ⟨rfl, h.faults⟩

theorem rest_of_expect {piece : List Char} (h : (c.expect piece).faults = []) :
    c.rest = piece ++ (c.expect piece).rest := by
  unfold Cursor.expect at h ⊢
  cases heat : c.eat? piece with
  | some c' => exact (rest_of_eat? heat).1
  | none =>
    rw [heat] at h
    dsimp only at h
    split at h <;> cases h

theorem takeWhile_of_append {test : Char → Bool} (h : c.rest = t ++ z) (ht : ∀ d ∈ t, test d = true)
    (hz : ∀ d ∈ z.head?, test d = false) : c.takeWhile test = (t, c.moved t z) := by
  have htake : c.rest.takeWhile test = t := by
    rw [h, List.takeWhile_append_of_pos ht]
    cases z with
    | nil => simp
    | cons d z => simp [hz d rfl]
  have hdrop : c.rest.dropWhile test = z := by
    rw [h, List.dropWhile_append_of_pos ht]
    cases z with
    | nil => rfl
    | cons d z => simp [hz d rfl]
  rw [Cursor.takeWhile, htake, hdrop]

theorem rest_of_takeWhile (c : Cursor) (test : Char → Bool) :
    c.rest = (c.takeWhile test).1 ++ (c.takeWhile test).2.rest
      ∧ (∀ d ∈ (c.takeWhile test).1, test d = true)
      ∧ ∀ d ∈ (c.takeWhile test).2.rest.head?, test d = false := by
  refine ⟨List.takeWhile_append_dropWhile.symm, fun d hd => List.mem_takeWhile_imp hd, fun d hd => ?_⟩
  have := List.head?_dropWhile_not test c.rest
  rw [show (c.takeWhile test).2.rest = c.rest.dropWhile test from rfl] at hd
  rw [Option.mem_def.1 hd] at this
  simpa using this

theorem rest_of_breakWhere (c : Cursor) (test : List Char → Bool) :
    c.rest = (c.breakWhere test).1 ++ (c.breakWhere test).2.rest
      ∧ Text.breakWhere test ((c.breakWhere test).1 ++ (c.breakWhere test).2.rest) =
        ((c.breakWhere test).1, (c.breakWhere test).2.rest) :=
  ⟨(breakWhere_append test c.rest).symm, breakWhere_again test c.rest⟩

/-- What is read begins with the first character that is left, if that one does not end it. -/
theorem exists_breakWhere_cons {test : List Char → Bool} {d : Char} {ds : List Char} (hc : c.rest = d :: ds)
    (h : test (d :: ds) = false) :
    ∃ u, (c.breakWhere test).1 = d :: u ∧ ds = u ++ (c.breakWhere test).2.rest := by
  have hsplit := (rest_of_breakWhere c test).1
  cases hread : (c.breakWhere test).1 with
  | nil =>
    have hne := breakWhere_ne_nil h
    rw [← hc] at hne
    exact absurd hread hne
  | cons e u =>
    rw [hc, hread] at hsplit
    obtain ⟨rfl, hds⟩ := List.cons.inj hsplit
    exact ⟨u, rfl, hds⟩

theorem breakWhere_of_append {test : List Char → Bool} (h : c.rest = t ++ z)
    (hb : Text.breakWhere test (t ++ z) = (t, z)) : c.breakWhere test = (t, c.moved t z) := by
  rw [Cursor.breakWhere, h, hb]

/-- Blanks between the words of markup. -/
def Blank (t : List Char) : Prop := ∀ d ∈ t, isBlank d = true

theorem Sees.skipBlanks (h : c.Sees (t ++ z)) (ht : Blank t) (hz : ∀ d ∈ z.head?, isBlank d = false) :
    c.skipBlanks.Sees z := by
  rw [Cursor.skipBlanks, takeWhile_of_append h.rest ht hz]
  exact ⟨rfl, h.faults⟩

theorem rest_of_skipBlanks (c : Cursor) :
    ∃ t, Blank t ∧ c.rest = t ++ c.skipBlanks.rest ∧ ∀ d ∈ c.skipBlanks.rest.head?, isBlank d = false :=
  have h := rest_of_takeWhile c isBlank
  ⟨_, h.2.1, h.1, h.2.2⟩

/-! ### Braces -/

theorem braced_of_closed {raw : List Char} (hraw : Embedded.Closed raw) (h : c.rest = raw ++ '}' :: z) :
    c.braced = (some (.ofRaw c.offset raw), { c with offset := c.offset + width raw + 1, rest := z }) := by
  rw [braced, h, hraw.split?_eq]

theorem rest_of_braced (h : c.braced.2.faults = []) :
    ∃ raw, Embedded.Closed raw ∧ c.rest = raw ++ '}' :: c.braced.2.rest
      ∧ c.braced.1 = some (.ofRaw c.offset raw) := by
  unfold braced at h ⊢
  split
  · next raw rest hsplit =>
    exact ⟨raw, Embedded.closed_of_split? hsplit, Embedded.eq_of_split? hsplit, rfl⟩
  · next hsplit =>
    rw [hsplit] at h
    cases h

theorem Sees.braced {raw : List Char} (hraw : Embedded.Closed raw) (h : c.Sees (raw ++ '}' :: z)) :
    c.braced.1 = some (.ofRaw c.offset raw) ∧ c.braced.2.Sees z := by
  rw [braced_of_closed hraw h.rest]
  exact ⟨rfl, rfl, h.faults⟩

/-- A keyword and what follows it up to the brace that closes the tag. -/
structure Keyed (keyword raw : List Char) : Prop where
  alpha : ∀ d ∈ keyword, d.isAlpha = true
  ends : ∀ d ∈ (raw ++ ['}']).head?, d.isAlpha = false
  closed : Embedded.Closed raw

theorem head?_append_brace (raw z : List Char) : (raw ++ '}' :: z).head? = (raw ++ ['}']).head? := by
  cases raw <;> rfl

theorem rest_of_keyed (h : c.word.2.braced.2.faults = []) :
    ∃ raw, Keyed c.word.1 raw ∧ c.rest = c.word.1 ++ (raw ++ '}' :: c.word.2.braced.2.rest)
      ∧ c.word.2.braced.1 = some (.ofRaw (c.offset + width c.word.1) raw) := by
  obtain ⟨hrest, halpha, hends⟩ := rest_of_takeWhile c Char.isAlpha
  obtain ⟨raw, hraw, hsplit, hexpression⟩ := rest_of_braced h
  rw [show (c.takeWhile Char.isAlpha).2.rest = raw ++ '}' :: _ from hsplit] at hrest hends
  rw [head?_append_brace] at hends
  exact ⟨raw, ⟨halpha, hends, hraw⟩, hrest, hexpression⟩

theorem Sees.keyed {keyword raw : List Char} (hk : Keyed keyword raw)
    (h : c.Sees (keyword ++ (raw ++ '}' :: z))) :
    c.word.1 = keyword ∧ c.word.2.braced.1 = some (.ofRaw (c.offset + width keyword) raw)
      ∧ c.word.2.braced.2.Sees z := by
  have hword : c.word = (keyword, c.moved keyword (raw ++ '}' :: z)) :=
    takeWhile_of_append h.rest hk.alpha (by rw [head?_append_brace]; exact hk.ends)
  rw [hword]
  exact ⟨rfl, h.moved.braced hk.closed⟩

/-! ### Closing tags -/

section Closing

variable {test : Char → Bool} {stop : Char}

theorem rest_of_closing (h : ((c.takeWhile test).2.skipBlanks.expect [stop]).faults = []) :
    ∃ blanks, Blank blanks ∧ (∀ d ∈ (c.takeWhile test).1, test d = true) ∧
      c.rest = (c.takeWhile test).1
        ++ (blanks ++ stop :: ((c.takeWhile test).2.skipBlanks.expect [stop]).rest) := by
  obtain ⟨hrest, hword, -⟩ := rest_of_takeWhile c test
  obtain ⟨blanks, hblanks, hrest', -⟩ := rest_of_skipBlanks (c.takeWhile test).2
  rw [rest_of_expect h] at hrest'
  refine ⟨blanks, hblanks, hword, ?_⟩
  rw [hrest'] at hrest
  exact hrest

variable (test) in
theorem Sees.closing {word blanks : List Char} (h : c.Sees (word ++ (blanks ++ stop :: z)))
    (hword : ∀ d ∈ word, test d = true) (hblanks : Blank blanks) (hstop : test stop = false)
    (hstop' : isBlank stop = false) (hblank : ∀ d, isBlank d = true → test d = false) :
    (c.takeWhile test).1 = word ∧ ((c.takeWhile test).2.skipBlanks.expect [stop]).Sees z := by
  have hends : ∀ d ∈ (blanks ++ stop :: z).head?, test d = false := by
    intro d hd
    cases blanks with
    | nil =>
      cases hd
      exact hstop
    | cons b blanks =>
      cases hd
      exact hblank _ (hblanks _ (List.mem_cons_self ..))
  rw [takeWhile_of_append h.rest hword hends]
  refine ⟨rfl, ?_⟩
  have hmoved : (c.moved word (blanks ++ stop :: z)).Sees (blanks ++ stop :: z) := h.moved
  exact (hmoved.skipBlanks hblanks (by simpa using hstop')).expect

end Closing

/-- The closing tag of an element. -/
structure ClosesTag (name : String) (t : List Char) : Prop where
  letters : ∀ d ∈ name.toList, endsTagName d = false
  form : ∃ blanks, Blank blanks ∧ t = '<' :: '/' :: (name.toList ++ (blanks ++ ['>']))

theorem rest_of_closeTag {name : String} {start : Nat} (h : (c.closeTag name start).faults = []) :
    ∃ t, ClosesTag name t ∧ c.rest = t ++ (c.closeTag name start).rest := by
  unfold closeTag at h ⊢
  split
  · next heat =>
    rw [heat] at h
    cases h
  · next c' heat =>
    rw [heat] at h
    dsimp only at h ⊢
    split
    · next hname =>
      rw [if_pos hname] at h
      obtain ⟨blanks, hblanks, hword, hrest⟩ := rest_of_closing h
      have hfound : (c'.takeWhile (!endsTagName ·)).1 = name.toList := by
        rw [← hname, String.toList_ofList]
      rw [hfound] at hword hrest
      refine ⟨_, ⟨fun d hd => by simpa using hword d hd, blanks, hblanks, rfl⟩, ?_⟩
      rw [(rest_of_eat? heat).1, hrest]
      simp
    · next hname =>
      rw [if_neg hname] at h
      cases h

theorem Sees.closeTag {name : String} (ht : ClosesTag name t) (h : c.Sees (t ++ z)) (start : Nat) :
    (c.closeTag name start).Sees z := by
  obtain ⟨hname, blanks, hblanks, rfl⟩ := ht
  have hrest : c.rest = ['<', '/'] ++ (name.toList ++ (blanks ++ '>' :: z)) := by
    rw [h.rest]
    simp
  have hmoved : (c.moved ['<', '/'] (name.toList ++ (blanks ++ '>' :: z))).Sees _ := ⟨rfl, h.faults⟩
  obtain ⟨hfound, hsees⟩ := hmoved.closing (!endsTagName ·) (fun d hd => by simp [hname d hd])
    hblanks (by decide) (by decide) (fun d hd => by simp [endsTagName, hd])
  rw [Cursor.closeTag, eat?_of_append hrest]
  dsimp only
  rw [hfound, String.ofList_toList, if_pos rfl]
  exact hsees

/-- The closing tag of a block. -/
structure ClosesBlock (keyword : String) (t : List Char) : Prop where
  letters : ∀ d ∈ keyword.toList, d.isAlpha = true
  form : ∃ blanks, Blank blanks ∧ t = '{' :: '/' :: (keyword.toList ++ (blanks ++ ['}']))

theorem rest_of_closeBlock {keyword : String} {start : Nat}
    (h : (c.closeBlock keyword start).faults = []) :
    ∃ t, ClosesBlock keyword t ∧ c.rest = t ++ (c.closeBlock keyword start).rest := by
  unfold closeBlock at h ⊢
  split
  · next heat =>
    rw [heat] at h
    cases h
  · next c' heat =>
    rw [heat] at h
    dsimp only at h ⊢
    split
    · next hname =>
      rw [if_pos hname] at h
      obtain ⟨blanks, hblanks, hword, hrest⟩ := rest_of_closing h
      have hfound : (c'.takeWhile Char.isAlpha).1 = keyword.toList := by
        rw [← String.toList_ofList (l := (c'.takeWhile Char.isAlpha).1)]
        exact congrArg String.toList hname
      rw [hfound] at hword hrest
      refine ⟨_, ⟨hword, blanks, hblanks, rfl⟩, ?_⟩
      rw [(rest_of_eat? heat).1, hrest]
      simp [word]
    · next hname =>
      rw [if_neg hname] at h
      cases h

theorem not_isAlpha_of_isBlank {d : Char} (h : isBlank d = true) : d.isAlpha = false := by
  simp only [isBlank, Bool.or_eq_true, beq_iff_eq] at h
  rcases h with (((rfl | rfl) | rfl) | rfl) | rfl <;> decide

theorem Sees.closeBlock {keyword : String} (ht : ClosesBlock keyword t) (h : c.Sees (t ++ z))
    (start : Nat) : (c.closeBlock keyword start).Sees z := by
  obtain ⟨hkeyword, blanks, hblanks, rfl⟩ := ht
  have hrest : c.rest = ['{', '/'] ++ (keyword.toList ++ (blanks ++ '}' :: z)) := by
    rw [h.rest]
    simp
  have hmoved : (c.moved ['{', '/'] (keyword.toList ++ (blanks ++ '}' :: z))).Sees _ := ⟨rfl, h.faults⟩
  obtain ⟨hfound, hsees⟩ := hmoved.closing Char.isAlpha hkeyword hblanks (by decide) (by decide)
    fun d => not_isAlpha_of_isBlank
  rw [Cursor.closeBlock, eat?_of_append hrest]
  dsimp only
  rw [word, hfound, String.ofList_toList, if_pos rfl]
  exact hsees

/-! ### Continuations -/

theorem continuation?_of_not (h : c.atContinuation = false) : c.continuation? = (none, c) := by
  have heat : c.eat? ['{', ':'] = none := by
    simpa [atContinuation, startsWith, Text.startsWith, eat?] using h
  rw [Cursor.continuation?, heat]

theorem rest_of_continuation? (h : c.continuation?.2.faults = []) (hat : c.atContinuation = true) :
    ∃ keyword raw, Keyed keyword raw
      ∧ c.rest = '{' :: ':' :: (keyword ++ (raw ++ '}' :: c.continuation?.2.rest))
      ∧ c.continuation?.1 = some (String.ofList keyword, .ofRaw (c.offset + 2 + width keyword) raw) := by
  unfold continuation? at h ⊢
  split
  · next heat =>
    simp [atContinuation, startsWith, Text.startsWith, eat?] at hat heat
    simp [heat] at hat
  · next c' heat =>
    rw [heat] at h
    obtain ⟨raw, hk, hrest, hexpression⟩ := rest_of_keyed (c := c') h
    refine ⟨_, raw, hk, ?_, ?_⟩
    · rw [(rest_of_eat? heat).1, hrest]
      rfl
    · obtain ⟨rest, -, rfl⟩ := Option.map_eq_some_iff.1 heat
      show Option.map _ _ = _
      rw [hexpression]
      rfl

theorem Sees.continuation? {keyword raw : List Char} (hk : Keyed keyword raw)
    (h : c.Sees ('{' :: ':' :: (keyword ++ (raw ++ '}' :: z)))) :
    c.continuation?.1 = some (String.ofList keyword, .ofRaw (c.offset + 2 + width keyword) raw)
      ∧ c.continuation?.2.Sees z := by
  have hrest : c.rest = ['{', ':'] ++ (keyword ++ (raw ++ '}' :: z)) := h.rest
  have heat := eat?_of_append hrest
  have hmoved : (c.moved ['{', ':'] (keyword ++ (raw ++ '}' :: z))).Sees _ := ⟨rfl, h.faults⟩
  obtain ⟨hword, hexpression, hsees⟩ := hmoved.keyed hk
  rw [Cursor.continuation?, heat]
  dsimp only
  rw [hword, hexpression]
  exact ⟨rfl, hsees⟩

end Cursor

end Restyle.Markup
