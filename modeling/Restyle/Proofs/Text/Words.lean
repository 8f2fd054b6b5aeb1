import Mathlib.Data.List.Basic
import Mathlib.Data.List.Induction
import Mathlib.Data.List.TakeWhile
import Restyle.Text.Blank

/-! The words of a text. A word stands between blanks or at an end of the text, and the words of the text are
those of what is before it, the word, and those of what is behind it. -/

namespace Restyle.Text

variable {a b cs before w after : List Char} {c d : Char} {ws ws' : List (List Char)}

/-! ### Reading words -/

theorem words_of_isSpace (hc : isSpace c = true) (cs : List Char) : words (c :: cs) = words cs := by
  rw [words.eq_def]
  exact if_pos hc

theorem words_singleton (hc : isSpace c = false) : words [c] = [[c]] := by
  rw [words.eq_def]
  exact if_neg (Bool.eq_false_iff.1 hc)

theorem words_of_blank_next (hc : isSpace c = false) (hd : isSpace d = true) :
    words (c :: d :: cs) = [c] :: words (d :: cs) := by
  rw [words.eq_def]
  dsimp only
  rw [if_neg (Bool.eq_false_iff.1 hc), if_pos hd]

theorem words_of_next (hc : isSpace c = false) (hd : isSpace d = false) (h : words (d :: cs) = w :: ws) :
    words (c :: d :: cs) = (c :: w) :: ws := by
  rw [words.eq_def]
  dsimp only
  rw [if_neg (Bool.eq_false_iff.1 hc), if_neg (Bool.eq_false_iff.1 hd), h]

theorem exists_words_cons (hc : isSpace c = false) (cs : List Char) : ∃ w ws, words (c :: cs) = w :: ws := by
  induction cs generalizing c with
  | nil => exact ⟨_, _, words_singleton hc⟩
  | cons d cs ih =>
    cases hd : isSpace d with
    | true => exact ⟨_, _, words_of_blank_next hc hd⟩
    | false =>
      obtain ⟨w, ws, hws⟩ := ih hd
      exact ⟨_, _, words_of_next hc hd hws⟩

theorem words_eq_nil (h : ∀ c ∈ a, isSpace c = true) : words a = [] := by
  induction a with
  | nil => rfl
  | cons c a ih =>
    obtain ⟨hc, ha⟩ := List.forall_mem_cons.1 h
    rw [words_of_isSpace hc, ih ha]

theorem words_eq_singleton (hne : w ≠ []) (h : ∀ c ∈ w, isSpace c = false) : words w = [w] := by
  induction w with
  | nil => exact absurd rfl hne
  | cons c w ih =>
    obtain ⟨hc, hw⟩ := List.forall_mem_cons.1 h
    cases w with
    | nil => exact words_singleton hc
    | cons d w => exact words_of_next hc (hw d (List.mem_cons_self ..)) (ih (by simp) hw)

/-- The words of a text are cut where a blank follows. -/
theorem words_append (hb : ∀ c ∈ b.head?, isSpace c = true) (a : List Char) : words (a ++ b) = words a ++ words b := by
  induction a with
  | nil => rfl
  | cons c a ih =>
    cases hc : isSpace c with
    | true => rw [List.cons_append, words_of_isSpace hc, words_of_isSpace hc, ih]
    | false =>
      cases a with
      | nil =>
        rw [words_singleton hc]
        cases b with
        | nil => exact words_singleton hc
        | cons d b => exact words_of_blank_next hc (hb d rfl)
      | cons d a =>
        rw [List.cons_append] at ih
        cases hd : isSpace d with
        | true => rw [List.cons_append, List.cons_append, words_of_blank_next hc hd, words_of_blank_next hc hd, ih]; rfl
        | false =>
          obtain ⟨w, ws, hws⟩ := exists_words_cons hd a
          rw [hws] at ih
          rw [List.cons_append, List.cons_append, words_of_next hc hd ih, words_of_next hc hd hws]
          rfl

/-- They are cut behind a blank, too. -/
theorem words_append_of_getLast? (ha : ∀ c ∈ a.getLast?, isSpace c = true) (b : List Char) :
    words (a ++ b) = words a ++ words b := by
  cases a using List.reverseRecOn with
  | nil => rfl
  | append_singleton a c =>
    have hc : isSpace c = true := ha c (by simp)
    rw [List.append_assoc, List.singleton_append, words_append (by simpa using hc), words_append (by simpa using hc),
      words_of_isSpace hc, words_of_isSpace hc, List.append_assoc]
    rfl

/-! ### Words in their places -/

/-- A word of a text, and what stands before it and behind it. -/
structure IsWord (cs before w after : List Char) : Prop where
  eq : cs = before ++ (w ++ after)
  ne : w ≠ []
  letters : ∀ c ∈ w, isSpace c = false
  left : ∀ c ∈ before.getLast?, isSpace c = true
  right : ∀ c ∈ after.head?, isSpace c = true

theorem IsWord.words (h : IsWord cs before w after) : words cs = words before ++ w :: words after := by
  rw [h.eq, words_append_of_getLast? h.left, words_append h.right, words_eq_singleton h.ne h.letters]
  rfl

/-- The first word of a text. -/
theorem exists_isWord_of_cons (h : words cs = w :: ws) :
    ∃ before after, IsWord cs before w after ∧ words before = [] ∧ words after = ws := by
  have hblanks : ∀ c ∈ cs.takeWhile isSpace, isSpace c = true := fun c hc => List.mem_takeWhile_imp hc
  have hcs : cs = cs.takeWhile isSpace ++ cs.dropWhile isSpace := (List.takeWhile_append_dropWhile ..).symm
  cases hrest : cs.dropWhile isSpace with
  | nil =>
    rw [hrest, List.append_nil] at hcs
    rw [hcs, words_eq_nil hblanks] at h
    cases h
  | cons c rest =>
    have hc : isSpace c = false := by
      have := List.head?_dropWhile_not isSpace cs
      rw [hrest] at this
      simpa using this
    have hword : IsWord cs (cs.takeWhile isSpace) ((c :: rest).takeWhile fun c => !isSpace c)
        ((c :: rest).dropWhile fun c => !isSpace c) := by
      refine ⟨?_, ?_, fun d hd => ?_, fun d hd => hblanks d (List.mem_of_getLast? hd), fun d hd => ?_⟩
      · rw [List.takeWhile_append_dropWhile, ← hrest]
        exact hcs
      · simp [hc]
      · simpa using List.mem_takeWhile_imp hd
      · have := List.head?_dropWhile_not (fun c => !isSpace c) (c :: rest)
        rw [Option.mem_def.1 hd] at this
        simpa using this
    have hwords := hword.words
    rw [words_eq_nil hblanks, h, List.nil_append] at hwords
    obtain ⟨rfl, rfl⟩ := List.cons.inj hwords
    exact ⟨_, _, hword, words_eq_nil hblanks, rfl⟩

/-- Each word of a text has its place in it. -/
theorem exists_isWord (h : words cs = ws ++ w :: ws') :
    ∃ before after, IsWord cs before w after ∧ words before = ws ∧ words after = ws' := by
  induction ws generalizing cs with
  | nil => exact exists_isWord_of_cons h
  | cons u ws ih =>
    obtain ⟨blanks, rest, hu, hblanks, hrest⟩ := exists_isWord_of_cons h
    obtain ⟨before, after, hw, hbefore, hafter⟩ := ih hrest
    -- a blank stands between the first word and what follows it, so something is before the other word
    have hne : before ≠ [] := by
      rintro rfl
      obtain ⟨c, w, rfl⟩ := List.exists_cons_of_ne_nil hw.ne
      have hblank := hu.right c (by rw [hw.eq]; rfl)
      rw [hw.letters c (List.mem_cons_self ..)] at hblank
      cases hblank
    have hhead : ∀ c ∈ before.head?, isSpace c = true := by
      intro c hc
      refine hu.right c ?_
      rw [hw.eq, List.head?_append_of_ne_nil _ hne]
      exact hc
    refine ⟨blanks ++ (u ++ before), after, ⟨?_, hw.ne, hw.letters, ?_, hw.right⟩, ?_, hafter⟩
    · rw [hu.eq, hw.eq]
      simp
    · rw [← List.append_assoc, List.getLast?_append_of_ne_nil _ hne]
      exact hw.left
    · have hfirst : IsWord (blanks ++ (u ++ before)) blanks u before := ⟨rfl, hu.ne, hu.letters, hu.left, hhead⟩
      rw [hfirst.words, hblanks, hbefore]
      rfl

end Restyle.Text
