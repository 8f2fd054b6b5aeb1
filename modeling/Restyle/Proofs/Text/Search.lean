import Mathlib.Data.List.Infix
import Mathlib.Data.List.TakeWhile
import Restyle.Text.Search

/-! Where a text is broken. A break depends on the text up to it and a little behind it, so the same text
is broken at the same place whatever follows there. -/

namespace Restyle.Text

variable {piece t z z' : List Char} {test : List Char → Bool}

/-- What is tested on each character of a text is true of all of them. -/
theorem forall_mem_of_all {cs : List Char} {p : Char → Prop} [DecidablePred p] (h : (cs.all fun c => p c) = true) :
    ∀ c ∈ cs, p c := by
  simpa using h

theorem strip?_eq_none {cs : List Char} (h : ¬ piece <+: cs) : strip? piece cs = none := by
  cases hstrip : strip? piece cs with
  | none => rfl
  | some rest => exact absurd ⟨rest, (strip?_eq_some_iff.1 hstrip).symm⟩ h

theorem startsWith_iff {cs : List Char} : startsWith piece cs = true ↔ piece <+: cs := by
  rw [startsWith, Option.isSome_iff_exists]
  constructor
  · rintro ⟨rest, h⟩
    exact ⟨rest, (strip?_eq_some_iff.1 h).symm⟩
  · rintro ⟨rest, h⟩
    exact ⟨rest, strip?_eq_some_iff.2 h.symm⟩

theorem contains_iff {cs : List Char} : contains piece cs = true ↔ piece <:+: cs := by
  rw [contains]
  induction cs with
  | nil =>
    rw [breakOn?, List.infix_nil]
    split <;> simp [*]
  | cons c cs ih =>
    rw [breakOn?, List.infix_cons_iff, ← startsWith_iff]
    by_cases h : startsWith piece (c :: cs) = true
    · simp [h]
    · rw [if_neg h, Option.isSome_map, ih]
      simp [h]

/-- A text is broken where the test first holds. -/
theorem breakWhere_append_iff : breakWhere test (t ++ z) = (t, z) ↔
    (z = [] ∨ test z = true) ∧ ∀ d u, d :: u <:+ t → test (d :: (u ++ z)) = false := by
  induction t with
  | nil =>
    cases z with
    | nil => simp [breakWhere]
    | cons c z =>
      rw [List.nil_append, breakWhere]
      split <;> simp_all
  | cons c t ih =>
    rw [List.cons_append, breakWhere]
    by_cases h : test (c :: (t ++ z)) = true
    · rw [if_pos h]
      constructor
      · intro he
        cases he
      · rintro ⟨-, hall⟩
        rw [hall c t (List.suffix_refl _)] at h
        cases h
    · rw [if_neg h]
      have hpair : ((c :: (breakWhere test (t ++ z)).1, (breakWhere test (t ++ z)).2) = (c :: t, z)) ↔
          breakWhere test (t ++ z) = (t, z) := by
        simp [Prod.ext_iff]
      show (c :: (breakWhere test (t ++ z)).1, (breakWhere test (t ++ z)).2) = (c :: t, z) ↔ _
      rw [hpair, ih]
      refine and_congr_right fun _ => ⟨fun hall d u hu => ?_, fun hall d u hu => ?_⟩
      · rcases List.suffix_cons_iff.1 hu with he | hu
        · cases he
          simpa using h
        · exact hall d u hu
      · exact hall d u (List.suffix_cons_iff.2 (.inr hu))

/-- A text that was broken is broken there again. -/
theorem breakWhere_again (test : List Char → Bool) (cs : List Char) :
    breakWhere test ((breakWhere test cs).1 ++ (breakWhere test cs).2) =
      ((breakWhere test cs).1, (breakWhere test cs).2) := by
  rw [breakWhere_append]

/-! ### Tests of two characters -/

/-- The test looks at two characters at most. -/
def LooksAtTwo (test : List Char → Bool) : Prop :=
  ∀ d cs cs', cs.head? = cs'.head? → test (d :: cs) = test (d :: cs')

/-- With such a test a text is broken at the same place if the next character is the same. -/
theorem LooksAtTwo.breakWhere (htwo : LooksAtTwo test) (h : breakWhere test (t ++ z) = (t, z))
    (hhead : z'.head? = z.head?) (hz' : z' = [] ∨ test z' = true) :
    Text.breakWhere test (t ++ z') = (t, z') := by
  obtain ⟨-, hall⟩ := breakWhere_append_iff.1 h
  refine breakWhere_append_iff.2 ⟨hz', fun d u hu => ?_⟩
  rw [← hall d u hu]
  apply htwo
  cases u with
  | nil => exact hhead
  | cons e u => rfl

/-! ### Pieces -/

/-- When the piece stands behind the text, it does not stand anywhere before. -/
def Free (piece t : List Char) : Prop := breakWhere (startsWith piece) (t ++ piece) = (t, piece)

/-- Whether a piece stands somewhere before or at a place where it stands does not depend on what follows. -/
theorem startsWith_before (x y : List Char) :
    startsWith piece (x ++ (piece ++ y)) = startsWith piece (x ++ piece) := by
  rw [Bool.eq_iff_iff, startsWith_iff, startsWith_iff]
  constructor
  · intro h
    rw [← List.append_assoc] at h
    exact List.prefix_of_prefix_length_le h (List.prefix_append _ _) (by simp)
  · intro h
    rw [← List.append_assoc]
    exact List.prefix_append_of_prefix h

theorem free_of_breakWhere {cs : List Char} (h : (breakWhere (startsWith piece) cs).2 = piece ++ z) :
    Free piece (breakWhere (startsWith piece) cs).1 := by
  have hcs := breakWhere_again (startsWith piece) cs
  rw [h] at hcs
  obtain ⟨-, hall⟩ := breakWhere_append_iff.1 hcs
  refine breakWhere_append_iff.2 ⟨.inr (startsWith_iff.2 (List.prefix_refl _)), fun d u hu => ?_⟩
  have := hall d u hu
  rwa [← List.cons_append, startsWith_before] at this

theorem Free.breakWhere (h : Free piece t) (z : List Char) :
    Text.breakWhere (startsWith piece) (t ++ (piece ++ z)) = (t, piece ++ z) := by
  obtain ⟨-, hall⟩ := breakWhere_append_iff.1 h
  refine breakWhere_append_iff.2
    ⟨.inr (startsWith_iff.2 (List.prefix_append _ _)), fun d u hu => ?_⟩
  rw [← List.cons_append, startsWith_before]
  exact hall d u hu

/-- If no part of a piece both begins and ends it, only the text itself counts. -/
theorem free_of_unbordered (hp : ∀ v, v ≠ [] → v <+: piece → v <:+ piece → v = piece) (h : ¬ piece <:+: t) :
    Free piece t := by
  refine breakWhere_append_iff.2 ⟨.inr (startsWith_iff.2 (List.prefix_refl _)), fun d u hu => ?_⟩
  rw [← Bool.not_eq_true, startsWith_iff, ← List.cons_append]
  intro hpiece
  rcases List.prefix_or_prefix_of_prefix hpiece (List.prefix_append (d :: u) piece) with hle | ⟨v, hv⟩
  · exact h (hle.isInfix.trans hu.isInfix)
  · -- the piece would begin in the text and end behind it
    have hbegins : v <+: piece := by
      rwa [← hv, List.prefix_append_right_inj, hv] at hpiece
    by_cases hnil : v = []
    · rw [hnil, List.append_nil] at hv
      exact h (hv ▸ hu.isInfix)
    · have hlen := congrArg List.length hv
      rw [hp v hnil hbegins ⟨d :: u, hv⟩, List.length_append, List.length_cons] at hlen
      omega

/-- If the first character of a piece does not come again in it, only the text itself counts. -/
theorem free_iff {p : Char} {ps : List Char} (hp : p ∉ ps) : Free (p :: ps) t ↔ ¬ (p :: ps) <:+: t := by
  constructor
  · rintro h ⟨a, b, rfl⟩
    obtain ⟨-, hall⟩ := breakWhere_append_iff.1 h
    have := hall p (ps ++ b) ⟨a, by simp⟩
    rw [← Bool.not_eq_true, startsWith_iff] at this
    exact this ⟨b ++ p :: ps, by simp⟩
  · refine free_of_unbordered fun v hne hbegins hends => ?_
    obtain ⟨d, v, rfl⟩ := List.exists_cons_of_ne_nil hne
    obtain ⟨rfl, -⟩ := List.cons_prefix_cons.1 hbegins
    rcases List.suffix_cons_iff.1 hends with heq | hends
    · exact heq
    · exact absurd (hends.subset (List.mem_cons_self ..)) hp

/-- A piece stands on one side of a character that it does not have. -/
theorem infix_append_cons {a b : List Char} {s : Char} (hs : s ∉ piece) (h : piece <:+: a ++ s :: b) :
    piece <:+: a ∨ piece <:+: b := by
  rcases List.infix_append_iff.1 h with h | h | ⟨u, v, rfl, hu, hv⟩
  · exact .inl h
  · rcases List.infix_cons_iff.1 h with h | h
    · rcases List.prefix_cons_iff.1 h with rfl | ⟨v, rfl, -⟩
      · exact .inl (List.nil_infix)
      · exact absurd (List.mem_cons_self ..) hs
    · exact .inr h
  · rcases List.prefix_cons_iff.1 hv with rfl | ⟨v, rfl, -⟩
    · rw [List.append_nil]
      exact .inl hu.isInfix
    · exact absurd (List.mem_append_right _ (List.mem_cons_self ..)) hs

theorem not_infix_append_cons {a b : List Char} {s : Char} (hs : s ∉ piece) (ha : ¬ piece <:+: a)
    (hb : ¬ piece <:+: b) : ¬ piece <:+: a ++ s :: b := fun h => (infix_append_cons hs h).elim ha hb

theorem not_infix_of_not_mem {p : Char} {ps : List Char} (h : p ∉ t) : ¬ (p :: ps) <:+: t := fun hinfix =>
  h (List.IsInfix.subset hinfix (List.mem_cons_self ..))

/-- A piece does not begin in a text that does not have its first character. -/
theorem infix_of_append {p : Char} {ps a b : List Char} (hp : p ∉ a) (h : (p :: ps) <:+: a ++ b) :
    (p :: ps) <:+: b := by
  rcases List.infix_append_iff.1 h with h | h | ⟨u, v, huv, hu, hv⟩
  · exact absurd h (not_infix_of_not_mem hp)
  · exact h
  · cases u with
    | nil =>
      rw [huv]
      exact hv.isInfix
    | cons d u =>
      obtain ⟨rfl, -⟩ := List.cons.inj huv
      exact absurd (hu.subset (List.mem_cons_self ..)) hp

/-! ### Texts with a character -/

section characters

variable {d e : Char} {cs inside after : List Char}

theorem dropWhile_ne_eq_nil_iff : cs.dropWhile (· ≠ d) = [] ↔ d ∉ cs := by
  rw [List.dropWhile_eq_nil_iff]
  exact ⟨fun h hd => by simpa using h d hd, fun h c hc => by simpa using fun he : c = d => h (he ▸ hc)⟩

/-- What is left from a character on begins with it. -/
theorem eq_append_of_dropWhile_ne (h : cs.dropWhile (· ≠ d) = e :: after) :
    e = d ∧ cs = cs.takeWhile (· ≠ d) ++ d :: after := by
  have he : e = d := by
    have hhead := List.head?_dropWhile_not (· ≠ d) cs
    rw [h] at hhead
    simpa using hhead
  have hsplit := (List.takeWhile_append_dropWhile (p := (· ≠ d)) (l := cs)).symm
  rw [h, he] at hsplit
  exact ⟨he, hsplit⟩

/-- What is in a row is in it for the last time somewhere. -/
theorem exists_last_of_mem {α : Type} {d : α} {cs : List α} (h : d ∈ cs) :
    ∃ inside after, cs = inside ++ d :: after ∧ d ∉ after := by
  obtain ⟨after, inside, hcs, hafter⟩ := List.eq_append_cons_of_mem (List.mem_reverse.2 h)
  refine ⟨inside.reverse, after.reverse, ?_, by simpa using hafter⟩
  rw [← List.reverse_reverse cs, hcs]
  simp

/-- Looked for from the end, a character is found at its last place. -/
theorem dropWhile_reverse_append_cons (h : d ∉ after) :
    (inside ++ d :: after).reverse.dropWhile (· ≠ d) = d :: inside.reverse := by
  have hafter : ∀ c ∈ after.reverse, decide (c ≠ d) = true := fun c hc => by
    simpa using fun he : c = d => h (List.mem_reverse.1 (he ▸ hc))
  rw [List.reverse_append, List.reverse_cons, List.append_assoc, List.singleton_append,
    List.dropWhile_append_of_pos hafter, List.dropWhile_cons_of_neg (by simp)]

end characters

/-! ### Separated texts -/

variable {sep : Char} {cs ds : List Char}

theorem splitAtChar_ne_nil (sep : Char) (cs : List Char) : splitAtChar sep cs ≠ [] := by
  cases cs with
  | nil => simp [splitAtChar]
  | cons c cs =>
    rw [splitAtChar]
    split
    · simp
    · split <;> simp

/-- A separator ends a part. -/
theorem splitAtChar_append_cons (sep : Char) (cs ds : List Char) :
    splitAtChar sep (cs ++ sep :: ds) = splitAtChar sep cs ++ splitAtChar sep ds := by
  induction cs with
  | nil => simp [splitAtChar]
  | cons c cs ih =>
    rw [List.cons_append, splitAtChar, splitAtChar, ih]
    split
    · rfl
    · obtain ⟨part, parts, hparts⟩ := List.exists_cons_of_ne_nil (splitAtChar_ne_nil sep cs)
      rw [hparts]
      rfl

/-- Without a separator there is one part. -/
theorem splitAtChar_of_not_mem (h : sep ∉ cs) : splitAtChar sep cs = [cs] := by
  induction cs with
  | nil => rfl
  | cons c cs ih =>
    simp only [List.mem_cons, not_or] at h
    obtain ⟨hne, hrest⟩ := h
    rw [splitAtChar, if_neg (Ne.symm hne), ih hrest]

theorem splitAtChar_replicate_append (sep : Char) (n : Nat) (cs : List Char) :
    splitAtChar sep (List.replicate n sep ++ cs) = List.replicate n [] ++ splitAtChar sep cs := by
  induction n with
  | zero => rfl
  | succ n ih => rw [List.replicate_succ, List.cons_append, splitAtChar, if_pos rfl, ih]; rfl

theorem not_mem_of_mem_splitAtChar {part : List Char} (h : part ∈ splitAtChar sep cs) : sep ∉ part := by
  induction cs generalizing part with
  | nil => simp_all [splitAtChar]
  | cons c cs ih =>
    rw [splitAtChar] at h
    split at h
    · rcases List.mem_cons.1 h with rfl | h
      · simp
      · exact ih h
    · next hc =>
      obtain ⟨first, parts, hparts⟩ := List.exists_cons_of_ne_nil (splitAtChar_ne_nil sep cs)
      rw [hparts] at h ih
      rcases List.mem_cons.1 h with rfl | h
      · simpa [Ne.symm hc] using ih (List.mem_cons_self ..)
      · exact ih (List.mem_cons_of_mem _ h)

/-- Splitting undoes joining. -/
theorem splitAtChar_intercalate {parts : List (List Char)} (hne : parts ≠ [])
    (h : ∀ part ∈ parts, sep ∉ part) : splitAtChar sep (List.intercalate [sep] parts) = parts := by
  induction parts with
  | nil => exact absurd rfl hne
  | cons part parts ih =>
    have hpart := h part (List.mem_cons_self ..)
    cases parts with
    | nil => simp [List.intercalate, splitAtChar_of_not_mem hpart]
    | cons next parts =>
      have hrest := ih (by simp) fun q hq => h q (List.mem_cons_of_mem _ hq)
      have hjoin : List.intercalate [sep] (part :: next :: parts)
          = part ++ sep :: List.intercalate [sep] (next :: parts) := by
        simp [List.intercalate]
      rw [hjoin, splitAtChar_append_cons, splitAtChar_of_not_mem hpart, hrest]
      rfl

/-- Joining undoes splitting. -/
theorem intercalate_splitAtChar (sep : Char) (cs : List Char) :
    List.intercalate [sep] (splitAtChar sep cs) = cs := by
  induction cs with
  | nil => simp [splitAtChar]
  | cons c cs ih =>
    obtain ⟨part, parts, hparts⟩ := List.exists_cons_of_ne_nil (splitAtChar_ne_nil sep cs)
    rw [hparts] at ih
    rw [splitAtChar, hparts]
    split_ifs with hc
    · conv_rhs => rw [← ih, hc]
      simp [List.intercalate]
    · conv_rhs => rw [← ih]
      cases parts <;> simp [List.intercalate]

/-- What follows a text without separators belongs to its last part. -/
theorem splitAtChar_append {front : List (List Char)} {last : List Char} (hds : sep ∉ ds)
    (h : splitAtChar sep cs = front ++ [last]) : splitAtChar sep (cs ++ ds) = front ++ [last ++ ds] := by
  induction cs generalizing front last with
  | nil =>
    obtain ⟨rfl, rfl⟩ : front = [] ∧ last = [] := by
      rw [splitAtChar] at h
      cases front <;> simp_all
    exact splitAtChar_of_not_mem hds
  | cons c cs ih =>
    rw [splitAtChar] at h
    rw [List.cons_append, splitAtChar]
    split at h
    · next hc =>
      rw [if_pos hc]
      cases front with
      | nil =>
        simp only [List.nil_append, List.cons.injEq] at h
        exact absurd h.2 (splitAtChar_ne_nil sep cs)
      | cons part front =>
        rw [List.cons_append] at h
        obtain ⟨rfl, hrest⟩ := List.cons.inj h
        rw [ih hrest]
        rfl
    · next hc =>
      rw [if_neg hc]
      obtain ⟨part, parts, hparts⟩ := List.exists_cons_of_ne_nil (splitAtChar_ne_nil sep cs)
      rw [hparts] at h
      cases front with
      | nil =>
        obtain ⟨rfl, rfl⟩ := List.cons.inj h
        rw [@ih [] part hparts]
        rfl
      | cons part' front =>
        obtain ⟨rfl, rfl⟩ := List.cons.inj h
        rw [@ih (part :: front) last hparts]
        rfl

end Restyle.Text
