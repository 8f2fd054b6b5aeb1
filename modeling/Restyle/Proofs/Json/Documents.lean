import Restyle.Json.Reader
import Restyle.Proofs.Json.Comments

/-! Documents without comments. What the reader takes has no comment outside of its texts in quotes, so
dropping comments leaves it as it is. The main statement puts this next to what becomes of any text. -/

namespace Restyle.Json

open Text Lexeme

variable {mode mode' mode'' : CommentMode} {c : Char} {cs rest last : List Char}

/-! ### Passing over a text -/

/-- Dropping comments leaves what stands before the rest as it is and goes on in another mode. -/
def Passes (mode mode' : CommentMode) (cs rest : List Char) : Prop :=
  ∃ read, cs = read ++ rest ∧ ∀ more, dropComments mode (read ++ more) = read ++ dropComments mode' more

theorem Passes.refl (mode : CommentMode) (cs : List Char) : Passes mode mode cs cs := ⟨[], rfl, fun _ => rfl⟩

theorem Passes.trans (h : Passes mode mode' cs rest) (h' : Passes mode' mode'' rest last) :
    Passes mode mode'' cs last := by
  obtain ⟨read, rfl, hread⟩ := h
  obtain ⟨read', rfl, hread'⟩ := h'
  exact ⟨read ++ read', by rw [List.append_assoc], fun more => by simp only [List.append_assoc, hread, hread']⟩

/-- A character that opens neither a text nor a comment. -/
theorem Passes.code (hquote : c ≠ '"') (hslash : c ≠ '/') (h : Passes .code mode cs rest) :
    Passes .code mode (c :: cs) rest :=
  .trans ⟨[c], rfl, fun more => by
    rw [List.singleton_append, dropComments]
    · rfl
    all_goals simp [hquote, hslash]⟩ h

theorem Passes.opening (h : Passes .text mode cs rest) : Passes .code mode ('"' :: cs) rest :=
  .trans ⟨['"'], rfl, fun more => by simp [dropComments]⟩ h

theorem Passes.closing (cs : List Char) : Passes .text .code ('"' :: cs) cs :=
  ⟨['"'], rfl, fun more => by simp [dropComments]⟩

theorem Passes.escape (c : Char) (h : Passes .text mode cs rest) : Passes .text mode ('\\' :: c :: cs) rest :=
  .trans ⟨['\\', c], rfl, fun more => by simp [dropComments]⟩ h

theorem Passes.text (hquote : c ≠ '"') (hescape : c ≠ '\\') (h : Passes .text mode cs rest) :
    Passes .text mode (c :: cs) rest :=
  .trans ⟨[c], rfl, fun more => by
    rw [List.singleton_append, dropComments]
    · rfl
    all_goals simp [hquote, hescape]⟩ h

theorem passes_dropWhile {test : Char → Bool} (hquote : test '"' = false) (hslash : test '/' = false)
    (cs : List Char) : Passes .code .code cs (cs.dropWhile test) := by
  induction cs with
  | nil => exact .refl .code []
  | cons c cs ih =>
    rw [List.dropWhile_cons]
    split
    · next hc =>
      refine ih.code ?_ ?_
      · rintro rfl
        simp [hquote] at hc
      · rintro rfl
        simp [hslash] at hc
    · exact .refl .code _

theorem passes_skipGap (cs : List Char) : Passes .code .code cs (skipGap cs) := passes_dropWhile rfl rfl cs

/-! ### What the reader takes -/

theorem passes_takeHex? {n v : Nat} (h : takeHex? n cs = some (v, rest)) : Passes .text .text cs rest := by
  induction n generalizing cs v with
  | zero =>
    cases h
    exact .refl .text _
  | succ n ih =>
    cases cs with
    | nil => cases h
    | cons c cs =>
      rw [takeHex?] at h
      obtain ⟨digit, hdigit, h⟩ := Option.bind_eq_some_iff.1 h
      obtain ⟨⟨v', rest'⟩, hrest, h⟩ := Option.bind_eq_some_iff.1 h
      cases h
      refine (ih hrest).text ?_ ?_
      · rintro rfl
        cases hdigit
      · rintro rfl
        cases hdigit

theorem passes_readUnits {fuel : Nat} {units : List TextUnit} (h : readUnits fuel cs = some (units, rest)) :
    Passes .text .code cs rest := by
  fun_induction readUnits fuel cs generalizing units with
  | case1 | case2 => cases h
  | case3 fuel cs =>
    cases h
    exact .closing _
  | case4 fuel cs ih =>
    -- An escape with a number: its digits follow.
    obtain ⟨⟨n, cs₁⟩, hhex, h⟩ := Option.bind_eq_some_iff.1 h
    obtain ⟨⟨units', cs₂⟩, hunits, h⟩ := Option.bind_eq_some_iff.1 h
    cases h
    exact .escape 'u' ((passes_takeHex? hhex).trans (ih _ hunits))
  | case5 fuel e cs hu ih =>
    obtain ⟨c, hc, h⟩ := Option.bind_eq_some_iff.1 h
    obtain ⟨⟨units', cs₂⟩, hunits, h⟩ := Option.bind_eq_some_iff.1 h
    cases h
    exact .escape e (ih hunits)
  | case6 => cases h
  | case7 fuel c cs hquote _ _ hcontrol ih =>
    obtain ⟨⟨units', cs₂⟩, hunits, h⟩ := Option.bind_eq_some_iff.1 h
    cases h
    simp only [Bool.or_eq_true, beq_iff_eq, not_or] at hcontrol
    exact .text hquote hcontrol.2 (ih hunits)

theorem passes_readText {s : Option String} (h : readText cs = some (s, rest)) : Passes .text .code cs rest := by
  obtain ⟨⟨units, rest'⟩, hunits, heq⟩ := Option.bind_eq_some_iff.1 h
  cases heq
  exact passes_readUnits hunits

theorem passes_readDigits {ds : List Nat} (h : readDigits cs = some (ds, rest)) : Passes .code .code cs rest := by
  rw [readDigits] at h
  dsimp only [takeDigits] at h
  split_ifs at h
  cases h
  exact passes_dropWhile rfl rfl cs

theorem passes_readWhole {ds : List Nat} (h : readWhole cs = some (ds, rest)) : Passes .code .code cs rest := by
  obtain ⟨⟨ds', rest'⟩, hdigits, h⟩ := Option.bind_eq_some_iff.1 h
  dsimp only at h
  split_ifs at h
  cases h
  exact passes_readDigits hdigits

theorem passes_readFraction {ds : List Nat} (h : readFraction cs = some (ds, rest)) : Passes .code .code cs rest := by
  rw [readFraction.eq_def] at h
  split at h
  · exact (passes_readDigits h).code (by decide) (by decide)
  · cases h
    exact .refl .code _

theorem passes_takeSign (cs : List Char) : Passes .code .code cs (takeSign cs).2 := by
  rw [takeSign.eq_def]
  split
  · exact (Passes.refl .code _).code (by decide) (by decide)
  · exact (Passes.refl .code _).code (by decide) (by decide)
  · exact .refl .code _

theorem passes_readPower {e : Option (Bool × List Nat)} (h : readPower cs = some (e, rest)) :
    Passes .code .code cs rest := by
  obtain ⟨⟨ds, rest'⟩, hdigits, h⟩ := Option.bind_eq_some_iff.1 h
  cases h
  exact (passes_takeSign cs).trans (passes_readDigits hdigits)

theorem passes_readExponent {e : Option (Bool × List Nat)} (h : readExponent cs = some (e, rest)) :
    Passes .code .code cs rest := by
  rw [readExponent.eq_def] at h
  split at h
  · exact (passes_readPower h).code (by decide) (by decide)
  · exact (passes_readPower h).code (by decide) (by decide)
  · cases h
    exact .refl .code _

theorem passes_readNumber {n : JsonNumber} (h : readNumber cs = some (n, rest)) : Passes .code .code cs rest := by
  have hunsigned : ∀ {negative cs}, readUnsigned negative cs = some (n, rest) → Passes .code .code cs rest := by
    intro negative cs h
    obtain ⟨⟨whole, cs₁⟩, hwhole, h⟩ := Option.bind_eq_some_iff.1 h
    obtain ⟨⟨fraction, cs₂⟩, hfraction, h⟩ := Option.bind_eq_some_iff.1 h
    obtain ⟨⟨exponent, cs₃⟩, hexponent, h⟩ := Option.bind_eq_some_iff.1 h
    cases h
    exact ((passes_readWhole hwhole).trans (passes_readFraction hfraction)).trans (passes_readExponent hexponent)
  rw [readNumber.eq_def] at h
  split at h
  · exact (hunsigned h).code (by decide) (by decide)
  · exact hunsigned h

theorem Passes.word (word : List Char) (hword : (word.all fun c => c != '"' && c != '/') = true)
    (h : Passes .code mode cs rest) : Passes .code mode (word ++ cs) rest := by
  induction word with
  | nil => exact h
  | cons c word ih =>
    simp only [List.all_cons, Bool.and_eq_true, bne_iff_ne] at hword
    exact (ih hword.2).code hword.1.1 hword.1.2

/-- A mark between the parts of a document, with the blanks in front of it. -/
theorem Passes.mark (hquote : c ≠ '"') (hslash : c ≠ '/') (hgap : skipGap cs = c :: rest) :
    Passes .code .code cs rest :=
  (passes_skipGap cs).trans (hgap ▸ (Passes.refl .code rest).code hquote hslash)

section Nested

/-! A value holds items and members, which hold values: one level is read at a time. -/

variable {fuel : Nat}

theorem passes_readValue {v : Json}
    (hitems : ∀ {cs items rest}, readItems fuel cs = some (items, rest) → Passes .code .code cs rest)
    (hmembers : ∀ {cs members rest}, readMembers fuel cs = some (members, rest) → Passes .code .code cs rest)
    (h : readValue (fuel + 1) cs = some (v, rest)) : Passes .code .code cs rest := by
  unfold readValue at h
  dsimp only at h
  split at h
  · cases h
    exact .word ['n', 'u', 'l', 'l'] rfl (.refl .code _)
  · cases h
    exact .word ['t', 'r', 'u', 'e'] rfl (.refl .code _)
  · cases h
    exact .word ['f', 'a', 'l', 's', 'e'] rfl (.refl .code _)
  · obtain ⟨⟨s, cs'⟩, htext, h⟩ := Option.map_eq_some_iff.1 h
    cases h
    exact .opening (passes_readText htext)
  · split at h
    · next hgap =>
      cases h
      exact .code (by decide) (by decide) (.mark (by decide) (by decide) hgap)
    · obtain ⟨⟨items, cs'⟩, hread, h⟩ := Option.map_eq_some_iff.1 h
      cases h
      exact .code (by decide) (by decide) ((passes_skipGap _).trans (hitems hread))
  · split at h
    · next hgap =>
      cases h
      exact .code (by decide) (by decide) (.mark (by decide) (by decide) hgap)
    · obtain ⟨⟨members, cs'⟩, hread, h⟩ := Option.map_eq_some_iff.1 h
      cases h
      exact .code (by decide) (by decide) ((passes_skipGap _).trans (hmembers hread))
  · obtain ⟨⟨n, cs'⟩, hnumber, h⟩ := Option.map_eq_some_iff.1 h
    cases h
    exact passes_readNumber hnumber

theorem passes_readItems {items : List Json}
    (hvalue : ∀ {cs v rest}, readValue fuel cs = some (v, rest) → Passes .code .code cs rest)
    (hitems : ∀ {cs items rest}, readItems fuel cs = some (items, rest) → Passes .code .code cs rest)
    (h : readItems (fuel + 1) cs = some (items, rest)) : Passes .code .code cs rest := by
  unfold readItems at h
  obtain ⟨⟨item, cs₁⟩, hitem, h⟩ := Option.bind_eq_some_iff.1 h
  have hfirst := (passes_skipGap cs).trans (hvalue hitem)
  dsimp only at h
  split at h
  · next hgap =>
    obtain ⟨⟨items', cs₂⟩, hread, h⟩ := Option.bind_eq_some_iff.1 h
    cases h
    exact (hfirst.trans (.mark (by decide) (by decide) hgap)).trans (hitems hread)
  · next hgap =>
    cases h
    exact hfirst.trans (.mark (by decide) (by decide) hgap)
  · cases h

theorem passes_readMembers {members : List (Option String × Json)}
    (hvalue : ∀ {cs v rest}, readValue fuel cs = some (v, rest) → Passes .code .code cs rest)
    (hmembers : ∀ {cs members rest}, readMembers fuel cs = some (members, rest) → Passes .code .code cs rest)
    (h : readMembers (fuel + 1) cs = some (members, rest)) : Passes .code .code cs rest := by
  unfold readMembers at h
  split at h
  · next hname =>
    obtain ⟨⟨name, cs₁⟩, htext, h⟩ := Option.bind_eq_some_iff.1 h
    have hfirst := (passes_skipGap cs).trans (hname ▸ (passes_readText htext).opening)
    dsimp only at h
    split at h
    · next hcolon =>
      obtain ⟨⟨value, cs₂⟩, hread, h⟩ := Option.bind_eq_some_iff.1 h
      have hmember := (hfirst.trans (.mark (by decide) (by decide) hcolon)).trans
        ((passes_skipGap _).trans (hvalue hread))
      dsimp only at h
      split at h
      · next hgap =>
        obtain ⟨⟨members', cs₃⟩, hrest, h⟩ := Option.bind_eq_some_iff.1 h
        cases h
        exact (hmember.trans (.mark (by decide) (by decide) hgap)).trans (hmembers hrest)
      · next hgap =>
        cases h
        exact hmember.trans (.mark (by decide) (by decide) hgap)
      · cases h
    · cases h
  · cases h

theorem passes_read (fuel : Nat) :
    (∀ {cs v rest}, readValue fuel cs = some (v, rest) → Passes .code .code cs rest) ∧
    (∀ {cs items rest}, readItems fuel cs = some (items, rest) → Passes .code .code cs rest) ∧
    ∀ {cs members rest}, readMembers fuel cs = some (members, rest) → Passes .code .code cs rest := by
  induction fuel with
  | zero =>
    refine ⟨fun h => ?_, fun h => ?_, fun h => ?_⟩
    · simp [readValue] at h
    · simp [readItems] at h
    · simp [readMembers] at h
  | succ fuel ih =>
    obtain ⟨hvalue, hitems, hmembers⟩ := ih
    exact ⟨passes_readValue hitems hmembers, passes_readItems hvalue hitems, passes_readMembers hvalue hmembers⟩

end Nested

/-- Dropping comments leaves a document as it is. -/
theorem dropComments_of_document {text : String} (h : (ofText? text).isSome = true) :
    dropComments .code text.toList = text.toList := by
  obtain ⟨v, hv⟩ := Option.isSome_iff_exists.1 h
  obtain ⟨⟨value, rest⟩, hread, hend⟩ := Option.bind_eq_some_iff.1 hv
  dsimp only at hend
  split_ifs at hend with hempty
  have hpasses := ((passes_skipGap text.toList).trans ((passes_read _).1 hread)).trans (passes_skipGap rest)
  rw [List.isEmpty_iff.1 hempty] at hpasses
  obtain ⟨read, htext, hall⟩ := hpasses
  calc dropComments .code text.toList = dropComments .code (read ++ []) := by rw [htext]
    _ = read ++ dropComments .code [] := hall []
    _ = text.toList := by rw [htext, dropComments]

/-- What is left of a text are its parts but for the comments, and into these parts it splits again. A
text without comments is left as it is, and so is every document. -/
theorem withoutComments_split (text : String) :
    (split text.toList).flatMap chars = text.toList ∧
    (withoutComments text).toList = ((split text.toList).filter (!·.isComment)).flatMap chars ∧
    split (withoutComments text).toList = (split text.toList).filter (!·.isComment) ∧
    ((∀ l ∈ split text.toList, l.isComment = false) → withoutComments text = text) ∧
    ((ofText? text).isSome = true → withoutComments text = text) ∧
    withoutComments (withoutComments text) = withoutComments text := by
  have hleft : (withoutComments text).toList = kept (split text.toList) := by
    rw [withoutComments, String.toList_ofList, dropComments_code]
  have hsplit : split (withoutComments text).toList = (split text.toList).filter (!·.isComment) := by
    rw [hleft, split_kept_split]
  refine ⟨flatMap_split _, hleft, hsplit, fun hnone => ?_, fun hdocument => ?_, ?_⟩
  · have hfilter : (split text.toList).filter (!·.isComment) = split text.toList :=
      List.filter_eq_self.2 fun l hl => by simp [hnone l hl]
    rw [← String.toList_inj, hleft, kept, hfilter, flatMap_split]
  · rw [withoutComments, dropComments_of_document hdocument, String.ofList_toList]
  · rw [← String.toList_inj, hleft, withoutComments, String.toList_ofList, dropComments_code, hsplit, kept,
      List.filter_filter]
    simp [kept]

example : withoutComments "[\"a//b\", /*/ c */ 1 / 2] // d" = "[\"a//b\",  1 / 2] " := by decide +kernel

end Restyle.Json
