import Restyle.Proofs.Source.Slices
import Restyle.Script.Parse

/-! Places in a script. Every place that is reached from the head of a text begins where a part of the text
ends, so that what is read between two places stands in the text. A token takes at least one character unless
the text is at its end, so reading past a token moves on. -/

namespace Restyle.Script

open Text

/-! ### Tokens -/

theorem le_readExponent (start : Nat) (cs : List Char) : start ≤ (readExponent start cs).2.1 := by
  unfold readExponent
  split
  · dsimp only
    split <;> omega
  · dsimp only
    split <;> omega
  · exact Nat.le_refl _

theorem le_readFraction (start : Nat) (cs : List Char) : start ≤ (readFraction start cs).2.1 := by
  unfold readFraction
  split
  · dsimp only
    omega
  · exact Nat.le_refl _

theorem Lexeme.length_endNumber (l : Lexeme) (cs : List Char) : (l.endNumber cs).length = l.length := by
  unfold endNumber
  split <;> rfl

theorem length_readDecimal (whole : DigitRun) (cs : List Char) :
    (readFraction whole.length (cs.drop whole.length)).2.1 ≤ (readDecimal whole cs).length := by
  unfold readDecimal
  have hexponent := le_readExponent (readFraction whole.length (cs.drop whole.length)).2.1
    (cs.drop (readFraction whole.length (cs.drop whole.length)).2.1)
  dsimp only
  split
  · exact hexponent
  · rw [Lexeme.length_endNumber]
    exact hexponent

theorem length_readInBase_pos (base : Nat) (cs : List Char) : 0 < (readInBase base cs).length := by
  unfold readInBase
  dsimp only
  split
  · dsimp only
    omega
  · split
    · dsimp only
      omega
    · rw [Lexeme.length_endNumber]
      dsimp only
      omega

theorem isDigitIn_of_isDigit {c : Char} (hc : c.isDigit = true) : isDigitIn 10 c = true := by
  have hbounds := hc
  simp only [Char.isDigit, Bool.and_eq_true, decide_eq_true_eq, UInt32.le_iff_toNat_le] at hbounds
  obtain ⟨-, hle⟩ := hbounds
  have hlt : c.toNat - 48 < 10 := by
    have : c.toNat ≤ 57 := hle
    omega
  simp [isDigitIn, hexValue?, hc, hlt]

theorem DigitRun.length_read_pos {c : Char} (hc : c.isDigit = true) (cs : List Char) :
    0 < (DigitRun.read 10 (c :: cs)).length := by
  have hne : c ≠ '_' := by
    rintro rfl
    exact absurd hc (by decide)
  rw [DigitRun.read, if_neg hne, if_pos (isDigitIn_of_isDigit hc)]
  exact Nat.succ_pos _

theorem length_readNumber_pos {c : Char} {cs : List Char} (hc : c.isDigit = true ∨ c = '.') :
    0 < (readNumber (c :: cs)).length := by
  unfold readNumber
  split
  · exact length_readInBase_pos ..
  · exact length_readInBase_pos ..
  · exact length_readInBase_pos ..
  · exact length_readInBase_pos ..
  · exact length_readInBase_pos ..
  · exact length_readInBase_pos ..
  · next rest heq =>
    obtain ⟨rfl, rfl⟩ := List.cons.inj heq
    refine Nat.lt_of_lt_of_le ?_ (length_readDecimal {} ('.' :: cs))
    exact Nat.lt_of_lt_of_le (Nat.succ_pos _) (Nat.le_add_right ..)
  · next hpoint =>
    have hdigit : c.isDigit = true := hc.resolve_right fun h => hpoint cs (h ▸ rfl)
    have hwhole := DigitRun.length_read_pos hdigit cs
    dsimp only
    split
    · exact Nat.succ_pos _
    · split
      · split
        · rw [Lexeme.length_endNumber]
          exact hwhole
        · rw [Lexeme.length_endNumber]
          exact hwhole
      · exact Nat.lt_of_lt_of_le hwhole ((le_readFraction ..).trans (length_readDecimal ..))

theorem continuesIdentifier_of_startsIdentifier {c : Char} (h : startsIdentifier c = true) :
    continuesIdentifier c = true := by
  unfold startsIdentifier at h
  unfold continuesIdentifier
  split
  · next hascii =>
    rw [if_pos hascii] at h
    simp only [Char.isAlphanum, Bool.or_eq_true] at h ⊢
    tauto
  · next hascii =>
    rw [if_neg hascii] at h
    simp [h]

theorem length_readWord_pos {c : Char} (hc : startsIdentifier c = true ∨ c = '\\') (cs : List Char) :
    0 < (readWord (c :: cs)).length := by
  have hrun : 0 < (WordRun.read (c :: cs).length (c :: cs)).length := by
    rw [List.length_cons, WordRun.read]
    split
    · exact Nat.succ_pos _
    · next hcontinues =>
      obtain rfl : c = '\\' := hc.resolve_left fun h => hcontinues (continuesIdentifier_of_startsIdentifier h)
      rw [if_pos rfl]
      split
      · split
        · exact Nat.lt_of_lt_of_le (Nat.succ_pos _) (Nat.le_add_right ..)
        · exact Nat.one_pos
      · exact Nat.one_pos
  unfold readWord
  dsimp only
  split <;> exact hrun

theorem ne_empty_of_readMark? {cs : List Char} {m : String} (h : readMark? cs = some m) : 0 < m.length := by
  unfold readMark? at h
  split at h
  · next m' hfind =>
    obtain rfl := Option.some.inj h
    have hmem := List.mem_of_find?_eq_some hfind
    have hall : ∀ m ∈ longMarks, 0 < m.length := by decide
    simpa using hall m' hmem
  · obtain ⟨c, -, rfl⟩ := Option.map_eq_some_iff.1 h
    simp

/-- A token of a text takes at least one character. -/
theorem Lexeme.length_read_pos {cs : List Char} (h : cs ≠ []) : 0 < (Lexeme.read cs).length := by
  obtain ⟨c, rest, rfl⟩ := List.exists_cons_of_ne_nil h
  unfold Lexeme.read
  dsimp only
  split
  · unfold readQuoted
    dsimp only
    split <;> exact Nat.lt_of_lt_of_le Nat.one_pos (Nat.le_add_right ..)
  · split
    · next hnumber =>
      simp only [Bool.or_eq_true, Bool.and_eq_true, decide_eq_true_eq] at hnumber
      exact length_readNumber_pos (hnumber.imp_right And.left)
    · split
      · next hword =>
        simp only [Bool.or_eq_true, decide_eq_true_eq] at hword
        exact length_readWord_pos hword rest
      · split
        · next hmark => exact ne_empty_of_readMark? hmark
        · exact Nat.one_pos

/-! ### Places of a text -/

namespace Place

variable {cs : List Char} {p q : Place}

/-- The place is one of a text: what follows some part of the text has been scanned there. -/
def In (cs : List Char) (p : Place) : Prop :=
  ∃ before after, cs = before ++ after ∧ p = scan (width before) after

theorem in_scan (cs : List Char) : (scan 0 cs).In cs := ⟨[], cs, rfl, rfl⟩

/-- The text from the token on stands at the offset of the token. -/
theorem In.exists_before (hp : p.In cs) : ∃ before, cs = before ++ p.source ∧ p.start = width before := by
  obtain ⟨before, after, rfl, rfl⟩ := hp
  obtain ⟨skipped, hskipped, hwidth⟩ := Gap.exists_skipped after
  refine ⟨before ++ skipped, ?_, ?_⟩
  · rw [List.append_assoc]
    exact congrArg _ hskipped
  · rw [width_append, ← hwidth]
    rfl

/-- What is reached from a place of a text is a place of it. -/
theorem In.of_reaches (hp : p.In cs) (h : p.Reaches q) : q.In cs := by
  cases h with
  | stay => exact hp
  | @on read after hread =>
    obtain ⟨before, rfl, hstart⟩ := hp.exists_before
    refine ⟨before ++ read, after, by rw [hread, List.append_assoc], ?_⟩
    rw [hstart, width_append]

theorem In.lastStop_le (hp : p.In cs) : p.lastStop ≤ p.start := by
  obtain ⟨before, after, -, rfl⟩ := hp
  exact Nat.le_add_right ..

theorem In.isBoundary_lastStop (hp : p.In cs) : isBoundary cs p.lastStop = true := by
  obtain ⟨before, after, rfl, rfl⟩ := hp
  exact isBoundary_width_append ..

/-- A place stays as it is, or the place after it is behind the start of its token. -/
theorem Reaches.eq_or_le (h : p.Reaches q) : q = p ∨ p.start ≤ q.lastStop := by
  cases h with
  | stay => exact .inl rfl
  | on => exact .inr (Nat.le_add_right ..)

theorem In.start_le (hp : p.In cs) (h : p.Reaches q) : p.start ≤ q.start := by
  obtain rfl | hle := h.eq_or_le
  · exact Nat.le_refl _
  · exact hle.trans (hp.of_reaches h).lastStop_le

theorem In.lastStop_mono (hp : p.In cs) (h : p.Reaches q) : p.lastStop ≤ q.lastStop := by
  obtain rfl | hle := h.eq_or_le
  · exact Nat.le_refl _
  · exact hp.lastStop_le.trans hle

/-- Unless the text ends, the token takes some of it. -/
theorem In.start_lt_stop (hp : p.In cs) (htoken : p.token ≠ .finish) : p.start < p.stop := by
  obtain ⟨before, after, rfl, rfl⟩ := hp
  have hsource : (Gap.ofText after).rest ≠ [] := by
    intro hnil
    refine htoken ?_
    show (Lexeme.read (Gap.ofText after).rest).token = .finish
    rw [hnil]
    rfl
  obtain ⟨c, rest, hcons⟩ := List.exists_cons_of_ne_nil hsource
  have hlength : 0 < (Lexeme.read (Gap.ofText after).rest).length := Lexeme.length_read_pos hsource
  obtain ⟨n, hn⟩ := Nat.exists_eq_succ_of_ne_zero (Nat.ne_of_gt hlength)
  have hspelled : width ((Gap.ofText after).rest.take (Lexeme.read (Gap.ofText after).rest).length) =
      c.utf8Size + width (rest.take n) := by
    rw [hn, hcons]
    rfl
  refine Nat.lt_add_of_pos_right (Nat.lt_of_lt_of_eq ?_ hspelled.symm)
  exact Nat.lt_of_lt_of_le c.utf8Size_pos (Nat.le_add_right ..)

/-- What is read from a token on up to a later place stands in the text. -/
theorem In.exists_piece (hp : p.In cs) (h : p.Reaches q) (hlt : p.start < q.lastStop) :
    ∃ piece, piece ≠ [] ∧ Stands cs p.start piece ∧ q.lastStop = p.start + width piece := by
  cases h with
  | stay => exact absurd hp.lastStop_le (Nat.not_le.2 hlt)
  | @on read after hread =>
    obtain ⟨before, rfl, hstart⟩ := hp.exists_before
    refine ⟨read, ?_, ⟨before, after, by rw [hread], hstart.symm⟩, rfl⟩
    rintro rfl
    exact Nat.lt_irrefl _ hlt

end Place

end Restyle.Script
