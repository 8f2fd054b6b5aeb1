import Restyle.Proofs.Text.Bytes
import Restyle.Source.Span

/-! Weaving texts into a text. A weave says for every offset what is put there and whether the character
there is left out; the places of a text where it does neither come through as they are. -/

namespace Restyle

open Text

structure Weave where
  /-- What is put before the character at an offset. -/
  put : Nat → List Char
  /-- Whether the character at an offset is left out. -/
  drops : Nat → Bool

namespace Weave

variable {w : Weave} {lo mid hi offset : Nat} {t z : List Char}

/-- What becomes of a text that begins at an offset. -/
def text (w : Weave) (offset : Nat) : List Char → List Char
  | [] => w.put offset
  | c :: cs =>
    w.put offset ++ ((if w.drops offset then [] else [c]) ++ w.text (offset + c.utf8Size) cs)

/-- What is put at an offset of a text is in what becomes of it. -/
theorem put_infix_text (w : Weave) (offset : Nat) (a b : List Char) :
    w.put (offset + width a) <:+: w.text offset (a ++ b) := by
  induction a generalizing offset with
  | nil =>
    cases b with
    | nil => exact List.infix_rfl
    | cons c b => exact (List.prefix_append ..).isInfix
  | cons c a ih =>
    rw [width_cons, ← Nat.add_assoc, List.cons_append, text, ← List.append_assoc]
    exact (ih _).trans (List.suffix_append ..).isInfix

/-- Nothing happens at the offsets from one up to another. -/
def Quiet (w : Weave) (lo hi : Nat) : Prop := ∀ o, lo ≤ o → o < hi → w.put o = [] ∧ w.drops o = false

theorem Quiet.mono {lo' hi' : Nat} (h : w.Quiet lo hi) (hlo : lo ≤ lo') (hhi : hi' ≤ hi) :
    w.Quiet lo' hi' := fun o ho ho' => h o (Nat.le_trans hlo ho) (Nat.lt_of_lt_of_le ho' hhi)

/-- A text comes through where nothing happens. -/
theorem Quiet.text_append (h : w.Quiet offset (offset + width t)) (z : List Char) :
    w.text offset (t ++ z) = t ++ w.text (offset + width t) z := by
  induction t generalizing offset with
  | nil => rfl
  | cons c t ih =>
    have hc := c.utf8Size_pos
    rw [width_cons, ← Nat.add_assoc] at h ⊢
    obtain ⟨hput, hdrops⟩ := h offset (Nat.le_refl _) (by omega)
    rw [List.cons_append, text, hput, hdrops, ih (h.mono (by omega) (Nat.le_refl _))]
    rfl

/-- A span gives way to a new text. -/
structure Replaces (w : Weave) (s : Span) (new : List Char) : Prop where
  put : w.put s.start = new
  silent : ∀ o, s.start < o → o < s.stop → w.put o = []
  drops : ∀ o, s.start ≤ o → o < s.stop → w.drops o = true

/-- Where characters are left out, only what is put there remains. -/
theorem text_append_of_drops (hput : ∀ o, offset ≤ o → o < offset + width t → w.put o = [])
    (hdrops : ∀ o, offset ≤ o → o < offset + width t → w.drops o = true) :
    w.text offset (t ++ z) = w.text (offset + width t) z := by
  induction t generalizing offset with
  | nil => rfl
  | cons c t ih =>
    have hc := c.utf8Size_pos
    rw [width_cons, ← Nat.add_assoc] at hput hdrops ⊢
    rw [List.cons_append, text, hput offset (Nat.le_refl _) (by omega),
      hdrops offset (Nat.le_refl _) (by omega),
      ih (fun o ho => hput o (by omega)) fun o ho => hdrops o (by omega)]
    rfl

theorem Replaces.text_append {new : List Char} (h : w.Replaces ⟨offset, offset + width t⟩ new)
    (ht : t ≠ []) (z : List Char) : w.text offset (t ++ z) = new ++ w.text (offset + width t) z := by
  cases t with
  | nil => exact absurd rfl ht
  | cons c t =>
    have hc := c.utf8Size_pos
    have hput : ∀ o, offset < o → o < offset + width (c :: t) → w.put o = [] := h.silent
    have hdrops : ∀ o, offset ≤ o → o < offset + width (c :: t) → w.drops o = true := h.drops
    rw [width_cons, ← Nat.add_assoc] at hput hdrops ⊢
    rw [List.cons_append, text, hdrops offset (Nat.le_refl _) (by omega),
      show w.put offset = new from h.put,
      text_append_of_drops (fun o ho => hput o (by omega)) fun o ho => hdrops o (by omega)]
    rfl

/-- A span that gives way is not one where nothing happens. -/
theorem Replaces.not_quiet {s : Span} {new : List Char} (h : w.Replaces s new) (hs : s.start < s.stop)
    (hlo : lo ≤ s.start) (hhi : s.start < hi) : ¬ w.Quiet lo hi := by
  intro hquiet
  have hdrops := h.drops s.start (Nat.le_refl _) hs
  rw [(hquiet s.start hlo hhi).2] at hdrops
  cases hdrops

/-- What becomes of a text if only something is put at its ends. -/
def filled (w : Weave) (offset : Nat) (t : List Char) : List Char :=
  w.put offset ++ (t ++ if t = [] then [] else w.put (offset + width t))

theorem text_filled {d : Char} (hput : ∀ o, offset < o → o < offset + width t → w.put o = [])
    (hdrops : ∀ o, offset ≤ o → o ≤ offset + width t → w.drops o = false) :
    w.text offset (t ++ d :: z) =
      w.filled offset t ++ d :: w.text (offset + width t + d.utf8Size) z := by
  cases t with
  | nil =>
    rw [List.nil_append, text, hdrops offset (Nat.le_refl _) (by simp)]
    simp [filled]
  | cons c t =>
    have hc := c.utf8Size_pos
    rw [width_cons, ← Nat.add_assoc] at hput hdrops ⊢
    have hquiet : w.Quiet (offset + c.utf8Size) (offset + c.utf8Size + width t) := fun o hlo hhi =>
      ⟨hput o (by omega) hhi, hdrops o (by omega) (Nat.le_of_lt hhi)⟩
    rw [List.cons_append, text, hdrops offset (Nat.le_refl _) (by omega), hquiet.text_append, text,
      hdrops _ (by omega) (Nat.le_refl _), filled, if_neg (List.cons_ne_nil c t), width_cons,
      ← Nat.add_assoc]
    simp

/-! ### Another text behind a place -/

/-- What comes before an offset stays, and what comes behind it gives way to another text. -/
def upTo (offset : Nat) (more : List Char) : Weave where
  put o := if o = offset then more else []
  drops o := decide (offset ≤ o)

theorem quiet_upTo (offset : Nat) (more : List Char) (lo : Nat) : (upTo offset more).Quiet lo offset :=
  fun _ _ ho => ⟨if_neg (Nat.ne_of_lt ho), decide_eq_false (Nat.not_le.2 ho)⟩

theorem text_upTo_of_lt {more : List Char} (h : mid < offset) : (upTo mid more).text offset z = [] := by
  have hput : ∀ o, offset ≤ o → (upTo mid more).put o = [] := fun o ho => if_neg (by omega)
  have htext := text_append_of_drops (z := []) (t := z) (fun o ho _ => hput o ho) fun o ho _ =>
    decide_eq_true (show mid ≤ o by omega)
  rw [List.append_nil] at htext
  rw [htext, text, hput _ (Nat.le_add_right ..)]

theorem text_upTo (offset : Nat) (more z : List Char) : (upTo offset more).text offset z = more := by
  have hput : (upTo offset more).put offset = more := if_pos rfl
  cases z with
  | nil => exact hput
  | cons c z =>
    have hdrops : (upTo offset more).drops offset = true := decide_eq_true (Nat.le_refl _)
    rw [text, hput, hdrops, text_upTo_of_lt (Nat.lt_add_of_pos_right c.utf8Size_pos)]
    simp

theorem text_upTo_append (offset : Nat) (t more z : List Char) :
    (upTo (offset + width t) more).text offset (t ++ z) = t ++ more := by
  rw [(quiet_upTo (offset + width t) more offset).text_append, text_upTo]

/-! ### Bytes -/

/-- Nothing begins or ends inside a character of the text. -/
structure Respects (w : Weave) (cs : List Char) : Prop where
  put : ∀ o, isBoundary cs o = false → w.put o = []
  drops : ∀ before c after, cs = before ++ c :: after → ∀ o, width before ≤ o →
    o < width before + c.utf8Size → w.drops o = w.drops (width before)

theorem isBoundary_inside {before after : List Char} {c : Char} {o : Nat} (hlo : width before < o)
    (hhi : o < width before + c.utf8Size) : isBoundary (before ++ c :: after) o = false := by
  rw [← Bool.not_eq_true]
  intro h
  obtain ⟨mid, rest, hmid, hwidth⟩ := exists_middle rfl h (Nat.le_of_lt hlo)
  cases mid with
  | nil =>
    rw [width_nil] at hwidth
    omega
  | cons d mid =>
    obtain ⟨rfl, -⟩ := List.cons.inj hmid
    rw [width_cons] at hwidth
    omega

/-- What becomes of one character, byte by byte. -/
theorem bytes_char {before after : List Char} {c : Char} (h : w.Respects (before ++ c :: after)) :
    (List.range' (width before) c.utf8Size).flatMap (fun o =>
        bytes (w.put o) ++ if w.drops o then [] else (bytes (before ++ c :: after))[o]?.toList) =
      bytes (w.put (width before)) ++ if w.drops (width before) then [] else bytes [c] := by
  have hc := c.utf8Size_pos
  obtain ⟨n, hn⟩ : ∃ n, c.utf8Size = n + 1 := ⟨c.utf8Size - 1, by omega⟩
  have hkept : (List.range' (width before) c.utf8Size).flatMap
      (fun o => (bytes (before ++ c :: after))[o]?.toList) = bytes [c] := by
    have hsplit : bytes (before ++ c :: after) = bytes before ++ (bytes [c] ++ bytes after) := by
      rw [← bytes_append, ← bytes_append]
      rfl
    rw [flatMap_getElem?_toList, hsplit, List.drop_left' (length_bytes before), List.take_left']
    simp
  -- inside the character nothing is put, and its bytes are all left out or none is
  have hinside : (List.range' (width before + 1) n).flatMap (fun o =>
      bytes (w.put o) ++ if w.drops o then [] else (bytes (before ++ c :: after))[o]?.toList) =
      (List.range' (width before + 1) n).flatMap (fun o =>
        if w.drops (width before) then [] else (bytes (before ++ c :: after))[o]?.toList) := by
    refine List.flatMap_congr fun o ho => ?_
    obtain ⟨hlo, hhi⟩ := List.mem_range'_1.1 ho
    rw [h.put o (isBoundary_inside (by omega) (by omega)),
      h.drops before c after rfl o (by omega) (by omega)]
    rfl
  rw [hn, List.range'_succ, List.flatMap_cons, hinside]
  rw [hn, List.range'_succ, List.flatMap_cons] at hkept
  cases w.drops (width before) with
  | true => simp
  | false =>
    rw [← hkept]
    simp

/-- What becomes of a text, byte by byte. -/
theorem bytes_text {before cs : List Char} (h : w.Respects (before ++ cs)) :
    bytes (w.text (width before) cs) =
      (List.range' (width before) (width cs + 1)).flatMap fun o =>
        bytes (w.put o) ++ if w.drops o then [] else (bytes (before ++ cs))[o]?.toList := by
  induction cs generalizing before with
  | nil =>
    have hend : (bytes (before ++ []))[width before]? = none := by simp
    rw [width_nil, List.range'_one, List.flatMap_singleton, hend]
    simp [text]
  | cons c cs ih =>
    have hc := c.utf8Size_pos
    have hassoc : before ++ c :: cs = (before ++ [c]) ++ cs := by simp
    have hwidth : width (before ++ [c]) = width before + c.utf8Size := by simp
    have ih := @ih (before ++ [c]) (by rwa [← hassoc])
    rw [hwidth, ← hassoc] at ih
    have hsplit : List.range' (width before) (width (c :: cs) + 1) =
        List.range' (width before) c.utf8Size
          ++ List.range' (width before + c.utf8Size) (width cs + 1) := by
      rw [List.range'_append_1, width_cons, Nat.add_assoc]
    rw [hsplit, List.flatMap_append, ← ih, bytes_char h, text, bytes_append, bytes_append]
    cases w.drops (width before) <;> simp

end Weave

end Restyle
