import Restyle.Proofs.Text.Bytes
import Restyle.Text.Search

/-! Characters of one byte. A scan of the bytes of a text that only looks for such characters stops where
the scan of the characters does, for no byte of a wider character is one of theirs. -/

namespace Restyle.Text

variable {c d : Char} {cs : List Char} {b : UInt8} {p : Char → Bool}

/-- The byte of a character that has only one. -/
def byte (c : Char) : UInt8 := c.val.toUInt8

theorem toNat_lt_of_size (h : c.utf8Size = 1) : c.val.toNat < 128 := by
  rw [Char.utf8Size_eq_one_iff, UInt32.le_iff_toNat_le] at h
  exact Nat.lt_succ_of_le h

theorem toNat_byte (h : c.utf8Size = 1) : (byte c).toNat = c.val.toNat := by
  have := toNat_lt_of_size h
  rw [byte, UInt32.toNat_toUInt8]
  omega

/-- The bytes of a wider character all have the high bit. -/
theorem high_of_mem_utf8EncodeChar (h : c.utf8Size ≠ 1) (hb : b ∈ String.utf8EncodeChar c) :
    128 ≤ b.toNat := by
  have hlarge : ¬c.val.toNat ≤ 127 := by
    rwa [Ne, Char.utf8Size_eq_one_iff, UInt32.le_iff_toNat_le] at h
  rw [String.utf8EncodeChar] at hb
  simp only [if_neg hlarge] at hb
  split_ifs at hb <;> simp only [List.mem_cons, List.not_mem_nil, or_false] at hb
  all_goals
    rcases hb with rfl | rfl | rfl | rfl <;> rw [UInt8.toNat_ofNat'] <;> omega

theorem bytes_cons_of_size (h : c.utf8Size = 1) (cs : List Char) : bytes (c :: cs) = byte c :: bytes cs := by
  rw [bytes_cons, String.utf8EncodeChar_eq_singleton h, List.singleton_append, byte]

/-- A wider character begins with a byte with the high bit. -/
theorem exists_bytes_cons (h : c.utf8Size ≠ 1) (cs : List Char) :
    ∃ b bs, bytes (c :: cs) = b :: (bs ++ bytes cs) ∧ c.utf8Size = bs.length + 1 ∧ 128 ≤ b.toNat ∧
      ∀ b ∈ bs, 128 ≤ b.toNat := by
  have hhigh := fun b => high_of_mem_utf8EncodeChar (b := b) h
  have hlength := String.length_utf8EncodeChar c
  cases hencode : String.utf8EncodeChar c with
  | nil =>
    have := c.utf8Size_pos
    simp [hencode] at hlength
    omega
  | cons b bs =>
    rw [hencode] at hhigh hlength
    exact ⟨b, bs, by rw [bytes_cons, hencode]; rfl, by simpa using hlength.symm,
      hhigh b (List.mem_cons_self ..), fun b' hb' => hhigh b' (List.mem_cons_of_mem _ hb')⟩

/-- A property of characters of one byte, told from the byte. -/
def onByte (p : Char → Bool) (b : UInt8) : Bool := b.toNat < 128 && p (Char.ofNat b.toNat)

@[simp] theorem onByte_byte (h : c.utf8Size = 1) : onByte p (byte c) = p c := by
  have := toNat_lt_of_size h
  rw [onByte, toNat_byte h, decide_eq_true this, Bool.true_and]
  congr 1
  exact Char.ofNat_toNat c

theorem onByte_of_high (h : 128 ≤ b.toNat) : onByte p b = false := by
  rw [onByte, decide_eq_false (by omega), Bool.false_and]

theorem byte_inj (hc : c.utf8Size = 1) (hd : d.utf8Size = 1) : byte c = byte d ↔ c = d := by
  refine ⟨fun h => ?_, fun h => h ▸ rfl⟩
  have hval := congrArg UInt8.toNat h
  rw [toNat_byte hc, toNat_byte hd] at hval
  exact Char.ext (UInt32.toNat_inj.1 hval)

theorem ne_byte_of_high (hd : d.utf8Size = 1) (h : 128 ≤ b.toNat) : b ≠ byte d := by
  rintro rfl
  have := toNat_lt_of_size hd
  rw [toNat_byte hd] at h
  omega

/-- A character of one byte is found by its byte. -/
theorem head?_bytes (hd : d.utf8Size = 1) : (bytes cs).head? = some (byte d) ↔ cs.head? = some d := by
  cases cs with
  | nil => simp
  | cons c cs =>
    by_cases hc : c.utf8Size = 1
    · simp [bytes_cons_of_size hc, byte_inj hc hd]
    · obtain ⟨b, bs, hbytes, -, hhigh, -⟩ := exists_bytes_cons hc cs
      have hne : c ≠ d := fun h => hc (h ▸ hd)
      simp [hbytes, ne_byte_of_high hd hhigh, hne]

/-- The first byte of a text tells what it is to know of the first character, if that is of one byte. -/
theorem exists_head_bytes (c : Char) (cs : List Char) : ∃ b, (bytes (c :: cs)).head? = some b ∧
    (∀ d, d.utf8Size = 1 → (b = byte d ↔ c = d)) ∧
    ∀ p, (p c = true → c.utf8Size = 1) → onByte p b = p c := by
  by_cases hc : c.utf8Size = 1
  · refine ⟨byte c, by rw [bytes_cons_of_size hc]; rfl, fun d hd => byte_inj hc hd, fun p _ => ?_⟩
    exact onByte_byte hc
  · obtain ⟨b, bs, hbytes, -, hhigh, -⟩ := exists_bytes_cons hc cs
    refine ⟨b, by rw [hbytes]; rfl, fun d hd => ?_, fun p hp => ?_⟩
    · exact iff_of_false (ne_byte_of_high hd hhigh) fun h => hc (h ▸ hd)
    · rw [onByte_of_high hhigh, eq_false_of_ne_true (mt hp hc)]

/-- A character of one byte is found at the width of the text before it. -/
theorem findIdx?_bytes (hd : d.utf8Size = 1) (cs : List Char) :
    (bytes cs).findIdx? (· == byte d)
      = if d ∈ cs then some (width (cs.takeWhile (· ≠ d))) else none := by
  induction cs with
  | nil => rfl
  | cons c cs ih =>
    by_cases hc : c = d
    · subst hc
      simp [bytes_cons_of_size hd, List.findIdx?_cons]
    · have hbytes : (bytes (c :: cs)).findIdx? (· == byte d)
          = ((bytes cs).findIdx? (· == byte d)).map (· + c.utf8Size) := by
        have hnot : ∀ b ∈ String.utf8EncodeChar c, (b == byte d) = false := by
          intro b hb
          rw [beq_eq_false_iff_ne]
          by_cases hsize : c.utf8Size = 1
          · rw [String.utf8EncodeChar_eq_singleton hsize, List.mem_singleton] at hb
            rw [hb]
            exact mt (byte_inj hsize hd).1 hc
          · exact ne_byte_of_high hd (high_of_mem_utf8EncodeChar hsize hb)
        rw [bytes_cons, List.findIdx?_append, List.findIdx?_eq_none_iff.2 hnot, Option.none_or,
          String.length_utf8EncodeChar]
      rw [hbytes, ih]
      by_cases hmem : d ∈ cs <;> simp [hmem, hc, Ne.symm hc, Nat.add_comm]

/-! ### Scans -/

/-- The number of bytes before the first one that the test, which may look at the next byte too, stops
at. -/
def scan (stop : UInt8 → Option UInt8 → Bool) : List UInt8 → Nat
  | [] => 0
  | b :: bs => if stop b bs.head? then 0 else scan stop bs + 1

variable {stop : UInt8 → Option UInt8 → Bool}

theorem scan_append_of_not_stop {bs : List UInt8} (h : ∀ b ∈ bs, ∀ next, stop b next = false)
    (rest : List UInt8) : scan stop (bs ++ rest) = bs.length + scan stop rest := by
  induction bs with
  | nil => simp
  | cons b bs ih =>
    obtain ⟨hb, hbs⟩ := List.forall_mem_cons.1 h
    rw [List.cons_append, scan, hb, if_neg (by simp), ih hbs, List.length_cons]
    omega

/-- A scan of the bytes stops where the scan of the characters does, if it tells the characters of one
byte from their bytes and treats all other bytes alike. -/
theorem scan_bytes (test : List Char → Bool) (high : Bool) (hhigh : ∀ b next, 128 ≤ b.toNat → stop b next = high)
    (hwide : ∀ c cs, c.utf8Size ≠ 1 → test (c :: cs) = high)
    (hone : ∀ c cs, c.utf8Size = 1 → stop (byte c) (bytes cs).head? = test (c :: cs)) (cs : List Char) :
    scan stop (bytes cs) = width (breakWhere test cs).1 := by
  induction cs with
  | nil => rfl
  | cons c cs ih =>
    rw [breakWhere]
    by_cases hc : c.utf8Size = 1
    · rw [bytes_cons_of_size hc, scan, hone c cs hc, ih]
      split
      · rfl
      · simp [hc, Nat.add_comm]
    · obtain ⟨b, bs, hbytes, hsize, hb, hbs⟩ := exists_bytes_cons hc cs
      rw [hwide c cs hc]
      cases high with
      | true => simp [hbytes, scan, hhigh b _ hb]
      | false =>
        have hnot : ∀ b' ∈ b :: bs, ∀ next, stop b' next = false := by
          intro b' hb' next
          rcases List.mem_cons.1 hb' with rfl | hb'
          · exact hhigh b' next hb
          · exact hhigh b' next (hbs b' hb')
        rw [hbytes, ← List.cons_append, scan_append_of_not_stop hnot, ih]
        simp [hsize]

/-- Reading while a test holds is reading up to where it fails. -/
theorem breakWhere_any_not (p : Char → Bool) (cs : List Char) :
    breakWhere (fun cs => cs.head?.any (!p ·)) cs = (cs.takeWhile p, cs.dropWhile p) := by
  induction cs with
  | nil => rfl
  | cons c cs ih => cases hc : p c <;> simp [breakWhere, hc, ih]

/-- A scan while a test holds that only characters of one byte pass. -/
theorem scan_while (hp : ∀ c, p c = true → c.utf8Size = 1) (cs : List Char) :
    scan (fun b _ => !onByte p b) (bytes cs) = width (cs.takeWhile p) := by
  rw [scan_bytes (fun cs => cs.head?.any (!p ·)) true, breakWhere_any_not]
  · intro b _ hb
    rw [onByte_of_high hb, Bool.not_false]
  · intro c cs hc
    have hnot : p c = false := eq_false_of_ne_true fun htrue => hc (hp c htrue)
    simp [hnot]
  · intro c cs hc
    simp [onByte_byte hc]

/-- A scan up to a character of one byte. -/
theorem scan_to (hd : d.utf8Size = 1) (cs : List Char) :
    scan (fun b _ => b == byte d) (bytes cs) = width (cs.takeWhile (· ≠ d)) := by
  rw [scan_bytes (fun cs => cs.head?.any fun c => !decide (c ≠ d)) false, breakWhere_any_not]
  · intro b _ hb
    exact beq_eq_false_iff_ne.2 (ne_byte_of_high hd hb)
  · intro c cs hc
    have hne : c ≠ d := fun he => hc (he ▸ hd)
    simp [hne]
  · intro c cs hc
    rw [Bool.eq_iff_iff]
    simp [byte_inj hc hd]

end Restyle.Text
