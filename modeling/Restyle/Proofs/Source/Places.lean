import Mathlib.Tactic.Common
import Restyle.Proofs.Source.Rows
import Restyle.Proofs.Source.Slices
import Restyle.Source.File

/-! Places told from the bytes before them: the line feeds among these, and the bytes behind the last one.
The table of line starts finds these places, later offsets have later places, and no two offsets have one
location. -/

namespace Restyle

open Text

namespace Place

/-- The place behind some bytes. -/
def behind (bs : List UInt8) : Place := ⟨bs.count 10, (bs.reverse.takeWhile (· ≠ 10)).length⟩

variable {bs more : List UInt8}

theorem behind_line_feed (bs : List UInt8) : behind (bs ++ [10]) = ⟨(behind bs).line + 1, 0⟩ := by
  simp [behind]

/-- Bytes without a line feed go on in the line. -/
theorem behind_append (bs : List UInt8) (h : 10 ∉ more) :
    behind (bs ++ more) = ⟨(behind bs).line, (behind bs).column + more.length⟩ := by
  have hmore : ∀ x ∈ more.reverse, (fun x : UInt8 => decide (x ≠ 10)) x = true := by
    intro x hx
    simp only [ne_eq, decide_eq_true_eq]
    rintro rfl
    exact h (List.mem_reverse.1 hx)
  simp only [behind, List.count_append, List.count_eq_zero_of_not_mem h, List.reverse_append,
    List.takeWhile_append_of_pos hmore, List.length_append, List.length_reverse, Place.mk.injEq]
  omega

/-- A text that goes on without a line feed between two of its offsets. -/
theorem behind_append_take (before : List UInt8) {d i : Nat} (hd : d ≤ i) (hi : i ≤ bs.length)
    (h : 10 ∉ (bs.take i).drop d) :
    behind (before ++ bs.take i) =
      ⟨(behind (before ++ bs.take d)).line, (behind (before ++ bs.take d)).column + (i - d)⟩ := by
  have hsplit : before ++ bs.take i = (before ++ bs.take d) ++ (bs.take i).drop d := by
    have htake : (bs.take i).take d = bs.take d := by rw [List.take_take, Nat.min_eq_left hd]
    rw [List.append_assoc, ← htake, List.take_append_drop]
  rw [hsplit, behind_append _ h, List.length_drop, List.length_take, Nat.min_eq_left hi]

/-- The column counts the bytes since the last line feed. -/
theorem line_feed_not_mem_drop {d : Nat} (h : (behind bs).column = bs.length - d) : 10 ∉ bs.drop d := by
  have htail : (bs.drop d).reverse = bs.reverse.takeWhile (· ≠ 10) := by
    rw [List.reverse_drop, ← h]
    exact (List.prefix_iff_eq_take.1 (List.takeWhile_prefix _)).symm
  rw [← List.mem_reverse, htail]
  intro hmem
  simpa using List.mem_takeWhile_imp hmem

/-- The order of places: by lines, and in a line by columns. -/
def Before (a b : Place) : Prop := a.line < b.line ∨ a.line = b.line ∧ a.column < b.column

theorem Before.asymm {a b : Place} (h : a.Before b) : ¬ b.Before a := by
  unfold Before at *
  omega

/-- A place behind more bytes comes later. -/
theorem before_behind_append (bs : List UInt8) (hmore : more ≠ []) :
    (behind bs).Before (behind (bs ++ more)) := by
  by_cases h : 10 ∈ more
  · have hcount := List.count_pos_iff.2 h
    simp only [Before, behind, List.count_append]
    omega
  · have hlength := List.length_pos_iff.2 hmore
    rw [behind_append bs h]
    exact .inr ⟨rfl, Nat.lt_add_of_pos_right hlength⟩

end Place

/-! ### The table of line starts -/

namespace Text

/-- Only a line feed has its byte. -/
theorem line_feed_not_mem {c : Char} (h : c ≠ '\n') : 10 ∉ String.utf8EncodeChar c := by
  have hc : c.val.toNat ≠ 10 := fun hval => h (Char.ext (UInt32.toNat_inj.1 hval))
  have hne : ∀ n, n < 256 → n ≠ 10 → (10 : UInt8) ≠ UInt8.ofNat n := by
    intro n hn hten heq
    have := congrArg UInt8.toNat heq
    rw [UInt8.toNat_ofNat', Nat.mod_eq_of_lt hn] at this
    exact hten this.symm
  unfold String.utf8EncodeChar
  dsimp only
  split
  · simp only [List.mem_cons, List.not_mem_nil, or_false]
    exact hne _ (by omega) hc
  · split
    · simp only [List.mem_cons, List.not_mem_nil, or_false, not_or]
      exact ⟨hne _ (by omega) (by omega), hne _ (by omega) (by omega)⟩
    · split
      · simp only [List.mem_cons, List.not_mem_nil, or_false, not_or]
        exact ⟨hne _ (by omega) (by omega), hne _ (by omega) (by omega), hne _ (by omega) (by omega)⟩
      · simp only [List.mem_cons, List.not_mem_nil, or_false, not_or]
        exact ⟨hne _ (by omega) (by omega), hne _ (by omega) (by omega), hne _ (by omega) (by omega),
          hne _ (by omega) (by omega)⟩

end Text

namespace LineTable

variable {cs : List Char} {offset k : Nat}

/-- Lines start behind the beginning of the text, at boundaries of it. -/
theorem of_mem_breaks {b : Nat} (h : b ∈ breaks offset cs) :
    ∃ mid rest, cs = mid ++ rest ∧ mid ≠ [] ∧ b = offset + width mid := by
  induction cs generalizing offset with
  | nil => cases h
  | cons c cs ih =>
    have later : b ∈ breaks (offset + c.utf8Size) cs →
        ∃ mid rest, c :: cs = mid ++ rest ∧ mid ≠ [] ∧ b = offset + width mid := by
      intro hb
      obtain ⟨mid, rest, rfl, -, rfl⟩ := ih hb
      exact ⟨c :: mid, rest, rfl, by simp, by rw [width_cons, Nat.add_assoc]⟩
    rw [breaks] at h
    split at h
    · rcases List.mem_cons.1 h with rfl | hb
      · exact ⟨[c], cs, rfl, by simp, by simp⟩
      · exact later hb
    · exact later h

theorem lt_of_mem_breaks {b : Nat} (h : b ∈ breaks offset cs) : offset < b := by
  obtain ⟨mid, rest, -, hmid, rfl⟩ := of_mem_breaks h
  have := length_le_width mid
  have := List.length_pos_iff.2 hmid
  omega

theorem pairwise_breaks (offset : Nat) (cs : List Char) : (breaks offset cs).Pairwise (· < ·) := by
  induction cs generalizing offset with
  | nil => exact List.Pairwise.nil
  | cons c cs ih =>
    rw [breaks]
    split
    · exact List.pairwise_cons.2 ⟨fun b hb => lt_of_mem_breaks hb, ih _⟩
    · exact ih _

theorem takeWhile_breaks_of_lt {c : Char} (h : k < c.utf8Size) :
    (breaks offset (c :: cs)).takeWhile (· ≤ offset + k) = [] := by
  have hlater : ∀ b ∈ breaks (offset + c.utf8Size) cs, ¬ b ≤ offset + k := by
    intro b hb
    have := lt_of_mem_breaks hb
    omega
  have hall : ∀ b ∈ breaks offset (c :: cs), ¬ b ≤ offset + k := by
    intro b hb
    rw [breaks] at hb
    split at hb
    · rcases List.mem_cons.1 hb with rfl | hb
      · omega
      · exact hlater b hb
    · exact hlater b hb
  refine List.takeWhile_eq_nil_iff.2 fun hpos => ?_
  simpa using hall _ (List.getElem_mem hpos)

/-- The line starts up to an offset give its place, if `before` is what stands in front of the text and
the line there starts at `start`. -/
theorem behind_of_breaks {before : List UInt8} {start n : Nat} (hstart : start ≤ offset)
    (hbefore : Place.behind before = ⟨n, offset - start⟩) (hk : k ≤ width cs) :
    Place.behind (before ++ (bytes cs).take k) =
      ⟨n + ((breaks offset cs).takeWhile (· ≤ offset + k)).length,
        offset + k - ((breaks offset cs).takeWhile (· ≤ offset + k)).getLast?.getD start⟩ := by
  induction cs generalizing offset before start n k with
  | nil =>
    obtain rfl : k = 0 := Nat.le_zero.1 hk
    simpa [breaks] using hbefore
  | cons c cs ih =>
    rcases Nat.lt_or_ge k c.utf8Size with hlt | hge
    · -- the offset is inside the first character, which then is no line feed, or in front of it
      have hlength : k ≤ (String.utf8EncodeChar c).length := by
        rw [String.length_utf8EncodeChar]
        omega
      have hnot : 10 ∉ (String.utf8EncodeChar c).take k := by
        by_cases hc : c = '\n'
        · have hone : c.utf8Size = 1 := by rw [hc]; decide
          obtain rfl : k = 0 := by omega
          simp
        · exact fun hmem => line_feed_not_mem hc (List.mem_of_mem_take hmem)
      rw [takeWhile_breaks_of_lt hlt, bytes_cons, List.take_append_of_le_length hlength,
        Place.behind_append before hnot, hbefore, List.length_take, Nat.min_eq_left hlength]
      simp only [List.length_nil, List.getLast?_nil, Option.getD_none, Place.mk.injEq]
      omega
    · have htake : (bytes (c :: cs)).take k = String.utf8EncodeChar c ++ (bytes cs).take (k - c.utf8Size) := by
        rw [bytes_cons, List.take_append, String.length_utf8EncodeChar, List.take_of_length_le]
        rw [String.length_utf8EncodeChar]
        exact hge
      have hk' : k - c.utf8Size ≤ width cs := by
        rw [width_cons] at hk
        omega
      have hoffset : offset + k = offset + c.utf8Size + (k - c.utf8Size) := by omega
      rw [htake, ← List.append_assoc, breaks]
      split
      · next hc =>
        have hencode : String.utf8EncodeChar c = [10] := by rw [hc]; decide
        have hfirst : offset + c.utf8Size ≤ offset + k := by omega
        have ih := @ih (offset + c.utf8Size) (k - c.utf8Size) (before ++ [10]) (offset + c.utf8Size) (n + 1)
          (Nat.le_refl _) (by rw [Place.behind_line_feed, hbefore, Nat.sub_self]) hk'
        rw [List.takeWhile_cons_of_pos (by simpa using hge), hencode, hoffset, ih, List.length_cons,
          List.getLast?_cons]
        simp only [Option.getD_some, Place.mk.injEq, and_true]
        omega
      · next hc =>
        have hnext : Place.behind (before ++ String.utf8EncodeChar c) = ⟨n, offset + c.utf8Size - start⟩ := by
          rw [Place.behind_append _ (line_feed_not_mem hc), hbefore, String.length_utf8EncodeChar]
          simp only [Place.mk.injEq, true_and]
          omega
        rw [hoffset, ih (Nat.le_add_right_of_le hstart) hnext hk']

/-- The line starts up to an offset of a text give its place. -/
theorem behind_take (h : k ≤ width cs) :
    Place.behind ((bytes cs).take k) = ⟨((breaks 0 cs).takeWhile (· ≤ k)).length,
      k - ((breaks 0 cs).takeWhile (· ≤ k)).getLast?.getD 0⟩ := by
  have hbehind := @behind_of_breaks cs 0 k [] 0 0 (Nat.le_refl 0) rfl h
  rwa [List.nil_append, Nat.zero_add, Nat.zero_add] at hbehind

variable {text : String} {o o' : Nat}

theorem ascending_starts (text : String) : Row.Ascending id (ofText text).starts :=
  List.pairwise_cons.2 ⟨fun _ hb => lt_of_mem_breaks hb, pairwise_breaks 0 text.toList⟩

/-- Halving finds the last line that starts at or before an offset. -/
theorem lineOf_ofText (text : String) (o : Nat) :
    (ofText text).lineOf o = ((breaks 0 text.toList).takeWhile (· ≤ o)).length ∧
      (ofText text).lineStart? ((breaks 0 text.toList).takeWhile (· ≤ o)).length =
        some (((breaks 0 text.toList).takeWhile (· ≤ o)).getLast?.getD 0) := by
  have hsplit : (ofText text).starts = (0 :: (breaks 0 text.toList).takeWhile (· ≤ o))
      ++ (breaks 0 text.toList).dropWhile (· ≤ o) := by
    rw [List.cons_append, List.takeWhile_append_dropWhile]
    rfl
  have hascending := ascending_starts text
  have hup : ∀ b ∈ 0 :: (breaks 0 text.toList).takeWhile (· ≤ o), b ≤ o := by
    intro b hb
    rcases List.mem_cons.1 hb with rfl | hb
    · exact Nat.zero_le o
    · simpa using List.mem_takeWhile_imp hb
  have hbreaks : Row.Ascending id (breaks 0 text.toList) := pairwise_breaks 0 text.toList
  have hlater : ∀ b ∈ (breaks 0 text.toList).dropWhile (· ≤ o), o < b := fun b hb =>
    hbreaks.lt_of_mem_dropWhile hb
  constructor
  · rw [hsplit] at hascending
    rw [lineOf, hsplit, Row.last?_append hascending (by simp) hup hlater]
    rfl
  · rw [lineStart?, hsplit, List.getElem?_append_left (by simp), ← List.getLast?_cons, List.getLast?_eq_getElem?]
    rfl

/-- The place of an offset is the one behind the bytes before it. -/
theorem place?_ofText (text : String) (o : Nat) :
    (ofText text).place? o =
      if o ≤ width text.toList then some (Place.behind ((bytes text.toList).take o)) else none := by
  obtain ⟨hline, hstart⟩ := lineOf_ofText text o
  unfold place?
  rw [hline]
  by_cases h : o ≤ width text.toList
  · have hlength : o ≤ (ofText text).length := h
    rw [if_pos h, if_pos hlength, behind_take h]
    simp [hstart]
  · rw [if_neg h]
    exact if_neg h

theorem place?_of_le (h : o ≤ width text.toList) :
    (ofText text).place? o = some (Place.behind ((bytes text.toList).take o)) := by
  rw [place?_ofText, if_pos h]

/-- Later offsets have later places. -/
theorem before_of_lt {p p' : Place} (h : (ofText text).place? o = some p)
    (h' : (ofText text).place? o' = some p') (hlt : o < o') : p.Before p' := by
  rw [place?_ofText, Option.ite_none_right_eq_some] at h h'
  obtain ⟨hle, hp⟩ := h
  obtain ⟨hle', hp'⟩ := h'
  have hsplit : (bytes text.toList).take o' =
      (bytes text.toList).take o ++ ((bytes text.toList).drop o).take (o' - o) := by
    rw [← List.take_add]
    congr 1
    omega
  cases hp
  cases hp'
  rw [hsplit]
  refine Place.before_behind_append _ fun hnil => ?_
  have := congrArg List.length hnil
  simp only [List.length_take, List.length_drop, length_bytes, List.length_nil] at this
  omega

/-- Places are in the order of their offsets. -/
theorem before_iff_lt {p p' : Place} (h : (ofText text).place? o = some p) (h' : (ofText text).place? o' = some p') :
    p.Before p' ↔ o < o' := by
  refine ⟨fun hbefore => ?_, before_of_lt h h'⟩
  rcases Nat.lt_trichotomy o o' with hlt | rfl | hgt
  · exact hlt
  · obtain rfl := Option.some.inj (h.symm.trans h')
    exact absurd hbefore hbefore.asymm
  · exact absurd (before_of_lt h' h hgt) hbefore.asymm

/-! ### Locations -/

theorem isBoundary_of_mem_starts {b : Nat} (h : b ∈ (ofText text).starts) :
    isBoundary text.toList b = true := by
  rcases List.mem_cons.1 h with rfl | hb
  · exact isBoundary_zero _
  · obtain ⟨mid, rest, hcs, -, rfl⟩ := of_mem_breaks hb
    rw [hcs, Nat.zero_add]
    exact isBoundary_width_append ..

/-- The line of a place starts its column before it. -/
theorem lineStart?_of_place? {p : Place} (h : (ofText text).place? o = some p) :
    ∃ start, (ofText text).lineStart? p.line = some start ∧ o = start + p.column := by
  obtain ⟨hline, hstart⟩ := lineOf_ofText text o
  have hup : ∀ b ∈ ((breaks 0 text.toList).takeWhile (· ≤ o)).getLast?, b ≤ o := fun b hb => by
    simpa using List.mem_takeWhile_imp (List.mem_of_getLast? hb)
  have hle : ((breaks 0 text.toList).takeWhile (· ≤ o)).getLast?.getD 0 ≤ o := by
    cases hlast : ((breaks 0 text.toList).takeWhile (· ≤ o)).getLast? with
    | none => exact Nat.zero_le o
    | some b => exact hup b hlast
  unfold place? at h
  rw [Option.ite_none_right_eq_some, hline] at h
  obtain ⟨-, h⟩ := h
  simp only [hstart, Option.bind_eq_bind, Option.bind_some, Option.some.injEq] at h
  obtain rfl := h
  exact ⟨_, hstart, (Nat.add_sub_cancel' hle).symm⟩

/-- A place gives its offset back. -/
theorem offset?_of_place? {p : Place} (h : (ofText text).place? o = some p) : (ofText text).offset? p = some o := by
  obtain ⟨start, hstart, rfl⟩ := lineStart?_of_place? h
  rw [offset?, hstart]
  rfl

/-- Boundaries have a location. -/
theorem exists_location16? (h : isBoundary text.toList o = true) :
    ∃ l, (ofText text).location16? text o = some l := by
  have hplace := place?_of_le (le_width_of_isBoundary h)
  obtain ⟨start, hstart, ho⟩ := lineStart?_of_place? hplace
  have hle : start ≤ o := ho ▸ Nat.le_add_right ..
  have hmem : start ∈ (ofText text).starts := List.mem_of_getElem? hstart
  obtain ⟨line, hline⟩ := exists_slice? (isBoundary_of_mem_starts hmem) h hle
  refine ⟨⟨(Place.behind ((bytes text.toList).take o)).line + 1, width16 line⟩, ?_⟩
  simp [location16?, hplace, hstart, hline]

theorem width16_append (a b : List Char) : width16 (a ++ b) = width16 a + width16 b := by
  induction a with
  | nil => simp [width16]
  | cons c a ih => rw [List.cons_append, width16, width16, ih, Nat.add_assoc]

theorem width16_pos {cs : List Char} (h : cs ≠ []) : 0 < width16 cs := by
  obtain ⟨c, cs, rfl⟩ := List.exists_cons_of_ne_nil h
  rw [width16, units16]
  split <;> omega

/-- Of two texts that stand at one place and have the same number of units, neither is longer. -/
theorem eq_of_stands {start : Nat} {cs line line' : List Char} (h : Stands cs start line)
    (h' : Stands cs start line') (hwidth : width16 line = width16 line') : line = line' := by
  obtain ⟨before, after, rfl, rfl⟩ := h
  obtain ⟨before', after', hcs, hbefore⟩ := h'
  obtain ⟨-, hrest⟩ := append_inj_of_width hcs hbefore.symm
  have hnil : ∀ more : List Char, width16 more = 0 → more = [] := by
    intro more hmore
    by_contra hne
    have := width16_pos hne
    omega
  rcases List.append_eq_append_iff.1 hrest with ⟨more, rfl, -⟩ | ⟨more, rfl, -⟩
  · rw [width16_append] at hwidth
    rw [hnil more (by omega), List.append_nil]
  · rw [width16_append] at hwidth
    rw [hnil more (by omega), List.append_nil]

/-- No two offsets have the same location. -/
theorem eq_of_location16? {l : Location} (h : (ofText text).location16? text o = some l)
    (h' : (ofText text).location16? text o' = some l) : o = o' := by
  have parts : ∀ {q : Nat}, (ofText text).location16? text q = some l → ∃ start line,
      (ofText text).lineStart? (l.line - 1) = some start ∧ Stands text.toList start line
        ∧ q = start + width line ∧ l.column = width16 line := by
    intro q hq
    simp only [location16?, Option.bind_eq_bind, Option.bind_eq_some_iff] at hq
    obtain ⟨place, -, start, hstart, line, hline, hl⟩ := hq
    obtain ⟨hstands, hstop⟩ := slice?_eq_some_iff.1 hline
    cases hl
    exact ⟨start, line, hstart, hstands, hstop, rfl⟩
  obtain ⟨start, line, hstart, hstands, rfl, hcolumn⟩ := parts h
  obtain ⟨start', line', hstart', hstands', rfl, hcolumn'⟩ := parts h'
  rw [hstart] at hstart'
  cases hstart'
  rw [eq_of_stands hstands hstands' (hcolumn.symm.trans hcolumn')]

end LineTable

/-- Boundaries at one location are one. -/
theorem SourceFile.location_injOn (f : SourceFile) {o o' : Nat} (h : isBoundary f.text.toList o = true)
    (h' : isBoundary f.text.toList o' = true) (heq : f.location o = f.location o') : o = o' := by
  obtain ⟨l, hl⟩ := LineTable.exists_location16? h
  obtain ⟨l', hl'⟩ := LineTable.exists_location16? h'
  rw [location, location, hl, hl'] at heq
  cases heq
  exact LineTable.eq_of_location16? hl hl'

end Restyle
