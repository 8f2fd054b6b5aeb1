import Mathlib.Algebra.Group.Nat.Defs
import Restyle.Proofs.Source.Places
import Restyle.Proofs.Text.Search

/-! What the table of line starts tells of each offset of a text: how many lines end before it and how far it is from
the last of these ends, in bytes or, between two characters, in UTF-16 units. The main statement is that places grow
with the offsets and give them back, and that locations, kept to 32 bits, tell any two offsets apart. -/

namespace Restyle

open Text

namespace Text

/-- No character takes more units than bytes. -/
theorem width16_le_width (cs : List Char) : width16 cs ≤ width cs := by
  induction cs with
  | nil => exact Nat.le_refl _
  | cons c cs ih =>
    have hunits : units16 c ≤ c.utf8Size := by
      unfold units16 Char.utf8Size
      simp only [UInt32.le_iff_toNat_le, UInt32.lt_iff_toNat_lt, UInt32.toNat_ofNatLT, UInt32.reduceToNat]
      split_ifs <;> omega
    exact Nat.add_le_add hunits ih

end Text

/-! ### The last line of a row -/

/-- A row is cut behind its last separator. -/
structure LastLine {α : Type} (sep : α) (row before line : List α) : Prop where
  eq : row = before ++ line
  ends : before = [] ∨ before.getLast? = some sep
  plain : sep ∉ line

namespace LastLine

theorem exists_of {α : Type} (sep : α) (row : List α) : ∃ before line, LastLine sep row before line := by
  by_cases h : sep ∈ row
  · obtain ⟨inside, line, rfl, hline⟩ := exists_last_of_mem h
    exact ⟨inside ++ [sep], line, by simp, .inr (by simp), hline⟩
  · exact ⟨[], row, rfl, .inl rfl, h⟩

theorem count {α : Type} [BEq α] [LawfulBEq α] {sep : α} {row before line : List α} (h : LastLine sep row before line) :
    row.count sep = before.count sep := by
  rw [h.eq, List.count_append, List.count_eq_zero_of_not_mem h.plain, Nat.add_zero]

/-- The place behind some bytes is in their last line. -/
theorem behind {bs before line : List UInt8} (h : LastLine 10 bs before line) :
    Place.behind bs = ⟨bs.count 10, line.length⟩ := by
  have hbefore : Place.behind before = ⟨before.count 10, 0⟩ := by
    rcases h.ends with rfl | hlast
    · rfl
    · obtain ⟨init, rfl⟩ := List.getLast?_eq_some_iff.1 hlast
      simp [Place.behind]
  rw [h.count, h.eq, Place.behind_append before h.plain, hbefore, Nat.zero_add]

end LastLine

namespace Text

/-- A line feed is one byte, and no other character has that. -/
theorem count_bytes (cs : List Char) : (bytes cs).count 10 = cs.count '\n' := by
  induction cs with
  | nil => rfl
  | cons c cs ih =>
    rw [bytes_cons, List.count_append, ih, List.count_cons]
    by_cases hc : c = '\n'
    · have hone : (String.utf8EncodeChar c).count 10 = 1 := by rw [hc]; decide
      rw [hone, if_pos (by simpa using hc), Nat.add_comm]
    · rw [List.count_eq_zero_of_not_mem (line_feed_not_mem hc), if_neg (by simpa using hc), Nat.zero_add, Nat.add_zero]

end Text

/-- The last line of a text in its bytes. -/
theorem LastLine.bytes {cs before line : List Char} (h : LastLine '\n' cs before line) :
    LastLine 10 (bytes cs) (bytes before) (bytes line) where
  eq := by rw [h.eq, bytes_append]
  ends := by
    refine h.ends.imp (fun hnil => by rw [hnil]; rfl) fun hlast => ?_
    obtain ⟨init, rfl⟩ := List.getLast?_eq_some_iff.1 hlast
    have hfeed : Text.bytes ['\n'] = [10] := by decide
    rw [bytes_append, hfeed, List.getLast?_concat]
  plain := by
    rw [← List.count_eq_zero, count_bytes, List.count_eq_zero]
    exact h.plain

/-! ### Places and locations -/

namespace LineTable

variable {text : String} {o : Nat}

theorem width_le_of_eq_append {cs a b : List Char} (h : cs = a ++ b) : width a ≤ width cs := by
  rw [h, width_append]
  exact Nat.le_add_right ..

/-- Between two characters the place is in the last line of the text before. -/
theorem place?_of_lastLine {a b before line : List Char} (htext : text.toList = a ++ b)
    (h : LastLine '\n' a before line) :
    (ofText text).place? (width a) = some ⟨a.count '\n', width line⟩ ∧
      (ofText text).lineStart? (a.count '\n') = some (width before) := by
  have hbehind := h.bytes.behind
  have htake : (bytes text.toList).take (width a) = bytes a := by
    rw [htext, bytes_append, ← length_bytes, List.take_left]
  have hplace : (ofText text).place? (width a) = some ⟨a.count '\n', width line⟩ := by
    rw [place?_of_le (width_le_of_eq_append htext), htake, hbehind, count_bytes, length_bytes]
  refine ⟨hplace, ?_⟩
  obtain ⟨start, hstart, ho⟩ := lineStart?_of_place? hplace
  have hbefore : width before = start := by
    rw [h.eq, width_append] at ho
    exact Nat.add_right_cancel ho
  rw [hbefore]
  exact hstart

/-- Between two characters the location counts the units of the last line. -/
theorem location16?_of_lastLine {a b before line : List Char} (htext : text.toList = a ++ b)
    (h : LastLine '\n' a before line) :
    (ofText text).location16? text (width a) = some ⟨a.count '\n' + 1, width16 line⟩ := by
  obtain ⟨hplace, hstart⟩ := place?_of_lastLine htext h
  have hline : slice? text.toList (width before) (width a) = some line := by
    refine slice?_eq_some_iff.2 ⟨⟨before, b, ?_, rfl⟩, ?_⟩
    · rw [htext, h.eq, List.append_assoc]
    · rw [h.eq, width_append]
  simp [location16?, hplace, hstart, hline]

/-- Just the offsets between two characters have a location. -/
theorem exists_location16?_iff :
    (∃ l, (ofText text).location16? text o = some l) ↔ isBoundary text.toList o = true := by
  refine ⟨fun ⟨l, hl⟩ => ?_, exists_location16?⟩
  simp only [location16?, Option.bind_eq_bind, Option.bind_eq_some_iff] at hl
  obtain ⟨place, -, start, -, line, hline, -⟩ := hl
  obtain ⟨⟨before, after, hcs, rfl⟩, rfl⟩ := slice?_eq_some_iff.1 hline
  rw [hcs, ← List.append_assoc, ← width_append]
  exact isBoundary_width_append ..

theorem exists_lastLine_of_location16? {l : Location} (h : (ofText text).location16? text o = some l) :
    ∃ before line after, text.toList = before ++ line ++ after ∧ o = width (before ++ line) ∧
      LastLine '\n' (before ++ line) before line ∧ l = ⟨(before ++ line).count '\n' + 1, width16 line⟩ := by
  obtain ⟨a, b, hcs, rfl⟩ := isBoundary_iff.1 (exists_location16?_iff.1 ⟨l, h⟩)
  obtain ⟨before, line, hlast⟩ := LastLine.exists_of '\n' a
  rw [location16?_of_lastLine hcs hlast] at h
  obtain rfl := hlast.eq
  exact ⟨before, line, b, hcs, rfl, hlast, (Option.some.inj h).symm⟩

theorem exists_lastLine_of_place? {p : Place} (h : (ofText text).place? o = some p) :
    o ≤ width text.toList ∧ ∃ before line, LastLine 10 ((bytes text.toList).take o) before line ∧
      p = ⟨((bytes text.toList).take o).count 10, line.length⟩ := by
  rw [place?_ofText, Option.ite_none_right_eq_some] at h
  obtain ⟨hle, h⟩ := h
  obtain ⟨before, line, hlast⟩ := LastLine.exists_of 10 ((bytes text.toList).take o)
  rw [hlast.behind] at h
  exact ⟨hle, before, line, hlast, (Option.some.inj h).symm⟩

/-- There are not more lines before an offset, and not more bytes in its line, than bytes before it. -/
theorem line_add_column_le {p : Place} (h : (ofText text).place? o = some p) : p.line + p.column ≤ o := by
  obtain ⟨-, before, line, hlast, rfl⟩ := exists_lastLine_of_place? h
  have hcount : before.count 10 ≤ before.length := List.count_le_length
  have hlength := congrArg List.length hlast.eq
  rw [List.length_append, List.length_take] at hlength
  dsimp only
  rw [hlast.count]
  omega

/-- The numbers of a location are not much greater than its offset. -/
theorem line_add_column_le16 {l : Location} (h : (ofText text).location16? text o = some l) :
    0 < l.line ∧ l.line + l.column ≤ o + 1 := by
  obtain ⟨before, line, after, htext, rfl, hlast, rfl⟩ := exists_lastLine_of_location16? h
  have hplace := line_add_column_le (place?_of_lastLine htext hlast).1
  have hunits := width16_le_width line
  dsimp only at *
  omega

/-- What is told of the offsets of a text by a table of its lines. -/
structure Tells (t : LineTable) (text : String) : Prop where
  /-- Just the offsets up to the length have a place. -/
  placed (o : Nat) : (∃ p, t.place? o = some p) ↔ o ≤ width text.toList
  /-- The place counts the line feeds before the offset, and the bytes behind the last of them. -/
  place (o : Nat) (p : Place) : t.place? o = some p → ∃ before line,
    LastLine 10 ((bytes text.toList).take o) before line ∧ p = ⟨((bytes text.toList).take o).count 10, line.length⟩
  /-- Lines and columns are numbers of 32 bits. -/
  fits (o : Nat) (p : Place) : t.place? o = some p → p.line < 2 ^ 32 ∧ p.column < 2 ^ 32
  /-- The places are in the order of the offsets. -/
  ordered (o o' : Nat) (p p' : Place) : t.place? o = some p → t.place? o' = some p' → (o < o' ↔ p.Before p')
  /-- A place gives the offset back. -/
  back (o : Nat) (p : Place) : t.place? o = some p → t.offset? p = some o
  /-- Just the offsets up to the length that are not inside a character have a location. -/
  located (o : Nat) : (∃ l, t.location16? text o = some l) ↔
    o ≤ width text.toList ∧ isBoundary text.toList o = true
  /-- The location counts the line feeds before the offset, and the UTF-16 units from the start of the line on. -/
  location (o : Nat) (l : Location) : t.location16? text o = some l → ∃ before line after,
    text.toList = before ++ line ++ after ∧ o = width (before ++ line) ∧
      LastLine '\n' (before ++ line) before line ∧ t.lineStart? ((before ++ line).count '\n') = some (width before) ∧
      l = ⟨(before ++ line).count '\n' + 1, width16 line⟩
  /-- No two offsets have one location, even if only 32 bits are kept of its numbers. -/
  injective (o o' : Nat) (l l' : Location) : t.location16? text o = some l → t.location16? text o' = some l' →
    l.line % 2 ^ 32 = l'.line % 2 ^ 32 → l.column % 2 ^ 32 = l'.column % 2 ^ 32 → o = o'

/-- The table of a text tells all this of its offsets. -/
theorem tells_ofText (text : String) (h : width text.toList < 2 ^ 32) : (ofText text).Tells text where
  placed o := by simp [place?_ofText]
  place o p hp := (exists_lastLine_of_place? hp).2
  fits o p hp := by
    have hsum := line_add_column_le hp
    have ho := (exists_lastLine_of_place? hp).1
    omega
  ordered o o' p p' hp hp' := (before_iff_lt hp hp').symm
  back o p hp := offset?_of_place? hp
  located o := exists_location16?_iff.trans
    ⟨fun hboundary => ⟨le_width_of_isBoundary hboundary, hboundary⟩, And.right⟩
  location o l hl := by
    obtain ⟨before, line, after, htext, rfl, hlast, rfl⟩ := exists_lastLine_of_location16? hl
    exact ⟨before, line, after, htext, rfl, hlast, (place?_of_lastLine htext hlast).2, rfl⟩
  injective o o' l l' hl hl' hline hcolumn := by
    have hle : ∀ {o l}, (ofText text).location16? text o = some l → o < 2 ^ 32 := fun hl =>
      Nat.lt_of_le_of_lt (le_width_of_isBoundary (exists_location16?_iff.1 ⟨_, hl⟩)) h
    have hlo := hle hl
    have hlo' := hle hl'
    have hsum := line_add_column_le16 hl
    have hsum' := line_add_column_le16 hl'
    -- Lines count from one, so of two different ones not both keep the same low bits.
    obtain ⟨line, column⟩ := l
    obtain ⟨line', column'⟩ := l'
    obtain ⟨rfl, rfl⟩ : line = line' ∧ column = column' := by
      dsimp only at *
      omega
    exact eq_of_location16? hl hl'

/-- A text with an empty line and with characters of two and four bytes. -/
def unevenText : String := "a\n\né😀\n"

theorem tells_ofText_unevenText : width unevenText.toList < 2 ^ 32 ∧ (ofText unevenText).Tells unevenText ∧
    (ofText unevenText).place? 9 = some ⟨2, 6⟩ ∧ (ofText unevenText).location16? unevenText 9 = some ⟨3, 3⟩ ∧
    (ofText unevenText).place? 6 = some ⟨2, 3⟩ ∧ (ofText unevenText).location16? unevenText 6 = none :=
  ⟨by decide +kernel, tells_ofText unevenText (by decide +kernel), by decide +kernel, by decide +kernel,
    by decide +kernel, by decide +kernel⟩

end LineTable

/-! ### Locations in a file -/

namespace SourceFile

variable {f : SourceFile} {o : Nat}

/-- What a location tells of an offset of a file. The line is one more than the line feeds before the offset, and the
column counts the UTF-16 units behind the last of these. -/
def LocatedAt (f : SourceFile) (o : Nat) (l : Location) : Prop :=
  ∃ before line after, f.text.toList = before ++ line ++ after ∧ o = width (before ++ line) ∧
    LastLine '\n' (before ++ line) before line ∧ l = ⟨(before ++ line).count '\n' + 1, width16 line⟩

theorem locatedAt_location (h : isBoundary f.text.toList o = true) : f.LocatedAt o (f.location o) := by
  obtain ⟨l, hl⟩ := LineTable.exists_location16? h
  rw [location, hl, Option.getD_some]
  exact LineTable.exists_lastLine_of_location16? hl

end SourceFile

end Restyle
