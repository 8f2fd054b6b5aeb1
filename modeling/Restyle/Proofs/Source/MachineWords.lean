import Mathlib.Algebra.Group.Nat.Defs
import Restyle.Proofs.Source.MapReading

/-! The mappings of a source map file, written with the arithmetic of a machine: digits are taken from words of 64 bits
with shifts and masks, and what the next segment is written relative to is kept in such words. As long as lines and
columns are words of 32 bits nothing overflows, so the text is the one that is written without bounds, and it is read
back. -/

namespace Restyle

/-! ### Bits of a word -/

namespace Word

variable {w v : Int64} {n : Nat}

/-- A word that is not negative has the bits of its number. -/
theorem toNat_toBitVec (h : w.toInt = n) : w.toBitVec.toNat = n := by
  rw [← Int64.toInt_toBitVec, BitVec.toInt_eq_toNat_cond] at h
  have hlt := w.toBitVec.isLt
  split at h <;> omega

theorem toInt_of_toNat (h : w.toBitVec.toNat = n) (hn : n < 2 ^ 63) : w.toInt = n := by
  rw [← Int64.toInt_toBitVec, BitVec.toInt_eq_toNat_of_lt (by omega), h]

/-- The mask of the five lowest bits. -/
theorem toInt_and_31 (h : w.toInt = n) : (w &&& 31).toInt = (n % 32 : Nat) := by
  refine toInt_of_toNat ?_ (by omega)
  rw [Int64.toBitVec_and, BitVec.toNat_and, toNat_toBitVec h]
  exact Nat.and_two_pow_sub_one_eq_mod n 5

/-- The shift rounds down also if the word is negative. -/
theorem toInt_shiftRight_5 (w : Int64) : (w >>> 5).toInt = w.toInt / 32 := by
  have hbits : (w >>> 5).toBitVec = w.toBitVec.sshiftRight 5 := Int64.toBitVec_shiftRight w 5
  rw [← Int64.toInt_toBitVec, hbits, BitVec.toInt_sshiftRight, Int64.toInt_toBitVec]
  exact Int.shiftRight_eq_div_pow ..

/-- The continuation bit is free in five bits. -/
theorem toInt_or_32 (h : w.toInt = n) (hn : n < 32) : (w ||| 32).toInt = (n + 32 : Nat) := by
  refine toInt_of_toNat ?_ (by omega)
  rw [Int64.toBitVec_or, BitVec.toNat_or, toNat_toBitVec h, Nat.or_comm, Nat.add_comm]
  exact (Nat.two_pow_add_eq_or_of_lt (i := 5) hn 1).symm

theorem toInt_shiftLeft_1 (h : w.toInt = n) (hn : n < 2 ^ 62) : (w <<< 1).toInt = (2 * n : Nat) := by
  have hbits : (w <<< 1).toBitVec = w.toBitVec <<< 1 := Int64.toBitVec_shiftLeft w 1
  refine toInt_of_toNat ?_ (by omega)
  rw [hbits, BitVec.toNat_shiftLeft, toNat_toBitVec h, Nat.shiftLeft_eq, Nat.mod_eq_of_lt (by omega)]
  omega

/-- The sign bit is free behind the shift. -/
theorem toInt_or_1 (h : w.toInt = (2 * n : Nat)) : (w ||| 1).toInt = (2 * n + 1 : Nat) := by
  have hlt := w.toInt_lt
  refine toInt_of_toNat ?_ (by omega)
  rw [Int64.toBitVec_or, BitVec.toNat_or, toNat_toBitVec h]
  exact (Nat.two_pow_add_eq_or_of_lt (i := 1) (by decide) n).symm

/-- A word of 32 bits in one of 64. -/
def wide (n : UInt32) : Int64 := n.toUInt64.toInt64

theorem toInt_wide (n : UInt32) : (wide n).toInt = n.toNat := by
  have hlt := n.toNat_lt
  exact toInt_of_toNat (UInt32.toNat_toUInt64 n) (by omega)

/-- The difference to a number of 32 bits has a sign and 32 bits. -/
theorem toInt_wide_sub (a : UInt32) (hv : v.toInt = n) (hn : n < 2 ^ 32) :
    (wide a - v).toInt = (a.toNat : Int) - n := by
  have hlt := a.toNat_lt
  rw [Int64.toInt_sub, toInt_wide, hv]
  exact Int.bmod_eq_of_le (by omega) (by omega)

theorem natAbs_wide_sub_lt (a : UInt32) (hv : v.toInt = n) (hn : n < 2 ^ 32) : (wide a - v).toInt.natAbs < 2 ^ 62 := by
  have hlt := a.toNat_lt
  rw [toInt_wide_sub a hv hn]
  omega

end Word

/-! ### Digits of a word -/

namespace Vlq

/-- The digits of a word, the lowest five bits first. A negative word is never used up by the shift. -/
def wordDigits? (w : Int64) : Option (List Char) :=
  let low := w &&& 31
  let rest := w >>> 5
  if 0 < rest then (wordDigits? rest).map (digit (low ||| 32).toInt.toNat :: ·)
  else if rest = 0 then some [digit low.toInt.toNat]
  else none
termination_by w.toInt.toNat
decreasing_by
  have h : (0 : Int64) < w >>> 5 := by assumption
  rw [Int64.lt_iff_toInt_lt, Word.toInt_shiftRight_5] at h
  rw [Word.toInt_shiftRight_5]
  have hzero : (0 : Int64).toInt = 0 := rfl
  omega

/-- The sign is the lowest bit. -/
def encodeWord? (w : Int64) : Option (List Char) :=
  wordDigits? (if w < 0 then (-w) <<< 1 ||| 1 else w <<< 1)

/-- Numbers one after the other. -/
def encodeWords? : List Int64 → Option (List Char)
  | [] => some []
  | w :: ws => do
    let text ← encodeWord? w
    let more ← encodeWords? ws
    some (text ++ more)

theorem wordDigits?_eq {w : Int64} {n : Nat} (h : w.toInt = n) : wordDigits? w = some (encodeNat n) := by
  induction n using Nat.strongRecOn generalizing w with
  | ind n ih =>
    have hlow := Word.toInt_and_31 h
    have hrest : (w >>> 5).toInt = (n / 32 : Nat) := by rw [Word.toInt_shiftRight_5, h]; rfl
    rw [wordDigits?, encodeNat]
    by_cases hn : n < 32
    · have hzero : w >>> 5 = (0 : Int64) := Int64.toInt_inj.1 (by rw [hrest, Nat.div_eq_of_lt hn]; rfl)
      rw [Nat.mod_eq_of_lt hn] at hlow
      simp [hzero, hlow, hn]
    · have hpos : (0 : Int64) < w >>> 5 := by
        rw [Int64.lt_iff_toInt_lt, hrest]
        have hzero : (0 : Int64).toInt = 0 := rfl
        omega
      have hmore := Word.toInt_or_32 hlow (by omega)
      rw [if_pos hpos, ih _ (by omega) hrest, if_neg hn, hmore]
      rfl

/-- The sign and 62 bits fit into a word. -/
theorem encodeWord?_eq {w : Int64} (h : w.toInt.natAbs < 2 ^ 62) : encodeWord? w = some (encode w.toInt) := by
  have hzero : (0 : Int64).toInt = 0 := rfl
  have hsign : w < 0 ↔ w.toInt < 0 := by rw [Int64.lt_iff_toInt_lt, hzero]
  rw [encodeWord?, encode]
  by_cases hneg : w.toInt < 0
  · have hminus : (-w).toInt = (w.toInt.natAbs : Nat) := by
      rw [Int64.toInt_neg, Int.bmod_eq_of_le (by omega) (by omega)]
      omega
    rw [if_pos (hsign.2 hneg), if_pos hneg]
    exact wordDigits?_eq (Word.toInt_or_1 (Word.toInt_shiftLeft_1 hminus h))
  · have hsame : w.toInt = (w.toInt.natAbs : Nat) := by omega
    rw [if_neg (mt hsign.1 hneg), if_neg hneg]
    exact wordDigits?_eq (Word.toInt_shiftLeft_1 hsame h)

theorem encodeWords?_eq {ws : List Int64} (h : ∀ w ∈ ws, w.toInt.natAbs < 2 ^ 62) :
    encodeWords? ws = some ((ws.map Int64.toInt).flatMap encode) := by
  induction ws with
  | nil => rfl
  | cons w ws ih =>
    obtain ⟨hw, hws⟩ := List.forall_mem_cons.1 h
    rw [encodeWords?, encodeWord?_eq hw, ih hws]
    rfl

end Vlq

/-! ### Segments in words -/

/-- A segment whose lines and columns are words of 32 bits. -/
structure Segment32 where
  line : UInt32
  column : UInt32
  sourceLine : UInt32
  sourceColumn : UInt32
  deriving Repr, DecidableEq

namespace Segment32

def toSegment (s : Segment32) : Segment :=
  ⟨⟨s.line.toNat, s.column.toNat⟩, ⟨s.sourceLine.toNat, s.sourceColumn.toNat⟩⟩

/-- The text so far and the pen in words. -/
structure Writer where
  text : List Char
  line : UInt32
  started : Bool
  column : Int64
  sourceLine : Int64
  sourceColumn : Int64
  deriving Repr, DecidableEq

namespace Writer

def origin : Writer := ⟨[], 0, false, 0, 0, 0⟩

/-- Ends lines one by one. -/
def advance (w : Writer) (line : UInt32) : Writer :=
  if w.line < line then
    advance ⟨w.text ++ [';'], w.line + 1, false, 0, w.sourceLine, w.sourceColumn⟩ line
  else w
termination_by line.toNat - w.line.toNat
decreasing_by
  have h : w.line < line := by assumption
  rw [UInt32.lt_iff_toNat_lt] at h
  have hlt := line.toNat_lt
  rw [UInt32.toNat_add, UInt32.toNat_one, Nat.mod_eq_of_lt (by omega)]
  omega

def write? (w : Writer) (s : Segment32) : Option Writer := do
  let w := w.advance s.line
  let numbers ← Vlq.encodeWords? [Word.wide s.column - w.column, 0, Word.wide s.sourceLine - w.sourceLine,
    Word.wide s.sourceColumn - w.sourceColumn]
  some ⟨w.text ++ (if w.started then [','] else []) ++ numbers, w.line, true, Word.wide s.column,
    Word.wide s.sourceLine, Word.wide s.sourceColumn⟩

/-- The words hold the numbers of a pen, and these have 32 bits. -/
structure Holds (w : Writer) (pen : Segment.Pen) : Prop where
  line : w.line.toNat = pen.line
  started : w.started = pen.started
  column : w.column.toInt = pen.column
  sourceLine : w.sourceLine.toInt = pen.source.line
  sourceColumn : w.sourceColumn.toInt = pen.source.column
  column_lt : pen.column < 2 ^ 32
  sourceLine_lt : pen.source.line < 2 ^ 32
  sourceColumn_lt : pen.source.column < 2 ^ 32

theorem holds_origin : origin.Holds .origin :=
  ⟨rfl, rfl, rfl, rfl, rfl, by decide, by decide, by decide⟩

variable {w : Writer} {pen : Segment.Pen}

/-- One line ends; it is not the last one that 32 bits can count. -/
theorem Holds.endLine (h : w.Holds pen) {line : UInt32} (hlt : w.line < line) :
    Holds ⟨w.text ++ [';'], w.line + 1, false, 0, w.sourceLine, w.sourceColumn⟩
      ⟨pen.line + 1, false, 0, pen.source⟩ where
  line := by
    rw [UInt32.lt_iff_toNat_lt] at hlt
    have hmax := line.toNat_lt
    rw [UInt32.toNat_add, UInt32.toNat_one, Nat.mod_eq_of_lt (by omega), h.line]
  started := rfl
  column := rfl
  sourceLine := h.sourceLine
  sourceColumn := h.sourceColumn
  column_lt := Nat.two_pow_pos 32
  sourceLine_lt := h.sourceLine_lt
  sourceColumn_lt := h.sourceColumn_lt

/-- The text gets an end for each line that is left. -/
theorem Holds.advance (h : w.Holds pen) (line : UInt32) : (w.advance line).Holds (pen.advance line.toNat) ∧
    (w.advance line).text = w.text ++ List.replicate (line.toNat - pen.line) ';' := by
  have hlt : w.line < line ↔ pen.line < line.toNat := by rw [UInt32.lt_iff_toNat_lt, h.line]
  induction hn : line.toNat - pen.line generalizing w pen with
  | zero =>
    have hnot : ¬ pen.line < line.toNat := by omega
    rw [Writer.advance, if_neg (mt hlt.1 hnot), Segment.Pen.advance, if_neg hnot]
    exact ⟨h, (List.append_nil _).symm⟩
  | succ n ih =>
    have hpen : pen.line < line.toNat := by omega
    have hnext := h.endLine (hlt.2 hpen)
    obtain ⟨hholds, htext⟩ := ih hnext (by rw [UInt32.lt_iff_toNat_lt, hnext.line]) (by dsimp only; omega)
    have hadvance : Segment.Pen.advance ⟨pen.line + 1, false, 0, pen.source⟩ line.toNat = pen.advance line.toNat := by
      simp only [Segment.Pen.advance, if_pos hpen]
      split
      · rfl
      · have hlast : pen.line + 1 = line.toNat := by omega
        rw [hlast]
    rw [Writer.advance, if_pos (hlt.2 hpen), ← hadvance]
    exact ⟨hholds, by rw [htext, List.append_assoc, List.replicate_succ, List.singleton_append]⟩

/-- Behind the pen the numbers of a segment do not overflow. -/
theorem Holds.encodeWords? (h : w.Holds pen) (s : Segment32) :
    Vlq.encodeWords? [Word.wide s.column - w.column, 0, Word.wide s.sourceLine - w.sourceLine,
      Word.wide s.sourceColumn - w.sourceColumn] =
      some (MapFile.segmentText pen.column pen.source s.toSegment) := by
  rw [Vlq.encodeWords?_eq]
  · have hzero : (0 : Int64).toInt = 0 := rfl
    simp only [List.map_cons, List.map_nil, Word.toInt_wide_sub s.column h.column h.column_lt,
      Word.toInt_wide_sub s.sourceLine h.sourceLine h.sourceLine_lt,
      Word.toInt_wide_sub s.sourceColumn h.sourceColumn h.sourceColumn_lt, hzero]
    rfl
  · simp only [List.forall_mem_cons]
    exact ⟨Word.natAbs_wide_sub_lt s.column h.column h.column_lt, by decide,
      Word.natAbs_wide_sub_lt s.sourceLine h.sourceLine h.sourceLine_lt,
      Word.natAbs_wide_sub_lt s.sourceColumn h.sourceColumn h.sourceColumn_lt, by simp⟩

/-- A segment is written as it is without bounds. -/
theorem Holds.write? (h : w.Holds pen) (s : Segment32) : ∃ w', w.write? s = some w' ∧
    w'.Holds (pen.next s.toSegment) ∧ w'.text = w.text ++ pen.text s.toSegment := by
  obtain ⟨hpen, htext⟩ : (w.advance s.line).Holds (pen.advance s.toSegment.generated.line) ∧
      (w.advance s.line).text = w.text ++ List.replicate (s.toSegment.generated.line - pen.line) ';' := h.advance s.line
  refine ⟨_, by rw [Writer.write?, hpen.encodeWords?]; rfl, ?_, ?_⟩
  · exact ⟨hpen.line, rfl, Word.toInt_wide _, Word.toInt_wide _, Word.toInt_wide _, s.column.toNat_lt,
      s.sourceLine.toNat_lt, s.sourceColumn.toNat_lt⟩
  · rw [Segment.Pen.text, ← List.append_assoc, ← List.append_assoc, ← htext, ← hpen.started]

/-- So are all the segments of a list. -/
theorem Holds.foldlM (h : w.Holds pen) (segments : List Segment32) : ∃ w', segments.foldlM Writer.write? w = some w' ∧
    w'.text = w.text ++ Segment.encodeFrom pen (segments.map toSegment) := by
  induction segments generalizing w pen with
  | nil => exact ⟨w, rfl, (List.append_nil _).symm⟩
  | cons s segments ih =>
    obtain ⟨next, hwrite, hnext, htext⟩ := h.write? s
    obtain ⟨w', hrest, htext'⟩ := ih hnext
    refine ⟨w', ?_, ?_⟩
    · rw [List.foldlM_cons, hwrite]
      exact hrest
    · rw [htext', htext, List.map_cons, Segment.encodeFrom_cons, List.append_assoc]

end Writer

/-- The mappings of a list of segments. -/
def write? (segments : List Segment32) : Option String := do
  let w ← segments.foldlM Writer.write? .origin
  some (String.ofList w.text)

theorem write?_eq (segments : List Segment32) : write? segments = some (Segment.encode (segments.map toSegment)) := by
  obtain ⟨w, hw, htext⟩ := Writer.holds_origin.foldlM segments
  rw [write?, hw]
  exact congrArg (fun text => some (String.ofList text)) htext

/-- Segments in words whose lines never decrease are read back from what is written of them, each in the first source;
and numbers of 33 bits one after the other are those and no others. -/
theorem written_read_back (segments : List Segment32) (hlines : segments.Pairwise (·.line ≤ ·.line)) (zs : List Int)
    (hzs : ∀ z ∈ zs, z.natAbs < 2 ^ 33) :
    (∃ text, write? segments = some text ∧ Segment.encode (segments.map toSegment) = text ∧
      MapFile.entries? text = some (segments.map fun s =>
        ⟨s.line.toNat, s.column.toNat, some ⟨0, s.sourceLine.toNat, s.sourceColumn.toNat⟩⟩)) ∧
    ∃ digits, Vlq.encodeWords? (zs.map Int64.ofInt) = some digits ∧ zs.flatMap Vlq.encode = digits ∧
      Vlq.numbers? digits = some zs ∧ ∀ ys : List Int, ys.flatMap Vlq.encode = digits → ys = zs := by
  refine ⟨⟨_, write?_eq segments, rfl, ?_⟩, zs.flatMap Vlq.encode, ?_, rfl, Vlq.numbers?_flatMap_encode zs, ?_⟩
  · rw [MapFile.entries?_encode, List.map_map]
    · rfl
    · exact List.pairwise_map.2 (hlines.imp UInt32.le_iff_toNat_le.1)
  · have hback : ∀ z ∈ zs, (Int64.ofInt z).toInt = z := fun z hz => by
      have hbound := hzs z hz
      exact Int64.toInt_ofInt_of_le (by omega) (by omega)
    have hsame : (zs.map Int64.ofInt).map Int64.toInt = zs := by
      rw [List.map_map]
      exact (List.map_congr_left hback).trans (List.map_id zs)
    rw [Vlq.encodeWords?_eq, hsame]
    intro w hw
    obtain ⟨z, hz, rfl⟩ := List.mem_map.1 hw
    have hbound := hzs z hz
    rw [hback z hz]
    omega
  · intro ys hys
    have hread := Vlq.numbers?_flatMap_encode ys
    rw [hys, Vlq.numbers?_flatMap_encode] at hread
    exact (Option.some.inj hread).symm

/-- Segments behind empty lines, with steps back of more than one digit. -/
def steepSegments : List Segment32 :=
  [⟨0, 5, 0, 0⟩, ⟨0, 4294967295, 4294967295, 17⟩, ⟨3, 7, 2, 4294967295⟩]

theorem written_read_back_steepSegments : steepSegments.Pairwise (·.line ≤ ·.line) ∧
    (∃ text, write? steepSegments = some text ∧ Segment.encode (steepSegments.map toSegment) = text ∧
      MapFile.entries? text = some [⟨0, 5, some ⟨0, 0, 0⟩⟩, ⟨0, 4294967295, some ⟨0, 4294967295, 17⟩⟩,
        ⟨3, 7, some ⟨0, 2, 4294967295⟩⟩]) ∧
    ∃ digits, Vlq.encodeWords? ([-8589934591, 0, 17, 8589934591].map Int64.ofInt) = some digits ∧
      [-8589934591, 0, 17, 8589934591].flatMap Vlq.encode = digits ∧
      Vlq.numbers? digits = some [-8589934591, 0, 17, 8589934591] ∧
      ∀ ys : List Int, ys.flatMap Vlq.encode = digits → ys = [-8589934591, 0, 17, 8589934591] :=
  have hlines : steepSegments.Pairwise (·.line ≤ ·.line) := by decide
  ⟨hlines, written_read_back steepSegments hlines [-8589934591, 0, 17, 8589934591] (by decide)⟩

end Segment32

end Restyle
