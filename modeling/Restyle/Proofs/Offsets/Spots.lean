import Restyle.Proofs.Markup.Slices
import Restyle.Proofs.Text.Ascii
import Restyle.Proofs.Text.Search

/-! Reading by byte offsets. The markup reader keeps the text that is left; here it is told again as a
program that only keeps an offset and looks into the whole text with it. Whatever could go wrong with an
offset is checked and traps: an index or a slice out of bounds, a slice that begins or ends inside a
character, a difference below zero, a cursor behind the end of the text, and a round of a loop that does
not move on. From an offset at which a cursor stands, each operation does what the cursor does. -/

namespace Restyle.Markup.Offsets

open Text

/-! ### Checks -/

/-- What goes wrong with an offset. -/
inductive Trap where
  | index | slice | underflow | beyondEnd | stuck
  deriving Repr, DecidableEq

abbrev Checked := Except Trap

@[simp] theorem ok_bind {α β : Type} (a : α) (f : α → Checked β) : (Except.ok a >>= f) = f a := rfl

@[simp] theorem pure_eq_ok {α : Type} (a : α) : (pure a : Checked α) = .ok a := rfl

/-- The byte at an index, if there is one. -/
def peek (cs : List Char) (i : Nat) : Option UInt8 := (bytes cs)[i]?

/-- The byte at an index. -/
def byteAt (cs : List Char) (i : Nat) : Checked UInt8 := (peek cs i).elim (.error .index) .ok

/-- The text from an offset on. -/
def after (cs : List Char) (start : Nat) : Checked (List Char) := (after? cs start).elim (.error .slice) .ok

/-- The text between two offsets. -/
def slice (cs : List Char) (start stop : Nat) : Checked (List Char) :=
  (Text.slice? cs start stop).elim (.error .slice) .ok

/-- The text between the offsets of a span, which are kept in 32 bits. -/
def sliceSpan (cs : List Char) (s : Span) : Checked (List Char) :=
  let kept := Span.ofOffsets s.start s.stop
  slice cs kept.start kept.stop

def minus (a b : Nat) : Checked Nat := if b ≤ a then .ok (a - b) else .error .underflow

/-- The offset at which a piece first stands in a text. -/
def find? (piece cs : List Char) : Option Nat := (breakOn? piece cs).map (width ·.1)

theorem after_eq {a rest : List Char} : after (a ++ rest) (width a) = .ok rest := by
  rw [after, after?_eq_map_cut?, cut?_width_append]
  rfl

theorem slice_of_stands {cs t : List Char} {start stop : Nat} (h : Stands cs start t)
    (hstop : stop = start + width t) : slice cs start stop = .ok t := by
  rw [slice, hstop, h.slice?]
  rfl

example : slice ['é', 'a'] 1 3 = .error .slice := by rfl

/-- Offsets into a text of fewer than 2 ^ 32 bytes are kept whole. -/
theorem ofOffsets_of_cuts {cs : List Char} (hsmall : width cs < 0x100000000) {s : Span} (h : s.Cuts cs) :
    Span.ofOffsets s.start s.stop = s := by
  have hstop := le_width_of_isBoundary h.stop
  have hle := h.le
  rw [Span.ofOffsets, Nat.mod_eq_of_lt (by omega), Nat.mod_eq_of_lt (by omega)]

theorem sliceSpan_eq {cs : List Char} (hsmall : width cs < 0x100000000) {s : Span} (h : s.Cuts cs) :
    sliceSpan cs s = slice cs s.start s.stop := by
  rw [sliceSpan, ofOffsets_of_cuts hsmall h]

theorem minus_eq {a b : Nat} (h : b ≤ a) : minus a b = .ok (a - b) := if_pos h

/-! ### Spots -/

/-- A place in a text by its offset, and the faults found so far, newest first. -/
structure Spot where
  offset : Nat
  faults : List Fault

namespace Spot

variable (s : Spot) (cs : List Char)

/-- The spot at another offset. -/
def moveTo (offset : Nat) : Checked Spot :=
  if offset ≤ width cs then .ok { s with offset } else .error .beyondEnd

def fault (kind : FaultKind) (span : Span) : Spot := { s with faults := ⟨kind, span⟩ :: s.faults }

def spanFrom (start : Nat) : Span := ⟨start, s.offset⟩

def rest : Checked (List Char) := after cs s.offset

def atEnd : Bool := width cs ≤ s.offset

def startsWith (piece : List Char) : Checked Bool := do return Text.startsWith piece (← s.rest cs)

/-- Past a piece that stands at the spot. -/
def eat? (piece : List Char) : Checked (Option Spot) := do
  if ← s.startsWith cs piece then return some (← s.moveTo cs (s.offset + width piece)) else return none

/-- Past one character. -/
def bump : Checked Spot := do
  match ← s.rest cs with
  | c :: _ => s.moveTo cs (s.offset + c.utf8Size)
  | [] => return s

/-- At the first byte that the test, which may look at the next byte too, stops at. -/
def skip (stop : UInt8 → Option UInt8 → Bool) : Checked Spot :=
  s.moveTo cs (s.offset + scan stop ((bytes cs).drop s.offset))

/-- The text up to the first byte that the test stops at. -/
def readUntil (stop : UInt8 → Option UInt8 → Bool) : Checked (List Char × Spot) := do
  let s' ← s.skip cs stop
  return (← slice cs s.offset s'.offset, s')

def skipBlanks : Checked Spot := s.skip cs fun b _ => !onByte isBlank b

def tagName : Checked (List Char × Spot) := s.readUntil cs fun b _ => onByte endsTagName b

def word : Checked (List Char × Spot) := s.readUntil cs fun b _ => !onByte Char.isAlpha b

/-- Past a piece that has to stand at the spot; a fault if it does not. -/
def expect (piece : List Char) : Checked Spot := do
  match ← s.eat? cs piece with
  | some s' => return s'
  | none =>
    let expected := "`" ++ String.ofList piece ++ "`"
    match ← s.rest cs with
    | c :: _ => return s.fault (.unexpectedChar expected c) (.point s.offset)
    | [] => return s.fault (.unexpectedEnd expected) (.point s.offset)

/-- A tag of the given name opens at the spot. -/
def atTag (name : List Char) : Checked Bool := do
  if peek cs s.offset = some (byte '<') then
    let rest ← after (← s.rest cs) 1
    return Text.startsWith name rest
      && (peek cs (s.offset + (1 + width name))).all (onByte endsTagName)
  else return false

/-- Past a stray tag: up to and including its closing character, or to the end. -/
def skipStray (closing : Char) : Checked Spot := do
  let s' ← s.moveTo cs (s.offset + 1)
  match (bytes (← s'.rest cs)).findIdx? (· == byte closing) with
  | some n => s'.moveTo cs (s'.offset + (n + 1))
  | none => s'.moveTo cs (width cs)

end Spot

/-- The expression between two offsets, without the spaces around it. -/
def expression (cs : List Char) (start stop : Nat) : Checked Expression := do
  let raw ← slice cs start stop
  let leading ← minus (width raw) (width (trimLeft raw))
  let text := trim raw
  return ⟨⟨start + leading, start + leading + width text⟩, String.ofList text⟩

/-! ### Spots of cursors -/

end Restyle.Markup.Offsets

namespace Restyle.Markup.Cursor

open Text Offsets

/-- The spot at which a cursor stands. -/
def spot (c : Cursor) : Spot := ⟨c.offset, c.faults⟩

variable {cs : List Char} {c c' : Cursor} {d : Char}

@[simp] theorem offset_spot (c : Cursor) : c.spot.offset = c.offset := rfl

@[simp] theorem spanFrom_spot (c : Cursor) (start : Nat) : c.spot.spanFrom start = c.spanFrom start := rfl

@[simp] theorem fault_spot (c : Cursor) (kind : FaultKind) (span : Span) :
    c.spot.fault kind span = (c.fault kind span).spot := rfl

theorem On.drop_bytes (h : c.On cs) : (bytes cs).drop c.offset = bytes c.rest := by
  obtain ⟨before, rfl, hoffset⟩ := h
  rw [bytes_append, hoffset, ← length_bytes, List.drop_left]

theorem On.peek_add (h : c.On cs) (n : Nat) : peek cs (c.offset + n) = (bytes c.rest)[n]? := by
  rw [peek, ← List.getElem?_drop, h.drop_bytes]

theorem On.peek (h : c.On cs) : peek cs c.offset = (bytes c.rest).head? := by
  rw [← Nat.add_zero c.offset, h.peek_add, List.head?_eq_getElem?]

/-- A character of one byte stands at a cursor if its byte does. -/
theorem On.peek_iff (h : c.On cs) (hd : d.utf8Size = 1) :
    Offsets.peek cs c.offset = some (byte d) ↔ c.rest.head? = some d := by
  rw [h.peek, head?_bytes hd]

theorem On.rest (h : c.On cs) : c.spot.rest cs = .ok c.rest := by
  obtain ⟨before, hcs, hoffset⟩ := h
  rw [Spot.rest, offset_spot, hoffset]
  conv_lhs => rw [hcs]
  exact after_eq

theorem On.offset_le (h : c.On cs) : c.offset ≤ width cs := by
  obtain ⟨before, rfl, hoffset⟩ := h
  simp [hoffset]

theorem On.atEnd (h : c.On cs) : c.spot.atEnd cs = c.atEnd := by
  obtain ⟨before, rfl, hoffset⟩ := h
  rw [Spot.atEnd, offset_spot, hoffset, width_append, Cursor.atEnd, Bool.eq_iff_iff, decide_eq_true_iff,
    List.isEmpty_iff]
  constructor
  · intro hle
    exact List.length_eq_zero_iff.1 (Nat.le_zero.1 ((length_le_width c.rest).trans (by omega)))
  · intro hnil
    simp [hnil]

/-- A cursor moves by the width of what is read. -/
theorem On.moveTo (h : c.On cs) {read rest : List Char} (hrest : c.rest = read ++ rest) {offset : Nat}
    (hoffset : offset = c.offset + width read) : c.spot.moveTo cs offset = .ok (c.moved read rest).spot := by
  have hle := (h.reaches (reaches_moved hrest)).offset_le
  obtain rfl : offset = (c.moved read rest).offset := hoffset
  rw [Spot.moveTo, if_pos hle]
  rfl

theorem On.toEnd (h : c.On cs) : c.spot.moveTo cs (width cs) = .ok c.toEnd.spot := by
  refine h.moveTo (by simp) ?_
  obtain ⟨before, rfl, hoffset⟩ := h
  simp [hoffset]

theorem On.slice_eq (h : c.On cs) {read rest : List Char} (hrest : c.rest = read ++ rest) {stop : Nat}
    (hstop : stop = c.offset + width read) : Offsets.slice cs c.offset stop = .ok read :=
  slice_of_stands (h.stands hrest) hstop

theorem On.startsWith (h : c.On cs) (piece : List Char) :
    c.spot.startsWith cs piece = .ok (c.startsWith piece) := by
  rw [Spot.startsWith, h.rest]
  rfl

theorem On.eat? (h : c.On cs) (piece : List Char) :
    c.spot.eat? cs piece = .ok ((c.eat? piece).map spot) := by
  rw [Spot.eat?, h.startsWith, Cursor.startsWith, Text.startsWith, Cursor.eat?]
  cases hrest : strip? piece c.rest with
  | none => rfl
  | some rest =>
    have hto := h.moveTo (strip?_eq_some_iff.1 hrest) rfl
    simp only [Option.isSome_some, bind, Except.bind, offset_spot, hto]
    rfl

theorem On.bump (h : c.On cs) {d : Char} {ds : List Char} (hrest : c.rest = d :: ds) :
    c.spot.bump cs = .ok (c.moved [d] ds).spot := by
  have hmove : c.spot.moveTo cs (c.offset + d.utf8Size) = .ok (c.moved [d] ds).spot :=
    h.moveTo hrest (by simp)
  simp only [Spot.bump, h.rest, ok_bind, hrest, offset_spot, hmove]

/-! ### Scans -/

section scans

variable {stop : UInt8 → Option UInt8 → Bool} {test : List Char → Bool}

theorem On.skip (h : c.On cs) (high : Bool) (hhigh : ∀ b next, 128 ≤ b.toNat → stop b next = high)
    (hwide : ∀ c cs, c.utf8Size ≠ 1 → test (c :: cs) = high)
    (hone : ∀ c cs, c.utf8Size = 1 → stop (byte c) (bytes cs).head? = test (c :: cs)) :
    c.spot.skip cs stop = .ok (c.breakWhere test).2.spot := by
  refine h.moveTo (breakWhere_append test c.rest).symm ?_
  rw [offset_spot, h.drop_bytes, scan_bytes test high hhigh hwide hone]

theorem On.readUntil (h : c.On cs) (high : Bool) (hhigh : ∀ b next, 128 ≤ b.toNat → stop b next = high)
    (hwide : ∀ c cs, c.utf8Size ≠ 1 → test (c :: cs) = high)
    (hone : ∀ c cs, c.utf8Size = 1 → stop (byte c) (bytes cs).head? = test (c :: cs)) :
    c.spot.readUntil cs stop = .ok ((c.breakWhere test).1, (c.breakWhere test).2.spot) := by
  have hslice : Offsets.slice cs c.offset (c.breakWhere test).2.offset = .ok (c.breakWhere test).1 :=
    h.slice_eq (breakWhere_append test c.rest).symm rfl
  simp only [Spot.readUntil, h.skip high hhigh hwide hone, ok_bind, offset_spot, hslice, pure_eq_ok]

end scans

theorem breakWhere_any_not (p : Char → Bool) (c : Cursor) :
    c.breakWhere (fun cs => cs.head?.any (!p ·)) = c.takeWhile p := by
  rw [Cursor.breakWhere, Text.breakWhere_any_not, Cursor.takeWhile]

theorem size_of_isBlank (h : isBlank d = true) : d.utf8Size = 1 := by
  simp only [isBlank, Bool.or_eq_true, beq_iff_eq] at h
  rcases h with (((rfl | rfl) | rfl) | rfl) | rfl <;> decide

theorem size_of_endsTagName (h : endsTagName d = true) : d.utf8Size = 1 := by
  simp only [endsTagName, Bool.or_eq_true, beq_iff_eq] at h
  rcases h with (h | rfl) | rfl
  · exact size_of_isBlank h
  · decide
  · decide

theorem size_of_isAlpha (h : d.isAlpha = true) : d.utf8Size = 1 := by
  have hcases : d.isUpper = true ∨ d.isLower = true := Bool.or_eq_true_iff.1 h
  have hle : d.val ≤ 'z'.val := by
    rcases hcases with h | h
    · have hupper : d.val ≤ 'Z'.val := (of_decide_eq_true h).2
      exact UInt32.le_trans hupper (by decide)
    · exact of_decide_eq_true (Bool.and_eq_true_iff.1 h).2
  exact Char.utf8Size_eq_one_iff.2 (UInt32.le_trans hle (by decide))

/-- Reading while a test holds that only characters of one byte pass. -/
theorem On.readWhile (h : c.On cs) {p : Char → Bool} (hp : ∀ d, p d = true → d.utf8Size = 1) :
    c.spot.readUntil cs (fun b _ => !onByte p b) = .ok ((c.takeWhile p).1, (c.takeWhile p).2.spot) := by
  rw [← breakWhere_any_not]
  refine h.readUntil true (fun b _ hb => ?_) (fun d ds hd => ?_) fun d ds hd => ?_
  · rw [onByte_of_high hb, Bool.not_false]
  · have hnot : p d = false := eq_false_of_ne_true fun htrue => hd (hp d htrue)
    simp [hnot]
  · simp [onByte_byte hd]

/-- Reading up to a character of one byte. -/
theorem On.readTo (h : c.On cs) {p : Char → Bool} (hp : ∀ d, p d = true → d.utf8Size = 1) :
    c.spot.readUntil cs (fun b _ => onByte p b)
      = .ok ((c.takeWhile (!p ·)).1, (c.takeWhile (!p ·)).2.spot) := by
  rw [← breakWhere_any_not]
  refine h.readUntil false (fun b _ hb => onByte_of_high hb) (fun d ds hd => ?_) fun d ds hd => ?_
  · have hnot : p d = false := eq_false_of_ne_true fun htrue => hd (hp d htrue)
    simp [hnot]
  · simp [onByte_byte hd]

theorem On.word (h : c.On cs) : c.spot.word cs = .ok (c.word.1, c.word.2.spot) :=
  h.readWhile fun _ => size_of_isAlpha

theorem On.tagName (h : c.On cs) : c.spot.tagName cs
    = .ok ((c.takeWhile (!endsTagName ·)).1, (c.takeWhile (!endsTagName ·)).2.spot) :=
  h.readTo fun _ => size_of_endsTagName

theorem On.skipBlanks (h : c.On cs) : c.spot.skipBlanks cs = .ok c.skipBlanks.spot := by
  rw [Cursor.skipBlanks, ← breakWhere_any_not]
  refine h.skip true (fun b _ hb => ?_) (fun d ds hd => ?_) fun d ds hd => ?_
  · rw [onByte_of_high hb, Bool.not_false]
  · have hnot : isBlank d = false := eq_false_of_ne_true fun htrue => hd (size_of_isBlank htrue)
    simp [hnot]
  · simp [onByte_byte hd]

/-! ### Tags -/

theorem On.expect (h : c.On cs) (piece : List Char) :
    c.spot.expect cs piece = .ok (c.expect piece).spot := by
  rw [Spot.expect, h.eat?, Cursor.expect]
  cases c.eat? piece with
  | some c' => rfl
  | none =>
    simp only [Option.map_none, ok_bind, h.rest]
    cases c.rest <;> rfl

theorem On.atTag (h : c.On cs) {name : List Char} : c.spot.atTag cs name = .ok (c.atTag name) := by
  rw [Spot.atTag, offset_spot, Cursor.atTag]
  by_cases hopen : c.rest.head? = some '<'
  · obtain ⟨ds, hrest⟩ := List.head?_eq_some_iff.1 hopen
    have hafter : after c.rest 1 = .ok ds := hrest ▸ after_eq (a := ['<'])
    rw [if_pos ((h.peek_iff (by decide)).2 hopen), h.rest, ok_bind, hafter, ok_bind, pure_eq_ok, hrest,
      strip?, if_pos rfl, Text.startsWith]
    cases hname : strip? name ds with
    | none => rfl
    | some left =>
      have hpeek : Offsets.peek cs (c.offset + (1 + width name)) = (bytes left).head? := by
        rw [h.peek_add, ← List.head?_drop, hrest, strip?_eq_some_iff.1 hname,
          bytes_cons_of_size (by decide), bytes_append, Nat.add_comm 1, List.drop_succ_cons,
          ← length_bytes, List.drop_left]
      rw [hpeek]
      cases left with
      | nil => rfl
      | cons e es =>
        obtain ⟨b, hb, -, hends⟩ := exists_head_bytes e es
        rw [hb, Option.all_some, hends endsTagName size_of_endsTagName]
        rfl
  · rw [if_neg (mt (h.peek_iff (by decide)).1 hopen)]
    have hnone : strip? ('<' :: name) c.rest = none := by
      cases hrest : c.rest with
      | nil => rfl
      | cons d ds => rw [strip?, if_neg fun he => hopen (by rw [hrest, ← he]; rfl)]
    rw [hnone]
    rfl

theorem On.skipStray (h : c.On cs) {d closing : Char} {ds : List Char} (hrest : c.rest = d :: ds)
    (hd : d.utf8Size = 1) (hclosing : closing.utf8Size = 1) :
    c.spot.skipStray cs closing = .ok (c.skipStray closing).2.spot := by
  have hmove : c.spot.moveTo cs (c.offset + 1) = .ok (c.moved [d] ds).spot := h.moveTo hrest (by simp [hd])
  have hon : (c.moved [d] ds).On cs := h.reaches (reaches_moved_one hrest)
  have hend : (c.moved [d] ds).spot.moveTo cs (width cs) = .ok c.toEnd.spot := by
    rw [hon.toEnd]
    simp [Cursor.toEnd, hrest, spot, moved, Nat.add_assoc]
  simp only [Spot.skipStray, offset_spot, hmove, ok_bind, hon.rest, rest_moved, findIdx?_bytes hclosing,
    Cursor.skipStray, hrest]
  cases hdrop : ds.dropWhile (· ≠ closing) with
  | nil =>
    rw [if_neg (dropWhile_ne_eq_nil_iff.1 hdrop)]
    exact hend
  | cons e after =>
    obtain ⟨rfl, hsplit⟩ := eq_append_of_dropWhile_ne hdrop
    have hmem : e ∈ ds := hsplit ▸ List.mem_append_right _ (List.mem_cons_self ..)
    have hread : (c.moved [d] ds).rest = (ds.takeWhile (· ≠ e) ++ [e]) ++ after := by
      rw [List.append_assoc, List.singleton_append, ← hsplit, rest_moved]
    rw [if_pos hmem]
    refine (hon.moveTo hread (by simp [hclosing])).trans ?_
    simp [spot, moved, Nat.add_assoc]

/-- The expression in a text that stands between two offsets. -/
theorem expression_of_stands {raw : List Char} {start stop : Nat} (h : Stands cs start raw)
    (hstop : stop = start + width raw) : expression cs start stop = .ok (.ofRaw start raw) := by
  have hsplit : width raw = width (raw.takeWhile isSpace) + width (trimLeft raw) := by
    rw [trimLeft, ← width_append, List.takeWhile_append_dropWhile]
  have hle : width (trimLeft raw) ≤ width raw := by omega
  have hleading : width raw - width (trimLeft raw) = width (raw.takeWhile isSpace) := by omega
  simp only [expression, slice_of_stands h hstop, ok_bind, minus_eq hle, hleading]
  rfl

end Restyle.Markup.Cursor
