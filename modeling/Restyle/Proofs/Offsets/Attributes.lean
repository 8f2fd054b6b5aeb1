import Restyle.Markup.Attributes
import Restyle.Proofs.Offsets.Scanning

/-! Attributes by byte offsets. Every round of a loop has to move the cursor on, or it traps. -/

namespace Restyle.Markup

open Text

namespace Offsets

/-- The second spot is further on, and not behind the end of the text. -/
def Spot.Ahead (cs : List Char) (s s' : Spot) : Prop := s.offset < s'.offset ∧ s'.offset ≤ width cs

instance (cs : List Char) (s s' : Spot) : Decidable (s.Ahead cs s') := inferInstanceAs (Decidable (_ ∧ _))

theorem Spot.Ahead.closer {cs : List Char} {s s' : Spot} (h : s.Ahead cs s') :
    width cs - s'.offset < width cs - s.offset := by
  obtain ⟨hlt, hle⟩ := h
  omega

/-! ### Values -/

namespace Spot

variable (cs : List Char)

/-- Past one character after the other, up to where the test, which sees the byte there, stops. -/
def bumpUntil (stop : Spot → UInt8 → Checked Bool) (s : Spot) : Checked Spot := do
  match peek cs s.offset with
  | none => return s
  | some b =>
    if ← stop s b then return s
    else
      let s' ← s.bump cs
      if _h : s.Ahead cs s' then bumpUntil stop s' else throw .stuck
termination_by width cs - s.offset
decreasing_by exact _h.closer

/-- Whether a value ends at the byte at a spot. -/
def endsValue (quote : Option Char) (s : Spot) (b : UInt8) : Checked Bool :=
  match quote with
  | some q => return b == byte q
  | none => return onByte isBlank b || b == byte '>' || (← s.startsWith cs ['/', '>'])

def endsValueText (quote : Option Char) (s : Spot) (b : UInt8) : Checked Bool := do
  return (← s.endsValue cs quote b) || b == byte '\x7b'

/-- Text and expressions up to the end of a value, or up to an expression that is not closed. -/
def valueParts (quote : Option Char) (s : Spot) : Checked (List ValuePart × Spot) := do
  match peek cs s.offset with
  | none => return ([], s)
  | some b =>
    if ← s.endsValue cs quote b then return ([], s)
    else if b = byte '\x7b' then
      let inside ← (← s.moveTo cs (s.offset + 1)).braced cs
      match inside.1 with
      | none => return ([], inside.2)
      | some e =>
        if _h : s.Ahead cs inside.2 then
          let more ← valueParts quote inside.2
          return (.expression (inside.2.spanFrom s.offset) e :: more.1, more.2)
        else throw .stuck
    else
      let s' ← s.bumpUntil cs (endsValueText cs quote)
      let text ← slice cs s.offset s'.offset
      if _h : s.Ahead cs s' then
        let more ← valueParts quote s'
        return (.text (s'.spanFrom s.offset) (String.ofList text) :: more.1, more.2)
      else throw .stuck
termination_by width cs - s.offset
decreasing_by
  · exact _h.closer
  · exact _h.closer

/-- A value in quotes. -/
def quoted (quote : Char) (s : Spot) : Checked (AttributeValue × Spot) := do
  let inside ← (← s.moveTo cs (s.offset + 1)).valueParts cs (some quote)
  let parts := if inside.1.isEmpty then [.text (.point inside.2.offset) ""] else inside.1
  match ← inside.2.eat? cs [quote] with
  | some s' => return (.parts parts, s')
  | none =>
    return (.parts parts, inside.2.fault (.unexpectedEnd "closing quote") (inside.2.spanFrom s.offset))

def unquoted (s : Spot) : Checked (AttributeValue × Spot) := do
  let inside ← s.valueParts cs none
  match inside.1 with
  | [.expression span e] => return (.expression span e, inside.2)
  | [] => return (.parts [],
      inside.2.fault (.invalidAttribute "missing attribute value") (inside.2.spanFrom s.offset))
  | parts => return (.parts parts, inside.2)

/-- A value after the equals sign. -/
def value (s : Spot) : Checked (AttributeValue × Spot) :=
  if peek cs s.offset = some (byte '"') then s.quoted cs '"'
  else if peek cs s.offset = some (byte '\'') then s.quoted cs '\''
  else s.unquoted cs

end Spot

/-! ### Attributes -/

variable (cs : List Char)

/-- What follows a piece in an expression, up to the end of its span. -/
def suffix? (inner : Expression) (piece : List Char) : Checked (Option Expression) :=
  match strip? piece inner.text.toList with
  | none => return none
  | some rest => do
    let stop := (Span.ofOffsets inner.span.start inner.span.stop).stop
    return some (← expression cs (← minus stop (width rest)) stop)

/-- An attribute in braces, by its text. -/
def bracedAttribute (span : Span) (inner : Expression) : Checked (Option Attribute) := do
  match ← suffix? cs inner ['.', '.', '.'] with
  | some e => return some (.spread span e)
  | none =>
    match ← suffix? cs inner ['@', 'a', 't', 't', 'a', 'c', 'h'] with
    | some e => return some (.attach span e)
    | none => return if inner.text = "" then none else some (.shorthand span inner)

/-- A character that ends a name, whatever stands after it. -/
def closesName (c : Char) : Bool :=
  isBlank c || c == '=' || c == '>' || c == '\x7b' || c == '\x7d' || c == '"' || c == '\''

/-- A name ends at a byte, for a slash with the byte after it. -/
def endsName (b : UInt8) (next : Option UInt8) : Bool :=
  onByte closesName b || (b == byte '/' && next == some (byte '>'))

theorem size_of_closesName {c : Char} (h : closesName c = true) : c.utf8Size = 1 := by
  simp only [closesName, Bool.or_eq_true, beq_iff_eq] at h
  rcases h with (((((h | rfl) | rfl) | rfl) | rfl) | rfl) | rfl
  · exact Cursor.size_of_isBlank h
  all_goals decide

namespace Spot

/-- An attribute in braces. -/
def braces (s : Spot) : Checked (Option Attribute × Spot) := do
  let inner ← (← s.moveTo cs (s.offset + 1)).braced cs
  match inner.1 with
  | none => return (none, inner.2)
  | some e =>
    let span := inner.2.spanFrom s.offset
    match ← bracedAttribute cs span e with
    | some a => return (some a, inner.2)
    | none => return (none, inner.2.fault (.invalidAttribute "empty shorthand attribute") span)

/-- An attribute whose name has been read, and that starts at an offset. -/
def named (start : Nat) (name : List Char) (s : Spot) : Checked (Option Attribute × Spot) := do
  match ← (← s.skipBlanks cs).eat? cs ['='] with
  | some s' =>
    let value ← (← s'.skipBlanks cs).value cs
    return (some (Cursor.namedAttribute (value.2.spanFrom start) name value.1), value.2)
  | none => return (some (Cursor.namedAttribute (s.spanFrom start) name .absent), s)

/-- One attribute. A character that begins none is skipped with a fault. -/
def attribute? (s : Spot) : Checked (Option Attribute × Spot) := do
  if peek cs s.offset = some (byte '\x7b') then s.braces cs
  else
    let name ← s.readUntil cs endsName
    if name.1.isEmpty then
      let found := (← s.rest cs).headD '\x00'
      let s' ← s.bump cs
      return (none, s'.fault (.invalidAttribute ("unexpected " ++ quoteChar found)) (s'.spanFrom s.offset))
    else name.2.named cs s.offset name.1

/-- Whether the list of attributes ends here. -/
def endsAttributes (s : Spot) : Checked Bool := do
  return s.atEnd cs || (← s.startsWith cs ['>']) || (← s.startsWith cs ['/', '>'])

/-- The attributes up to the end of the tag. -/
def attributes (s : Spot) : Checked (List Attribute × Spot) := do
  let s' ← s.skipBlanks cs
  if ← s'.endsAttributes cs then return ([], s')
  else
    let first ← s'.attribute? cs
    if _h : s.offset ≤ s'.offset ∧ s'.Ahead cs first.2 then
      let more ← attributes first.2
      return (first.1.toList ++ more.1, more.2)
    else throw .stuck
termination_by width cs - s.offset
decreasing_by
  have := _h.2.closer
  omega

end Spot

end Offsets

namespace Cursor

open Offsets

/-! ### What the cursor does -/

theorem On.ahead {cs : List Char} {c c' : Cursor} (h : c.On cs) (hreach : c.Reaches c')
    (hshorter : c'.rest.length < c.rest.length) : c.spot.Ahead cs c'.spot :=
  ⟨hreach.offset_lt hshorter, (h.reaches hreach).offset_le⟩

/-- All that is read after a character is further on. -/
theorem On.ahead_of_moved {cs : List Char} {c c' : Cursor} {d : Char} {ds : List Char} (h : c.On cs)
    (hrest : c.rest = d :: ds) (hreach : (c.moved [d] ds).Reaches c') : c.spot.Ahead cs c'.spot := by
  have hle := hreach.length_le
  refine h.ahead ((reaches_moved_one hrest).trans hreach) ?_
  rw [hrest, List.length_cons]
  exact Nat.lt_succ_of_le hle

@[simp] theorem moved_moved (c : Cursor) (a b rest rest' : List Char) :
    (c.moved a rest).moved b rest' = c.moved (a ++ b) rest' := by
  simp [moved, Nat.add_assoc]

section values

variable {cs : List Char} {c : Cursor}

theorem breakWhere_of_test {test : List Char → Bool} {d : Char} {ds : List Char} (hrest : c.rest = d :: ds)
    (htest : test (d :: ds) = true) : c.breakWhere test = ([], c) := by
  rw [breakWhere, hrest, Text.breakWhere, if_pos htest]
  obtain ⟨offset, rest, faults⟩ := c
  cases hrest
  rfl

theorem breakWhere_of_not {test : List Char → Bool} {d : Char} {ds : List Char} (hrest : c.rest = d :: ds)
    (htest : test (d :: ds) = false) : (c.breakWhere test).2 = ((c.moved [d] ds).breakWhere test).2 := by
  rw [breakWhere, hrest, Text.breakWhere, if_neg (by simp [htest]), breakWhere]
  simp

/-- Past one character after the other, up to where a test holds. -/
theorem On.bumpUntil (h : c.On cs) {stop : Spot → UInt8 → Checked Bool} {test : List Char → Bool}
    (hstop : ∀ c : Cursor, c.On cs → ∀ b, (bytes c.rest).head? = some b → stop c.spot b = .ok (test c.rest)) :
    c.spot.bumpUntil cs stop = .ok (c.breakWhere test).2.spot := by
  induction hn : c.rest.length generalizing c with
  | zero =>
    have hrest : c.rest = [] := List.length_eq_zero_iff.1 hn
    rw [Spot.bumpUntil, offset_spot, h.peek, hrest]
    simp [breakWhere, hrest, Text.breakWhere, moved, spot]
  | succ n ih =>
    obtain ⟨d, ds, hrest⟩ := List.exists_cons_of_length_eq_add_one hn
    obtain ⟨b, hb, -⟩ := exists_head_bytes d ds
    have hhead : (bytes c.rest).head? = some b := by rw [hrest, hb]
    rw [Spot.bumpUntil, offset_spot, h.peek, hhead]
    simp only [hstop c h b hhead, ok_bind, h.bump hrest, pure_eq_ok]
    cases htest : test c.rest with
    | true => rw [if_pos rfl, breakWhere_of_test hrest (hrest ▸ htest)]
    | false =>
      have hahead := h.ahead_of_moved hrest (.refl _)
      rw [if_neg Bool.false_ne_true, dif_pos hahead, breakWhere_of_not hrest (hrest ▸ htest)]
      exact ih (h.reaches (reaches_moved_one hrest)) (by simpa [hrest] using hn)

/-- The first byte tells whether a value ends. -/
theorem On.endsValue (h : c.On cs) {quote : Option Char} (hquote : ∀ q ∈ quote, q.utf8Size = 1) {b : UInt8}
    (hb : (bytes c.rest).head? = some b) : c.spot.endsValue cs quote b = .ok (endsValue quote c.rest) := by
  cases hrest : c.rest with
  | nil => simp [hrest] at hb
  | cons d ds =>
    obtain ⟨b', hb', hbyte, hon⟩ := exists_head_bytes d ds
    obtain rfl : b' = b := Option.some.inj (hb'.symm.trans (hrest ▸ hb))
    cases quote with
    | some q =>
      exact congrArg Except.ok (beq_eq_beq.2 (hbyte q (hquote q rfl)))
    | none =>
      have hclose : (b' == byte '>') = (d == '>') := beq_eq_beq.2 (hbyte '>' (by decide))
      have hslash : c.startsWith ['/', '>'] = (d == '/' && ds.head? == some '>') := by
        rw [Cursor.startsWith, hrest, Bool.eq_iff_iff, startsWith_iff]
        cases ds with
        | nil => simp
        | cons e es => simp [List.cons_prefix_cons, @eq_comm _ '/' d, @eq_comm _ '>' e]
      simp only [Spot.endsValue, h.startsWith, ok_bind, hon isBlank size_of_isBlank, hclose, hslash, pure_eq_ok,
        Cursor.endsValue]

theorem On.endsValueText (h : c.On cs) {quote : Option Char} (hquote : ∀ q ∈ quote, q.utf8Size = 1) {b : UInt8}
    (hb : (bytes c.rest).head? = some b) :
    c.spot.endsValueText cs quote b = .ok (endsValueText quote c.rest) := by
  have hbrace : (b == byte '\x7b') = (c.rest.head? == some '\x7b') :=
    beq_eq_beq.2 (by rw [← head?_bytes (by decide), hb, Option.some_inj])
  simp only [Spot.endsValueText, h.endsValue hquote hb, ok_bind, hbrace, pure_eq_ok, Cursor.endsValueText]

theorem On.valueParts (h : c.On cs) (quote : Option Char) (hquote : ∀ q ∈ quote, q.utf8Size = 1) :
    c.spot.valueParts cs quote = .ok ((c.valueParts quote).1, (c.valueParts quote).2.spot) := by
  fun_induction Cursor.valueParts quote c with
  | case1 c hc =>
    rw [Spot.valueParts, offset_spot, h.peek, hc]
    rfl
  | case2 c d ds hc hend =>
    obtain ⟨b, hb, -⟩ := exists_head_bytes d ds
    rw [Spot.valueParts, offset_spot, h.peek, hc, hb]
    simp only [h.endsValue hquote (hc ▸ hb), hc, hend, ok_bind, if_true, pure_eq_ok]
  | case3 c ds hc hend inside he =>
    obtain ⟨b, hb, hbyte, -⟩ := exists_head_bytes '\x7b' ds
    obtain rfl := (hbyte '\x7b' (by decide)).2 rfl
    have hmove : c.spot.moveTo cs (c.offset + 1) = .ok (c.moved ['\x7b'] ds).spot := h.moveTo hc rfl
    have hbraced := (h.reaches (reaches_moved_one hc)).braced
    rw [Spot.valueParts, offset_spot, h.peek, hc, hb]
    simp only [h.endsValue hquote (hc ▸ hb), hc, eq_false_of_ne_true hend, ok_bind, Bool.false_eq_true, if_false, if_true,
      hmove, hbraced, pure_eq_ok]
    rw [he]
  | case4 c ds e hc hend inside he more ih =>
    obtain ⟨b, hb, hbyte, -⟩ := exists_head_bytes '\x7b' ds
    obtain rfl := (hbyte '\x7b' (by decide)).2 rfl
    have hone := reaches_moved_one hc
    have hmove : c.spot.moveTo cs (c.offset + 1) = .ok (c.moved ['\x7b'] ds).spot := h.moveTo hc rfl
    have hbraced := (h.reaches hone).braced
    have hahead : c.spot.Ahead cs inside.2.spot := h.ahead_of_moved hc (reaches_braced _)
    have hmore := ih ((h.reaches hone).reaches (reaches_braced _))
    rw [Spot.valueParts, offset_spot, h.peek, hc, hb]
    simp only [h.endsValue hquote (hc ▸ hb), hc, eq_false_of_ne_true hend, ok_bind, Bool.false_eq_true, if_false,
      if_true, hmove, hbraced, pure_eq_ok]
    simp only [show (c.moved ['\x7b'] ds).braced = inside from rfl, he, dif_pos hahead, hmore, ok_bind, spanFrom_spot]
    rfl
  | case5 c d ds hc hend hbrace text more ih =>
    obtain ⟨b, hb, hbyte, -⟩ := exists_head_bytes d ds
    have htext : c.spot.bumpUntil cs (Spot.endsValueText cs quote) = .ok text.2.spot :=
      h.bumpUntil fun c hc b hb => hc.endsValueText hquote hb
    have hreach := reaches_breakWhere c (Cursor.endsValueText quote)
    have hslice : Offsets.slice cs c.offset text.2.offset = .ok text.1 :=
      h.slice_eq (breakWhere_append (Cursor.endsValueText quote) c.rest).symm rfl
    have hahead : c.spot.Ahead cs text.2.spot :=
      h.ahead hreach (length_breakWhere hc (by simp [Cursor.endsValueText, hend, hbrace]))
    have hmore := ih (h.reaches hreach)
    rw [Spot.valueParts, offset_spot, h.peek, hc, hb]
    simp only [h.endsValue hquote (hc ▸ hb), hc, eq_false_of_ne_true hend, ok_bind, Bool.false_eq_true, if_false,
      if_neg (mt (hbyte _ (by decide)).1 hbrace), htext, offset_spot, hslice, dif_pos hahead, hmore, spanFrom_spot]
    rfl

theorem On.quoted (h : c.On cs) {q : Char} {ds : List Char} (hrest : c.rest = q :: ds) (hq : q = '"' ∨ q = '\'') :
    c.spot.quoted cs q = .ok (c.value.1, c.value.2.spot) := by
  have hsize : q.utf8Size = 1 := by
    rcases hq with rfl | rfl <;> decide
  have hmove : c.spot.moveTo cs (c.offset + 1) = .ok (c.moved [q] ds).spot := h.moveTo hrest (by simp [hsize])
  have hone := h.reaches (reaches_moved_one hrest)
  have hparts := hone.valueParts (some q) (by simpa using hsize)
  have heat := (hone.reaches (reaches_valueParts (some q) _)).eat? [q]
  have htest : (q = '"' || q = '\'') = true := by simpa using hq
  rw [Cursor.value, hrest]
  simp only [htest, if_true, Spot.quoted, offset_spot, hmove, ok_bind, hparts, heat]
  cases ((c.moved [q] ds).valueParts (some q)).2.eat? [q] <;> rfl

theorem On.unquoted (h : c.On cs) : c.spot.unquoted cs = .ok ((value.unquoted c).1, (value.unquoted c).2.spot) := by
  have hparts := h.valueParts none (by simp)
  simp only [Spot.unquoted, hparts, ok_bind, value.unquoted]
  rcases (c.valueParts none).1 with _ | ⟨_ | ⟨span, e⟩, _ | ⟨p, ps⟩⟩ <;> rfl

theorem On.value (h : c.On cs) : c.spot.value cs = .ok (c.value.1, c.value.2.spot) := by
  rw [Spot.value, offset_spot]
  by_cases hdouble : c.rest.head? = some '"'
  · obtain ⟨ds, hrest⟩ := List.head?_eq_some_iff.1 hdouble
    rw [if_pos ((h.peek_iff (by decide)).2 hdouble), h.quoted hrest (.inl rfl)]
  rw [if_neg (mt (h.peek_iff (by decide)).1 hdouble)]
  by_cases hsingle : c.rest.head? = some '\''
  · obtain ⟨ds, hrest⟩ := List.head?_eq_some_iff.1 hsingle
    rw [if_pos ((h.peek_iff (by decide)).2 hsingle), h.quoted hrest (.inr rfl)]
  rw [if_neg (mt (h.peek_iff (by decide)).1 hsingle), h.unquoted, Cursor.value]
  cases hrest : c.rest with
  | nil => rfl
  | cons d ds =>
    have hnot : (d = '"' || d = '\'') = false := by
      rw [hrest, List.head?_cons, Option.some_inj] at hdouble hsingle
      simp [hdouble, hsingle]
    simp only [hnot, Bool.false_eq_true, if_false]

end values

/-! ### Attributes -/

section attributes

variable {source : String} {c : Cursor}

/-- What follows a piece in an expression is found from the end of its span, which is kept in 32 bits. -/
theorem suffix?_eq (hsmall : width source.toList < 0x100000000) {e : Expression} (he : e.Placed source)
    (piece : List Char) : suffix? source.toList e piece
      = .ok ((strip? piece e.text.toList).map (.ofRaw (e.span.start + width piece))) := by
  rw [suffix?]
  cases hstrip : strip? piece e.text.toList with
  | none => rfl
  | some rest =>
    obtain ⟨hstands, hstop⟩ := Span.stands_of_slice? he.slice
    have htext := strip?_eq_some_iff.1 hstrip
    rw [htext] at hstands
    have hwidth : e.span.stop = e.span.start + width piece + width rest := by
      rw [hstop, htext, width_append, Nat.add_assoc]
    have hstart : e.span.stop - width rest = e.span.start + width piece := by omega
    simp only [ofOffsets_of_cuts hsmall he.cuts, minus_eq (Nat.le.intro (Nat.add_comm _ _ ▸ hwidth.symm)), hstart,
      ok_bind, expression_of_stands hstands.right hwidth]
    rfl

theorem bracedAttribute_eq (hsmall : width source.toList < 0x100000000) {e : Expression} (he : e.Placed source)
    (span : Span) : Offsets.bracedAttribute source.toList span e = .ok (Cursor.bracedAttribute span e) := by
  simp only [Offsets.bracedAttribute, suffix?_eq hsmall he, ok_bind, Cursor.bracedAttribute]
  cases strip? ['.', '.', '.'] e.text.toList with
  | some rest => rfl
  | none => cases strip? ['@', 'a', 't', 't', 'a', 'c', 'h'] e.text.toList <;> rfl

theorem On.readName {cs : List Char} (h : c.On cs) : c.spot.readUntil cs Offsets.endsName
    = .ok ((c.breakWhere Cursor.endsName).1, (c.breakWhere Cursor.endsName).2.spot) := by
  refine h.readUntil false (fun b next hb => ?_) (fun d ds hd => ?_) fun d ds hd => ?_
  · rw [Offsets.endsName, onByte_of_high hb, beq_eq_false_iff_ne.2 (ne_byte_of_high (by decide) hb)]
    rfl
  · have hslash : (d == '/') = false := beq_eq_false_iff_ne.2 fun he => hd (he ▸ rfl)
    have hcloses : closesName d = false := eq_false_of_ne_true (mt size_of_closesName hd)
    rw [show Cursor.endsName (d :: ds) = (closesName d || (d == '/' && ds.head? == some '>')) from rfl, hslash,
      hcloses]
    rfl
  · have hslash : (byte d == byte '/') = (d == '/') := beq_eq_beq.2 (byte_inj hd (by decide))
    have hnext : ((bytes ds).head? == some (byte '>')) = (ds.head? == some '>') :=
      beq_eq_beq.2 (head?_bytes (by decide))
    rw [Offsets.endsName, onByte_byte hd, hslash, hnext]
    rfl

theorem On.braces (h : c.On source.toList) (hsmall : width source.toList < 0x100000000) {ds : List Char}
    (hrest : c.rest = '\x7b' :: ds) : c.spot.braces source.toList = .ok (c.attribute?.1, c.attribute?.2.spot) := by
  have hone := h.reaches (reaches_moved_one hrest)
  have hmove : c.spot.moveTo source.toList (c.offset + 1) = .ok (c.moved ['\x7b'] ds).spot := h.moveTo hrest rfl
  rw [Cursor.attribute?, hrest]
  simp only [if_true, Spot.braces, offset_spot, hmove, ok_bind, hone.braced]
  cases hinner : (c.moved ['\x7b'] ds).braced.1 with
  | none => rfl
  | some e =>
    simp only [bracedAttribute_eq hsmall (hone.placed_braced hinner), ok_bind, spanFrom_spot]
    cases Cursor.bracedAttribute ((c.moved ['\x7b'] ds).braced.2.spanFrom c.offset) e <;> rfl

theorem On.named {cs : List Char} (h : c.On cs) (start : Nat) (name : List Char) :
    c.spot.named cs start name = .ok (match c.skipBlanks.eat? ['='] with
      | some c' => (some (namedAttribute (c'.skipBlanks.value.2.spanFrom start) name c'.skipBlanks.value.1),
          c'.skipBlanks.value.2.spot)
      | none => (some (namedAttribute (c.spanFrom start) name .absent), c.spot)) := by
  have hblanks := h.reaches (reaches_skipBlanks c)
  simp only [Spot.named, h.skipBlanks, ok_bind, hblanks.eat?]
  cases heat : c.skipBlanks.eat? ['='] with
  | none => rfl
  | some c' =>
    have hon := hblanks.reaches (reaches_eat? heat).1
    simp only [Option.map_some, hon.skipBlanks, ok_bind, (hon.reaches (reaches_skipBlanks c')).value, spanFrom_spot,
      pure_eq_ok]

/-- Before the end of the text an attribute is read as the cursor reads it. -/
theorem On.attribute? (h : c.On source.toList) (hsmall : width source.toList < 0x100000000) (hne : c.rest ≠ []) :
    c.spot.attribute? source.toList = .ok (c.attribute?.1, c.attribute?.2.spot) := by
  rw [Spot.attribute?, offset_spot]
  by_cases hbrace : c.rest.head? = some '\x7b'
  · obtain ⟨ds, hrest⟩ := List.head?_eq_some_iff.1 hbrace
    rw [if_pos ((h.peek_iff (by decide)).2 hbrace), h.braces hsmall hrest]
  rw [if_neg (mt (h.peek_iff (by decide)).1 hbrace), h.readName, ok_bind]
  obtain ⟨d, ds, hrest⟩ := List.exists_cons_of_ne_nil hne
  have hd : d ≠ '\x7b' := fun he => hbrace (by rw [hrest, he]; rfl)
  have hname := h.reaches (reaches_breakWhere c Cursor.endsName)
  rw [Cursor.attribute?, hrest]
  simp only [if_neg hd]
  cases (c.breakWhere Cursor.endsName).1.isEmpty with
  | true =>
    simp only [if_true, h.rest, ok_bind, h.bump hrest]
    rw [hrest]
    rfl
  | false =>
    simp only [Bool.false_eq_true, if_false, hname.named]
    cases (c.breakWhere Cursor.endsName).2.skipBlanks.eat? ['='] <;> rfl

theorem On.endsAttributes {cs : List Char} (h : c.On cs) :
    c.spot.endsAttributes cs = .ok c.endsAttributes := by
  simp only [Spot.endsAttributes, h.atEnd, h.startsWith, ok_bind]
  rfl

/-- All attributes of a tag are read as the cursor reads them, and each moves on. -/
theorem On.attributes (h : c.On source.toList) (hsmall : width source.toList < 0x100000000) :
    c.spot.attributes source.toList = .ok (c.attributes.1, c.attributes.2.spot) := by
  fun_induction Cursor.attributes c with
  | case1 c hends =>
    have hblanks := h.reaches (reaches_skipBlanks c)
    rw [Spot.attributes, h.skipBlanks, ok_bind]
    simp only [hblanks.endsAttributes, hends, ok_bind, if_true, pure_eq_ok]
  | case2 c hends first more ih =>
    have hblanks := h.reaches (reaches_skipBlanks c)
    have hne : c.skipBlanks.rest ≠ [] := fun hnil => hends (by simp [Cursor.endsAttributes, Cursor.atEnd, hnil])
    have hreach := reaches_attribute? c.skipBlanks
    have hahead : c.spot.offset ≤ c.skipBlanks.spot.offset ∧ c.skipBlanks.spot.Ahead source.toList first.2.spot :=
      ⟨(reaches_skipBlanks c).offset_le, hblanks.ahead hreach (length_attribute? hne)⟩
    have hfirst : c.skipBlanks.spot.attribute? source.toList = .ok (first.1, first.2.spot) :=
      hblanks.attribute? hsmall hne
    rw [Spot.attributes, h.skipBlanks, ok_bind]
    simp only [hblanks.endsAttributes, eq_false_of_ne_true hends, ok_bind, Bool.false_eq_true, if_false, hfirst,
      dif_pos hahead, ih (hblanks.reaches hreach)]
    rfl

end attributes

end Cursor

end Restyle.Markup
