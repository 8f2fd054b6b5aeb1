import Restyle.Proofs.Offsets.Attributes

/-! Nodes by byte offsets. -/

namespace Restyle.Markup

open Text

namespace Offsets

/-! ### Searches -/

/-- The offset of the last place of a character in a text. -/
def findLast? (d : Char) : List Char → Option Nat
  | [] => none
  | c :: cs =>
    match findLast? d cs with
    | some n => some (c.utf8Size + n)
    | none => if c = d then some 0 else none

namespace Spot

variable (cs : List Char)

/-! ### The end of a fragment -/

/-- The closing tag of the element that starts at an offset. -/
def closeTag (name : String) (start : Nat) (s : Spot) : Checked Spot := do
  match ← s.eat? cs ['<', '/'] with
  | none => return s.fault (.unclosedTag name) (s.spanFrom start)
  | some s' =>
    let found ← s'.tagName cs
    let s'' ← (← found.2.skipBlanks cs).expect cs ['>']
    return if String.ofList found.1 = name then s''
      else s''.fault (.mismatchedClosingTag name (String.ofList found.1)) (s''.spanFrom s.offset)

/-- The closing tag of the block that starts at an offset. -/
def closeBlock (keyword : String) (start : Nat) (s : Spot) : Checked Spot := do
  match ← s.eat? cs ['\x7b', '/'] with
  | none => return s.fault (.unclosedBlock keyword) (s.spanFrom start)
  | some s' =>
    let found ← s'.word cs
    let s'' ← (← found.2.skipBlanks cs).expect cs ['\x7d']
    return if String.ofList found.1 = keyword then s''
      else
        let reason := "expected `\x7b/" ++ keyword ++ "\x7d`, found `\x7b/" ++ String.ofList found.1 ++ "\x7d`"
        s''.fault (.invalidBlock reason) (s''.spanFrom s.offset)

/-- A tag that continues a block: its keyword and the text after it. -/
def continuation? (s : Spot) : Checked (Option (String × Expression) × Spot) := do
  match ← s.eat? cs ['\x7b', ':'] with
  | none => return (none, s)
  | some s' =>
    let keyword ← s'.word cs
    let rest ← keyword.2.braced cs
    return (rest.1.map fun e => (String.ofList keyword.1, e), rest.2)

/-- A tag that ends the fragment being read, or the end of the text. -/
def endsFragment (s : Spot) : Checked Bool := do
  return s.atEnd cs || (← s.startsWith cs ['<', '/']) || (← s.startsWith cs ['\x7b', ':'])
    || (← s.startsWith cs ['\x7b', '/'])

/-! ### Elements -/

/-- A cursor that has nothing to read, for what reads nothing. -/
def cursor (s : Spot) : Cursor := ⟨s.offset, [], s.faults⟩

/-- The node of an element that has been read up to the spot. -/
def leaf (start : Nat) (name : String) (attributes : List Attribute) (content : Fragment) (selfClosing : Bool)
    (s : Spot) : Found × Spot :=
  let node := elementNode s.cursor start name attributes content selfClosing
  (.node node.1, node.2.spot)

/-- Raw text up to the closing tag of the given name. -/
def rawContent (name : String) (s : Spot) : Checked (Fragment × Spot) := do
  let found := find? ('<' :: '/' :: name.toList) (← s.rest cs)
  let s' ← s.moveTo cs ((found.map (s.offset + ·)).getD (width cs))
  let span := s'.spanFrom s.offset
  if span.isEmpty then return (⟨[], span⟩, s')
  else return (⟨[.text span (String.ofList (← sliceSpan cs span))], span⟩, s')

/-- The first of two places, or the end of a text. -/
def firstOf (rest : List Char) : Option Nat → Option Nat → Nat
  | some m, some n => min m n
  | some m, none => m
  | none, some n => n
  | none, none => width rest

/-- Text and expressions up to a closing tag. -/
def textNodes (closing : List Char) (s : Spot) : Checked (List Node × Spot) := do
  if s.atEnd cs || (← s.startsWith cs closing) then return ([], s)
  else if peek cs s.offset = some (byte '\x7b') then
    let inside ← (← s.moveTo cs (s.offset + 1)).braced cs
    if _h : s.Ahead cs inside.2 then
      let more ← textNodes closing inside.2
      return match inside.1 with
        | none => more
        | some e => (.expression (inside.2.spanFrom s.offset) e :: more.1, more.2)
    else throw .stuck
  else
    let rest ← s.rest cs
    let s' ← s.moveTo cs (s.offset + firstOf rest (find? ['\x7b'] rest) (find? closing rest))
    let text ← sliceSpan cs (s'.spanFrom s.offset)
    if _h : s.Ahead cs s' then
      let more ← textNodes closing s'
      return (.text (s'.spanFrom s.offset) (String.ofList text) :: more.1, more.2)
    else throw .stuck
termination_by width cs - s.offset
decreasing_by
  · exact _h.closer
  · exact _h.closer

def textContent (name : String) (s : Spot) : Checked (Fragment × Spot) := do
  let nodes ← s.textNodes cs ('<' :: '/' :: name.toList)
  return (⟨nodes.1, nodes.2.spanFrom s.offset⟩, nodes.2)

/-- An element whose name and attributes have been read; one with markup inside opens a frame. -/
def element (start : Nat) (name : String) (attributes : List Attribute) (s : Spot) : Checked (Found × Spot) := do
  let leaf := leaf start name attributes
  match ← s.eat? cs ['/', '>'] with
  | some s' => return leaf ⟨[], .point s'.offset⟩ true s'
  | none =>
    let empty : Fragment := ⟨[], .point s.offset⟩
    match ← s.eat? cs ['>'] with
    | none => return leaf empty false (s.fault (.unclosedTag name) (s.spanFrom start))
    | some s' =>
      if isRawTextElement name then
        let content ← s'.rawContent cs name
        return leaf content.1 false (← content.2.closeTag cs name start)
      else if isTextElement name then
        let content ← s'.textContent cs name
        return leaf content.1 false (← content.2.closeTag cs name start)
      else if isVoidElement name then return leaf empty false s'
      else return (.opened ⟨.element name attributes, start, s'.offset, []⟩, s')

/-- An element from its opening tag on. -/
def readElement (s : Spot) : Checked (Found × Spot) := do
  let name ← (← s.moveTo cs (s.offset + 1)).tagName cs
  let attributes ← name.2.attributes cs
  attributes.2.element cs s.offset (String.ofList name.1) attributes.1

/-! ### Other nodes -/

/-- A character that makes a tag or a comment of an angle bracket before it. -/
def opensTag (c : Char) : Bool := c.isAlpha || c == '/' || c == '!'

/-- Markup begins at the byte at a spot, if the one after it says so. -/
def opensMarkup (s : Spot) (b : UInt8) : Checked Bool :=
  .ok (b == byte '\x7b' || (b == byte '<' && (peek cs (s.offset + 1)).any (onByte opensTag)))

/-- One character and then text up to the next markup. -/
def readText (s : Spot) : Checked (Found × Spot) := do
  let s' ← (← s.bump cs).bumpUntil cs (opensMarkup cs)
  return (.node (.text (s'.spanFrom s.offset) (String.ofList (← slice cs s.offset s'.offset))), s')

/-- A comment after its opening. -/
def readComment (start : Nat) (s : Spot) : Checked (Found × Spot) := do
  let rest ← s.rest cs
  match find? ['-', '-', '>'] rest with
  | some n =>
    let data ← slice rest 0 n
    let s' ← s.moveTo cs (s.offset + (n + 3))
    return (.node (.comment (s'.spanFrom start) (String.ofList data)), s')
  | none =>
    let s' ← s.moveTo cs (width cs)
    return (.node (.comment (s'.spanFrom start) (String.ofList rest)),
      s'.fault .unclosedComment (s'.spanFrom start))

/-- A special tag after its opening. -/
def readTag (start : Nat) (s : Spot) : Checked (Found × Spot) := do
  let keyword ← s.word cs
  let inside ← keyword.2.braced cs
  match inside.1 with
  | none => return (.nothing, inside.2)
  | some e =>
    let span := inside.2.spanFrom start
    match TagKind.ofName? (String.ofList keyword.1) with
    | some kind => return (.node (.tag span kind e), inside.2)
    | none =>
      let reason := "unknown tag `\x7b@" ++ String.ofList keyword.1 ++ "\x7d`"
      return (.nothing, inside.2.fault (.invalidBlock reason) span)

/-- The parameters of a snippet, between two parentheses. -/
def snippetParameters (header : List Char) : Checked (List Char) :=
  match find? ['('] header, findLast? ')' header with
  | some opening, some closing =>
    if opening < closing then slice header (opening + 1) closing else .ok []
  | _, _ => .ok []

/-- The name and the parameters of a snippet. -/
def snippetParts (header : String) : Checked (String × String) := do
  let name ← slice header.toList 0 (width (header.toList.takeWhile fun c => c ≠ '(' && c ≠ '<'))
  let parameters ← snippetParameters header.toList
  return (String.ofList (trim name), String.ofList (trim parameters))

/-- A block after its opening. -/
def readBlock (start : Nat) (s : Spot) : Checked (Found × Spot) := do
  let keyword ← s.word cs
  let header ← keyword.2.braced cs
  match header.1 with
  | none => return (.nothing, header.2)
  | some e =>
    let frame (opened : Opened) : Found × Spot := (.opened ⟨opened, start, header.2.offset, []⟩, header.2)
    match String.ofList keyword.1 with
    | "if" => return frame (.consequent false e)
    | "each" => return frame (.eachBody e)
    | "await" => return frame (.awaitBranch e {} (firstSlot e))
    | "key" => return frame (.key e)
    | "snippet" =>
      let parts ← snippetParts e.text
      return frame (.snippet parts.1 parts.2)
    | other =>
      let reason := "unknown block `\x7b#" ++ other ++ "\x7d`"
      return (.nothing, header.2.fault (.invalidBlock reason) (header.2.spanFrom start))

/-- An expression after its opening brace. -/
def readExpression (start : Nat) (s : Spot) : Checked (Found × Spot) := do
  let inside ← s.braced cs
  match inside.1 with
  | none => return (.nothing, inside.2)
  | some e => return (.node (.expression (inside.2.spanFrom start) e), inside.2)

/-- One node, or the opening of one. -/
def readNode (s : Spot) : Checked (Found × Spot) := do
  if let some s' ← s.eat? cs ['<', '!', '-', '-'] then s'.readComment cs s.offset
  else if peek cs s.offset = some (byte '<') ∧ (peek cs (s.offset + 1)).any (onByte Char.isAlpha) then
    s.readElement cs
  else if let some s' ← s.eat? cs ['\x7b', '#'] then s'.readBlock cs s.offset
  else if let some s' ← s.eat? cs ['\x7b', '@'] then s'.readTag cs s.offset
  else if let some s' ← s.eat? cs ['\x7b'] then s'.readExpression cs s.offset
  else s.readText cs

end Spot

/-! ### What searches find -/

variable {cs piece rest : List Char} {c : Char}

theorem find?_cons (piece : List Char) (c : Char) (cs : List Char) : find? piece (c :: cs)
    = if Text.startsWith piece (c :: cs) then some 0 else (find? piece cs).map (c.utf8Size + ·) := by
  rw [find?, breakOn?]
  split
  · rfl
  · simp [find?, Function.comp_def]

/-- A search for a piece breaks the text where the piece begins. -/
theorem breakWhere_startsWith (hp : piece ≠ []) (cs : List Char) :
    breakWhere (Text.startsWith piece) cs = (breakOn? piece cs).getD (cs, []) := by
  induction cs with
  | nil => simp [breakWhere, breakOn?, hp]
  | cons c cs ih =>
    rw [breakWhere, breakOn?]
    split
    · rfl
    · rw [ih]
      cases breakOn? piece cs <;> rfl

theorem find?_singleton (c : Char) (cs : List Char) :
    find? [c] cs = if c ∈ cs then some (width (cs.takeWhile (· ≠ c))) else none := by
  induction cs with
  | nil => rfl
  | cons d cs ih =>
    rw [find?_cons, ih]
    by_cases hd : d = c
    · subst hd
      simp [Text.startsWith, strip?]
    · have hstart : Text.startsWith [c] (d :: cs) = false := by
        rw [Text.startsWith, strip?, if_neg (Ne.symm hd)]
        rfl
      by_cases hmem : c ∈ cs <;> simp [hstart, hmem, hd, Ne.symm hd]

theorem find?_append_cons {a : List Char} (h : c ∉ a) (b : List Char) : find? [c] (a ++ c :: b) = some (width a) := by
  have ha : ∀ d ∈ a, decide (d ≠ c) = true := fun d hd => by simpa using fun he : d = c => h (he ▸ hd)
  rw [find?_singleton, if_pos (List.mem_append_right _ (List.mem_cons_self ..)), List.takeWhile_append_of_pos ha,
    List.takeWhile_cons_of_neg (by simp), List.append_nil]

theorem find?_getD (hp : piece ≠ []) (cs : List Char) :
    (find? piece cs).getD (width cs) = width (breakWhere (Text.startsWith piece) cs).1 := by
  rw [breakWhere_startsWith hp, find?]
  cases breakOn? piece cs <;> rfl

theorem firstOf_map (c : Char) (cs : List Char) (m n : Option Nat) :
    Spot.firstOf (c :: cs) (m.map (c.utf8Size + ·)) (n.map (c.utf8Size + ·)) = c.utf8Size + Spot.firstOf cs m n := by
  cases m <;> cases n <;> simp [Spot.firstOf, Nat.add_min_add_left]

/-- The first of two pieces is where one of them begins first. -/
theorem firstOf_eq (hp : piece ≠ []) (cs : List Char) : Spot.firstOf cs (find? ['\x7b'] cs) (find? piece cs)
    = width (breakWhere (fun cs => cs.head? == some '\x7b' || Text.startsWith piece cs) cs).1 := by
  induction cs with
  | nil => simp [find?, breakOn?, hp, Spot.firstOf, breakWhere]
  | cons c cs ih =>
    have hbrace : Text.startsWith ['\x7b'] (c :: cs) = ((c :: cs).head? == some '\x7b') := by
      rw [Bool.eq_iff_iff, startsWith_iff]
      simp [List.cons_prefix_cons, @eq_comm _ '\x7b' c]
    rw [find?_cons, find?_cons, breakWhere, hbrace]
    cases (c :: cs).head? == some '\x7b' with
    | true => cases Text.startsWith piece (c :: cs) <;> cases find? piece cs <;> simp [Spot.firstOf]
    | false =>
      cases Text.startsWith piece (c :: cs) with
      | true => cases find? ['\x7b'] cs <;> simp [Spot.firstOf]
      | false => simpa [firstOf_map] using ih

theorem findLast?_eq_none {d : Char} (h : d ∉ cs) : findLast? d cs = none := by
  induction cs with
  | nil => rfl
  | cons c cs ih =>
    obtain ⟨hc, hcs⟩ : d ≠ c ∧ d ∉ cs := by simpa using h
    rw [findLast?, ih hcs]
    exact if_neg (Ne.symm hc)

theorem findLast?_append {d : Char} {b : List Char} (h : d ∉ b) (a : List Char) :
    findLast? d (a ++ b) = findLast? d a := by
  induction a with
  | nil => exact findLast?_eq_none h
  | cons c a ih => rw [List.cons_append, findLast?, findLast?, ih]

theorem findLast?_append_cons {d : Char} {b : List Char} (h : d ∉ b) (a : List Char) :
    findLast? d (a ++ d :: b) = some (width a) := by
  induction a with
  | nil =>
    rw [List.nil_append, findLast?, findLast?_eq_none h]
    exact if_pos rfl
  | cons c a ih =>
    rw [List.cons_append, findLast?, ih]
    rfl

theorem findLast?_le {d : Char} {n : Nat} (h : findLast? d cs = some n) : n ≤ width cs := by
  induction cs generalizing n with
  | nil => cases h
  | cons c cs ih =>
    rw [findLast?] at h
    rw [width_cons]
    cases htail : findLast? d cs with
    | some m =>
      rw [htail] at h
      obtain rfl := Option.some.inj h
      exact Nat.add_le_add_left (ih htail) _
    | none =>
      rw [htail] at h
      obtain ⟨-, hzero⟩ := Option.ite_none_right_eq_some.1 h
      exact Option.some.inj hzero ▸ Nat.zero_le _

end Offsets

namespace Cursor

open Offsets

/-! ### What the cursor does -/

section searches

variable {c : Cursor} {piece : List Char}

theorem breakWhere_of_find?_eq_none (hp : piece ≠ []) (h : find? piece c.rest = none) :
    c.breakWhere (Text.startsWith piece) = (c.rest, c.toEnd) ∧ c.toEnd.eat? piece = none := by
  rw [find?, Option.map_eq_none_iff] at h
  rw [Cursor.breakWhere, breakWhere_startsWith hp, h]
  refine ⟨rfl, ?_⟩
  rw [Cursor.eat?, toEnd, rest_moved]
  cases piece with
  | nil => exact absurd rfl hp
  | cons p ps => rfl

theorem breakWhere_of_find?_eq_some {n : Nat} (hp : piece ≠ []) (h : find? piece c.rest = some n) :
    ∃ read tail, c.rest = read ++ (piece ++ tail) ∧
      c.breakWhere (Text.startsWith piece) = (read, c.moved read (piece ++ tail)) ∧ width read = n := by
  obtain ⟨⟨read, rest⟩, hbreak, hwidth⟩ := Option.map_eq_some_iff.1 h
  obtain ⟨hrest, hstarts⟩ := breakOn?_append hbreak
  obtain ⟨tail, htail⟩ := Option.isSome_iff_exists.1 hstarts
  obtain rfl := strip?_eq_some_iff.1 htail
  refine ⟨read, tail, hrest, ?_, hwidth⟩
  rw [Cursor.breakWhere, breakWhere_startsWith hp, hbreak]
  rfl

theorem eat?_moved (c : Cursor) (read piece tail : List Char) :
    (c.moved read (piece ++ tail)).eat? piece = some (c.moved (read ++ piece) tail) := by
  rw [Cursor.eat?, rest_moved, strip?_eq_some_iff.2 rfl, Option.map_some, moved_moved]

end searches

section ends

variable {cs : List Char} {c : Cursor}

theorem On.closeTag (h : c.On cs) (name : String) (start : Nat) :
    c.spot.closeTag cs name start = .ok (c.closeTag name start).spot := by
  rw [Spot.closeTag, h.eat?, ok_bind, Cursor.closeTag]
  cases heat : c.eat? ['<', '/'] with
  | none => rfl
  | some c' =>
    have hopen := h.reaches (reaches_eat? heat).1
    have hname := hopen.reaches (reaches_takeWhile c' (!endsTagName ·))
    have hblanks := hname.reaches (reaches_skipBlanks _)
    simp only [Option.map_some, hopen.tagName, hname.skipBlanks, hblanks.expect, ok_bind, pure_eq_ok]
    split <;> rfl

theorem On.closeBlock (h : c.On cs) (keyword : String) (start : Nat) :
    c.spot.closeBlock cs keyword start = .ok (c.closeBlock keyword start).spot := by
  rw [Spot.closeBlock, h.eat?, ok_bind, Cursor.closeBlock]
  cases heat : c.eat? ['\x7b', '/'] with
  | none => rfl
  | some c' =>
    have hopen := h.reaches (reaches_eat? heat).1
    have hword : c'.word.2.On cs := hopen.reaches (reaches_takeWhile c' Char.isAlpha)
    have hblanks := hword.reaches (reaches_skipBlanks _)
    simp only [Option.map_some, hopen.word, hword.skipBlanks, hblanks.expect, ok_bind, pure_eq_ok]
    split <;> rfl

theorem On.continuation? (h : c.On cs) :
    c.spot.continuation? cs = .ok (c.continuation?.1, c.continuation?.2.spot) := by
  rw [Spot.continuation?, h.eat?, ok_bind, Cursor.continuation?]
  cases heat : c.eat? ['\x7b', ':'] with
  | none => rfl
  | some c' =>
    have hopen := h.reaches (reaches_eat? heat).1
    have hword : c'.word.2.On cs := hopen.reaches (reaches_takeWhile c' Char.isAlpha)
    simp only [Option.map_some, hopen.word, hword.braced, ok_bind, pure_eq_ok]

theorem On.endsFragment (h : c.On cs) : c.spot.endsFragment cs = .ok c.endsFragment := by
  simp only [Spot.endsFragment, h.atEnd, h.startsWith, ok_bind]
  rfl

end ends

/-! ### Elements -/

section elements

variable {cs : List Char} {c : Cursor}

/-- The node of an element is made without reading. -/
theorem elementNode_spot (start : Nat) (name : String) (attributes : List Attribute) (content : Fragment)
    (selfClosing : Bool) (c : Cursor) :
    (elementNode c.spot.cursor start name attributes content selfClosing).1
        = (elementNode c start name attributes content selfClosing).1 ∧
      (elementNode c.spot.cursor start name attributes content selfClosing).2.spot
        = (elementNode c start name attributes content selfClosing).2.spot := by
  unfold elementNode
  dsimp only
  split
  · exact ⟨rfl, rfl⟩
  · split <;> exact ⟨rfl, rfl⟩

theorem leaf_spot (start : Nat) (t : OpeningTag) (content : Fragment) (selfClosing : Bool) (c : Cursor) :
    Spot.leaf start t.name t.attributes content selfClosing c.spot
      = ((t.leaf start content selfClosing c).1, (t.leaf start content selfClosing c).2.spot) := by
  obtain ⟨hnode, hspot⟩ := elementNode_spot start t.name t.attributes content selfClosing c
  rw [Spot.leaf, OpeningTag.leaf, hnode, hspot]

theorem isEmpty_spanFrom (test : List Char → Bool) (c : Cursor) :
    ((c.breakWhere test).2.spanFrom c.offset).isEmpty = (c.breakWhere test).1.isEmpty := by
  show (c.offset == c.offset + width (c.breakWhere test).1) = _
  cases (c.breakWhere test).1 with
  | nil => simp
  | cons d ds =>
    have hpos := d.utf8Size_pos
    simp only [width_cons, List.isEmpty_cons, beq_eq_false_iff_ne]
    omega

theorem On.sliceSpan (h : c.On cs) (hsmall : width cs < 0x100000000) (test : List Char → Bool) :
    Offsets.sliceSpan cs ((c.breakWhere test).2.spanFrom c.offset) = .ok (c.breakWhere test).1 := by
  rw [sliceSpan_eq hsmall (h.cuts (reaches_breakWhere c test))]
  exact h.slice_eq (breakWhere_append test c.rest).symm rfl

theorem On.moveTo_breakWhere (h : c.On cs) (test : List Char → Bool) {offset : Nat}
    (hoffset : offset = c.offset + width (Text.breakWhere test c.rest).1) :
    c.spot.moveTo cs offset = .ok (c.breakWhere test).2.spot :=
  h.moveTo (breakWhere_append test c.rest).symm hoffset

theorem On.width_eq (h : c.On cs) : width cs = c.offset + width c.rest := by
  obtain ⟨before, rfl, hoffset⟩ := h
  rw [width_append, hoffset]

theorem On.rawContent (h : c.On cs) (hsmall : width cs < 0x100000000) (name : String) :
    c.spot.rawContent cs name = .ok ((c.rawContent name).1, (c.rawContent name).2.spot) := by
  have hclosing : '<' :: '/' :: name.toList ≠ [] := List.cons_ne_nil _ _
  have hmove := h.moveTo_breakWhere (Text.startsWith ('<' :: '/' :: name.toList))
    (congrArg (c.offset + ·) (find?_getD hclosing c.rest))
  have hfound : ((find? ('<' :: '/' :: name.toList) c.rest).map (c.offset + ·)).getD (width cs)
      = c.offset + (find? ('<' :: '/' :: name.toList) c.rest).getD (width c.rest) := by
    rw [h.width_eq]
    cases find? ('<' :: '/' :: name.toList) c.rest <;> rfl
  simp only [Spot.rawContent, h.rest, ok_bind, offset_spot, hfound, hmove, spanFrom_spot, isEmpty_spanFrom,
    h.sliceSpan hsmall, pure_eq_ok, Cursor.rawContent]
  split <;> rfl

/-- Before a closing tag an expression in braces is read, and what is left after it. -/
theorem On.textNodes_brace (h : c.On cs) {closing ds : List Char} (hrest : c.rest = '\x7b' :: ds)
    (hnot : Text.startsWith closing ('\x7b' :: ds) = false) : c.spot.textNodes cs closing = (do
      let inside := (c.moved ['\x7b'] ds).braced
      let more ← inside.2.spot.textNodes cs closing
      return match inside.1 with
        | none => more
        | some e => (.expression (inside.2.spanFrom c.offset) e :: more.1, more.2)) := by
  have hone := reaches_moved_one hrest
  have hend : c.atEnd = false := by rw [Cursor.atEnd, hrest]; rfl
  have hstart : c.startsWith closing = false := by rwa [Cursor.startsWith, hrest]
  have hpeek : Offsets.peek cs c.offset = some (byte '\x7b') := (h.peek_iff (by decide)).2 (by rw [hrest]; rfl)
  have hmove : c.spot.moveTo cs (c.offset + 1) = .ok (c.moved ['\x7b'] ds).spot := h.moveTo hrest rfl
  have hahead : c.spot.Ahead cs (c.moved ['\x7b'] ds).braced.2.spot := h.ahead_of_moved hrest (reaches_braced _)
  rw [Spot.textNodes]
  simp only [h.atEnd, h.startsWith, hend, hstart, ok_bind, Bool.or_self, Bool.false_eq_true, if_false, offset_spot,
    hpeek, if_true, hmove, (h.reaches hone).braced, dif_pos hahead, spanFrom_spot]

/-- Before a closing tag text is read, and what is left after it. -/
theorem On.textNodes_text (h : c.On cs) (hsmall : width cs < 0x100000000) {closing ds : List Char} {d : Char}
    (hclosing : closing ≠ []) (hrest : c.rest = d :: ds) (hnot : Text.startsWith closing (d :: ds) = false)
    (hbrace : d ≠ '\x7b') : c.spot.textNodes cs closing = (do
      let text := c.breakWhere fun cs => cs.head? == some '\x7b' || Text.startsWith closing cs
      let more ← text.2.spot.textNodes cs closing
      return (.text (text.2.spanFrom c.offset) (String.ofList text.1) :: more.1, more.2)) := by
  have hend : c.atEnd = false := by rw [Cursor.atEnd, hrest]; rfl
  have hstart : c.startsWith closing = false := by rwa [Cursor.startsWith, hrest]
  have hpeek : Offsets.peek cs c.offset ≠ some (byte '\x7b') := by
    rw [Ne, h.peek_iff (by decide), hrest]
    simpa using hbrace
  have hmove := h.moveTo_breakWhere (fun cs => cs.head? == some '\x7b' || Text.startsWith closing cs)
    (congrArg (c.offset + ·) (firstOf_eq hclosing c.rest))
  have hahead : c.spot.Ahead cs (c.breakWhere fun cs => cs.head? == some '\x7b' || Text.startsWith closing cs).2.spot :=
    h.ahead (reaches_breakWhere c _) (length_breakWhere hrest (by simp [hbrace, hnot]))
  rw [Spot.textNodes]
  simp only [h.atEnd, h.startsWith, hend, hstart, ok_bind, Bool.or_self, Bool.false_eq_true, if_false, offset_spot,
    if_neg hpeek, h.rest, hmove, spanFrom_spot, h.sliceSpan hsmall, dif_pos hahead]

theorem On.textNodes (h : c.On cs) (hsmall : width cs < 0x100000000) {closing : List Char} (hclosing : closing ≠ []) :
    c.spot.textNodes cs closing = .ok ((c.textNodes closing).1, (c.textNodes closing).2.spot) := by
  fun_induction Cursor.textNodes closing c with
  | case1 c hc =>
    have hend : c.atEnd = true := by rw [Cursor.atEnd, hc]; rfl
    rw [Spot.textNodes, h.atEnd, h.startsWith, hend]
    rfl
  | case2 c d ds hc hstart =>
    have hstart' : c.startsWith closing = true := by rwa [Cursor.startsWith, hc]
    rw [Spot.textNodes, h.atEnd, h.startsWith, hstart', ok_bind, Bool.or_true]
    rfl
  | case3 c ds hc hstart inside more he ih =>
    have hmore := ih ((h.reaches (reaches_moved_one hc)).reaches (reaches_braced _))
    rw [h.textNodes_brace hc (by simpa using hstart)]
    simp only [show (c.moved ['\x7b'] ds).braced = inside from rfl, hmore, ok_bind, he]
    rfl
  | case4 c ds e hc hstart inside more he ih =>
    have hmore := ih ((h.reaches (reaches_moved_one hc)).reaches (reaches_braced _))
    rw [h.textNodes_brace hc (by simpa using hstart)]
    simp only [show (c.moved ['\x7b'] ds).braced = inside from rfl, hmore, ok_bind, he]
    rfl
  | case5 c d ds hc hstart hbrace text more ih =>
    have hmore := ih (h.reaches (reaches_breakWhere c _))
    rw [h.textNodes_text hsmall hclosing hc (by simpa using hstart) hbrace]
    show (text.2.spot.textNodes cs closing >>= _) = _
    rw [hmore]
    rfl

theorem On.textContent (h : c.On cs) (hsmall : width cs < 0x100000000) (name : String) :
    c.spot.textContent cs name = .ok ((c.textContent name).1, (c.textContent name).2.spot) := by
  rw [Spot.textContent, h.textNodes hsmall (List.cons_ne_nil _ _), ok_bind]
  rfl

theorem On.element {t : OpeningTag} (h : t.cursor.On cs) (hsmall : width cs < 0x100000000) (start : Nat) :
    t.cursor.spot.element cs start t.name t.attributes = .ok ((t.element start).1, (t.element start).2.spot) := by
  rw [Spot.element, OpeningTag.element]
  simp only [h.eat?, ok_bind]
  cases hself : t.cursor.eat? ['/', '>'] with
  | some c => simp only [Option.map_some, leaf_spot, offset_spot, pure_eq_ok]
  | none =>
    cases hopen : t.cursor.eat? ['>'] with
    | none => simp only [Option.map_none, fault_spot, spanFrom_spot, offset_spot, leaf_spot, pure_eq_ok]
    | some c =>
      have hc := h.reaches (reaches_eat? hopen).1
      simp only [Option.map_some, Option.map_none, hc.rawContent hsmall, hc.textContent hsmall,
        (hc.reaches (reaches_rawContent c t.name)).closeTag, (hc.reaches (reaches_textContent c t.name)).closeTag,
        ok_bind, leaf_spot, pure_eq_ok, offset_spot]
      split
      · rfl
      · split
        · rfl
        · split <;> rfl

end elements

section nodes

variable {source : String} {c : Cursor}

theorem On.readElement (h : c.On source.toList) (hsmall : width source.toList < 0x100000000) {d : Char}
    {ds : List Char} (hrest : c.rest = d :: ds) (hd : d.utf8Size = 1) :
    c.spot.readElement source.toList = .ok ((readElement c).1, (readElement c).2.spot) := by
  have hmove : c.spot.moveTo source.toList (c.offset + 1) = .ok (c.moved (c.rest.take 1) (c.rest.drop 1)).spot :=
    h.moveTo (List.take_append_drop 1 c.rest).symm (by simp [hrest, hd])
  have hone := h.reaches (reaches_moved_take c 1)
  have hname := hone.reaches (reaches_takeWhile _ (!endsTagName ·))
  have hattributes : (readOpeningTag c).cursor.On source.toList := hname.reaches (reaches_attributes _)
  simp only [Spot.readElement, offset_spot, hmove, ok_bind, hone.tagName, hname.attributes hsmall]
  exact hattributes.element hsmall c.offset

/-- The byte after a character of one byte tells what there is to know of the next character. -/
theorem On.any_next {cs : List Char} (h : c.On cs) {d : Char} {ds : List Char} (hrest : c.rest = d :: ds)
    (hd : d.utf8Size = 1) {p : Char → Bool} (hp : ∀ e, p e = true → e.utf8Size = 1) :
    (Offsets.peek cs (c.offset + 1)).any (onByte p) = ds.head?.any p := by
  have hpeek : Offsets.peek cs (c.moved [d] ds).offset = (bytes ds).head? :=
    (h.reaches (reaches_moved_one hrest)).peek
  rw [show (c.moved [d] ds).offset = c.offset + 1 by simp [moved, hd]] at hpeek
  rw [hpeek]
  cases ds with
  | nil => rfl
  | cons e es =>
    obtain ⟨b, hb, -, hon⟩ := exists_head_bytes e es
    rw [hb, Option.any_some, hon p (hp e)]
    rfl

theorem size_of_opensTag {d : Char} (h : Spot.opensTag d = true) : d.utf8Size = 1 := by
  simp only [Spot.opensTag, Bool.or_eq_true, beq_iff_eq] at h
  rcases h with (h | rfl) | rfl
  · exact size_of_isAlpha h
  · decide
  · decide

/-- The first byte and the one after it tell whether markup begins. -/
theorem On.opensMarkup {cs : List Char} (h : c.On cs) {b : UInt8} (hb : (bytes c.rest).head? = some b) :
    c.spot.opensMarkup cs b = .ok (opensMarkup c.rest) := by
  rw [Spot.opensMarkup, offset_spot]
  cases hrest : c.rest with
  | nil => simp [hrest] at hb
  | cons d ds =>
    obtain ⟨b', hb', hbyte, -⟩ := exists_head_bytes d ds
    obtain rfl : b' = b := Option.some.inj (hb'.symm.trans (hrest ▸ hb))
    rw [beq_eq_beq.2 (hbyte '\x7b' (by decide)), beq_eq_beq.2 (hbyte '<' (by decide))]
    by_cases hbrace : d = '\x7b'
    · subst hbrace
      rfl
    by_cases hopen : d = '<'
    · subst hopen
      rw [h.any_next hrest (by decide) fun e => size_of_opensTag]
      cases ds <;> rfl
    · rw [beq_eq_false_iff_ne.2 hbrace, beq_eq_false_iff_ne.2 hopen]
      unfold Markup.opensMarkup
      split
      · next heq => exact absurd (List.cons.inj heq).1 hbrace
      · next heq => exact absurd (List.cons.inj heq).1 hopen
      · rfl

theorem On.readText {cs : List Char} (h : c.On cs) :
    c.spot.readText cs = .ok ((readText c).1, (readText c).2.spot) := by
  have hone := h.reaches (reaches_moved_take c 1)
  have hbump : c.spot.bump cs = .ok (c.moved (c.rest.take 1) (c.rest.drop 1)).spot := by
    cases hrest : c.rest with
    | nil =>
      rw [Spot.bump, h.rest, ok_bind, hrest]
      simp [spot, moved]
    | cons d ds => exact h.bump hrest
  have htext : (c.moved (c.rest.take 1) (c.rest.drop 1)).spot.bumpUntil cs (Spot.opensMarkup cs)
      = .ok ((c.moved (c.rest.take 1) (c.rest.drop 1)).breakWhere Markup.opensMarkup).2.spot :=
    hone.bumpUntil fun c hc b hb => hc.opensMarkup hb
  have hread : c.rest = (c.rest.take 1 ++ (Text.breakWhere Markup.opensMarkup (c.rest.drop 1)).1)
      ++ (Text.breakWhere Markup.opensMarkup (c.rest.drop 1)).2 := by
    rw [List.append_assoc, breakWhere_append, List.take_append_drop]
  have hslice : Offsets.slice cs c.offset
      ((c.moved (c.rest.take 1) (c.rest.drop 1)).breakWhere Markup.opensMarkup).2.offset
      = .ok (c.rest.take 1 ++ (Text.breakWhere Markup.opensMarkup (c.rest.drop 1)).1) :=
    h.slice_eq hread (by rw [width_append, ← Nat.add_assoc]; rfl)
  simp only [Spot.readText, hbump, ok_bind, htext, offset_spot, hslice, spanFrom_spot, pure_eq_ok]
  rfl

theorem On.readComment {cs : List Char} (h : c.On cs) (start : Nat) :
    c.spot.readComment cs start = .ok ((readComment c start).1, (readComment c start).2.spot) := by
  have hpiece : ['-', '-', '>'] ≠ [] := List.cons_ne_nil _ _
  rw [Spot.readComment, h.rest, ok_bind, Markup.readComment]
  cases hfound : find? ['-', '-', '>'] c.rest with
  | none =>
    obtain ⟨hbreak, heat⟩ := breakWhere_of_find?_eq_none hpiece hfound
    simp only [hbreak, heat, h.toEnd, ok_bind]
    rfl
  | some n =>
    obtain ⟨data, tail, hrest, hbreak, rfl⟩ := breakWhere_of_find?_eq_some hpiece hfound
    have hread : c.rest = (data ++ ['-', '-', '>']) ++ tail := by rw [hrest, List.append_assoc]
    have hslice : Offsets.slice c.rest 0 (width data) = .ok data :=
      slice_of_stands ⟨[], ['-', '-', '>'] ++ tail, hrest, rfl⟩ (Nat.zero_add _).symm
    have hmove : c.spot.moveTo cs (c.offset + (width data + 3)) = .ok (c.moved (data ++ ['-', '-', '>']) tail).spot :=
      h.moveTo hread (by rw [width_append]; rfl)
    simp only [hbreak, eat?_moved, hslice, ok_bind, offset_spot, hmove, spanFrom_spot, pure_eq_ok]

theorem On.readTag {cs : List Char} (h : c.On cs) (start : Nat) :
    c.spot.readTag cs start = .ok ((readTag c start).1, (readTag c start).2.spot) := by
  have hword : c.word.2.On cs := h.reaches (reaches_takeWhile c Char.isAlpha)
  simp only [Spot.readTag, h.word, hword.braced, ok_bind, Markup.readTag]
  cases c.word.2.braced.1 with
  | none => rfl
  | some e => cases TagKind.ofName? (String.ofList c.word.1) <;> rfl

/-- Between two parentheses, the second of which is the last one that closes, the parameters of a snippet
are found. -/
theorem snippetParameters_closed {before inside after : List Char} (hbefore : '(' ∉ before) (hafter : ')' ∉ after) :
    Spot.snippetParameters (before ++ '(' :: (inside ++ ')' :: after)) = .ok inside := by
  have hopening : find? ['('] (before ++ '(' :: (inside ++ ')' :: after)) = some (width before) :=
    find?_append_cons hbefore _
  have hclosing : findLast? ')' (before ++ '(' :: (inside ++ ')' :: after)) = some (width (before ++ '(' :: inside)) := by
    rw [← List.cons_append, ← List.append_assoc]
    exact findLast?_append_cons hafter _
  have hstop : width (before ++ '(' :: inside) = width before + 1 + width inside := by
    rw [width_append, width_cons, ← Nat.add_assoc]
    rfl
  have hstands : Stands (before ++ '(' :: (inside ++ ')' :: after)) (width before + 1) inside :=
    ⟨before ++ ['('], ')' :: after, by simp, by rw [width_append]; rfl⟩
  have hlt : width before < width (before ++ '(' :: inside) := by omega
  simp only [Spot.snippetParameters, hopening, hclosing, if_pos hlt, slice_of_stands hstands hstop]

/-- Without a parenthesis that closes after the first one that opens there are no parameters. -/
theorem snippetParameters_unclosed {before rest : List Char} (hbefore : '(' ∉ before) (hrest : ')' ∉ rest) :
    Spot.snippetParameters (before ++ '(' :: rest) = .ok [] := by
  have hopening : find? ['('] (before ++ '(' :: rest) = some (width before) :=
    find?_append_cons hbefore _
  have hclosing : findLast? ')' (before ++ '(' :: rest) = findLast? ')' before :=
    findLast?_append (by simpa using hrest) before
  simp only [Spot.snippetParameters, hopening, hclosing]
  cases hfound : findLast? ')' before with
  | none => rfl
  | some n =>
    dsimp only
    rw [if_neg (Nat.not_lt.2 (findLast?_le hfound))]

/-- The parameters of a snippet stand between the first opening and the last closing parenthesis. -/
theorem snippetParameters_eq (cs : List Char) : Spot.snippetParameters cs
    = .ok ((((cs.dropWhile (· ≠ '(')).drop 1).reverse.dropWhile (· ≠ ')')).drop 1).reverse := by
  cases hdrop : cs.dropWhile (· ≠ '(') with
  | nil =>
    rw [Spot.snippetParameters, find?_singleton, if_neg (dropWhile_ne_eq_nil_iff.1 hdrop)]
    rfl
  | cons e rest =>
    have hbefore : '(' ∉ cs.takeWhile (· ≠ '(') := fun hmem => by simpa using List.mem_takeWhile_imp hmem
    obtain ⟨rfl, hsplit⟩ := eq_append_of_dropWhile_ne hdrop
    rw [hsplit, show List.drop 1 ('(' :: rest) = rest from rfl]
    by_cases hclose : ')' ∈ rest
    · obtain ⟨inside, after, rfl, hafter⟩ := exists_last_of_mem hclose
      rw [snippetParameters_closed hbefore hafter, dropWhile_reverse_append_cons hafter, List.drop_one, List.tail_cons,
        List.reverse_reverse]
    · rw [snippetParameters_unclosed hbefore hclose, dropWhile_ne_eq_nil_iff.2 (mt List.mem_reverse.1 hclose)]
      rfl

theorem snippetParts_eq (header : String) : Spot.snippetParts header = .ok (snippetParts header) := by
  have hname : Offsets.slice header.toList 0 (width (header.toList.takeWhile fun c => c ≠ '(' && c ≠ '<'))
      = .ok (header.toList.takeWhile fun c => c ≠ '(' && c ≠ '<') :=
    slice_of_stands ⟨[], _, List.takeWhile_append_dropWhile.symm, rfl⟩ (Nat.zero_add _).symm
  rw [Spot.snippetParts, hname, ok_bind, snippetParameters_eq, ok_bind, snippetParts]
  cases header.toList.dropWhile (· ≠ '(') <;> rfl

theorem On.readBlock {cs : List Char} (h : c.On cs) (start : Nat) :
    c.spot.readBlock cs start = .ok ((readBlock c start).1, (readBlock c start).2.spot) := by
  have hword : c.word.2.On cs := h.reaches (reaches_takeWhile c Char.isAlpha)
  simp only [Spot.readBlock, h.word, hword.braced, ok_bind, snippetParts_eq, Markup.readBlock]
  cases c.word.2.braced.1 with
  | none => rfl
  | some e =>
    dsimp only
    generalize String.ofList c.word.1 = keyword
    repeat' split
    all_goals first | contradiction | rfl

theorem On.readExpression {cs : List Char} (h : c.On cs) (start : Nat) :
    c.spot.readExpression cs start = .ok ((readExpression c start).1, (readExpression c start).2.spot) := by
  simp only [Spot.readExpression, h.braced, ok_bind, Markup.readExpression]
  cases c.braced.1 <;> rfl

/-- A node is read as the cursor reads it. -/
theorem On.readNode (h : c.On source.toList) (hsmall : width source.toList < 0x100000000) :
    c.spot.readNode source.toList = .ok ((readNode c).1, (readNode c).2.spot) := by
  have hreaches : ∀ {piece : List Char} {c' : Cursor}, c.eat? piece = some c' → c'.On source.toList :=
    fun heat => h.reaches (reaches_eat? heat).1
  simp only [Spot.readNode, h.eat?, ok_bind, offset_spot]
  rw [Markup.readNode]
  cases hcomment : c.eat? ['<', '!', '-', '-'] with
  | some c' => exact (hreaches hcomment).readComment c.offset
  | none =>
    simp only [Option.map_none]
    by_cases helement : ∃ d ds, c.rest = '<' :: d :: ds ∧ d.isAlpha = true
    · obtain ⟨d, ds, hrest, hd⟩ := helement
      have hopen : Offsets.peek source.toList c.offset = some (byte '<') :=
        (h.peek_iff (by decide)).2 (by rw [hrest]; rfl)
      have hnext : (Offsets.peek source.toList (c.offset + 1)).any (onByte Char.isAlpha) = true := by
        rw [h.any_next hrest (by decide) fun _ => size_of_isAlpha]
        exact hd
      have hnone : ∀ ps, c.eat? ('\x7b' :: ps) = none := fun ps => by
        rw [Cursor.eat?, hrest, strip?, if_neg (by decide)]
        rfl
      rw [if_pos ⟨hopen, hnext⟩, hnone, hnone, hnone, h.readElement hsmall hrest (by decide)]
      simp only [hrest, hd, if_true]
    · have hnot : ¬(Offsets.peek source.toList c.offset = some (byte '<')
          ∧ (Offsets.peek source.toList (c.offset + 1)).any (onByte Char.isAlpha) = true) := by
        rintro ⟨hopen, hnext⟩
        obtain ⟨ds, hrest⟩ := List.head?_eq_some_iff.1 ((h.peek_iff (by decide)).1 hopen)
        rw [h.any_next hrest (by decide) fun _ => size_of_isAlpha] at hnext
        cases ds with
        | nil => cases hnext
        | cons d ds => exact helement ⟨d, ds, hrest, hnext⟩
      rw [if_neg hnot]
      cases hblock : c.eat? ['\x7b', '#'] with
      | some c' => exact (hreaches hblock).readBlock c.offset
      | none =>
      cases htag : c.eat? ['\x7b', '@'] with
      | some c' => exact (hreaches htag).readTag c.offset
      | none =>
      cases hbrace : c.eat? ['\x7b'] with
      | some c' => exact (hreaches hbrace).readExpression c.offset
      | none =>
      refine h.readText.trans ?_
      dsimp only
      split
      · next d ds hrest => rw [if_neg fun hd => helement ⟨d, ds, hrest, hd⟩]
      · rfl

end nodes

end Cursor

end Restyle.Markup
