import Restyle.Proofs.Offsets.Descent

/-! Documents by byte offsets. A text of fewer than 2 ^ 32 bytes, however faulty, is read without a trap,
and to the same document: no index or slice is out of bounds or inside a character, no difference is
negative, and each node and each attribute moves the cursor on. -/

namespace Restyle.Markup

open Text

namespace Offsets

variable (cs : List Char)

/-! ### Scripts and styles -/

/-- The attributes of a raw block, the span of its content, and the spot after it. -/
def Spot.rawParts (name : List Char) (s : Spot) : Checked (List Attribute × Span × Spot) := do
  let attributes ← (← s.moveTo cs (s.offset + (1 + width name))).attributes cs
  match ← attributes.2.eat? cs ['/', '>'] with
  | some s' => return (attributes.1, .point s'.offset, s')
  | none =>
    let body ← attributes.2.expect cs ['>']
    let closing := '<' :: '/' :: name
    match find? closing (← body.rest cs) with
    | some n =>
      let content ← body.moveTo cs (body.offset + n)
      let s' ← content.moveTo cs (content.offset + width closing)
      return (attributes.1, content.spanFrom body.offset, ← (← s'.skipBlanks cs).expect cs ['>'])
    | none =>
      let s' ← body.moveTo cs (width cs)
      return (attributes.1, s'.spanFrom body.offset,
        s'.fault (.unclosedTag (String.ofList name)) (s'.spanFrom s.offset))

/-- The raw block of the given name that opens here. -/
def Spot.rawBlock (name : List Char) (s : Spot) : Checked RawBlock := do
  let parts ← s.rawParts cs name
  return ⟨parts.1, parts.2.1, String.ofList (← sliceSpan cs parts.2.1), parts.2.2.cursor⟩

/-! ### Documents -/

/-- A document that is being read: the spot and what has been found. -/
structure Draft where
  spot : Spot
  /-- Newest first. -/
  nodes : List Node := []
  moduleScript : Option Script := none
  instanceScript : Option Script := none
  style : Option Style := none

namespace Draft

/-- A script of the document. Only the first of each kind is kept. -/
def readScript (d : Draft) : Checked Draft := do
  let block ← d.spot.rawBlock cs "script".toList
  let script := block.script d.spot.offset
  let duplicate (what : String) : Draft :=
    { d with spot := block.cursor.spot.fault (.duplicate what) script.span }
  match script.context with
  | .perModule =>
    return if d.moduleScript.isSome then duplicate "module script"
      else { d with spot := block.cursor.spot, moduleScript := some script }
  | .perInstance =>
    return if d.instanceScript.isSome then duplicate "instance script"
      else { d with spot := block.cursor.spot, instanceScript := some script }

def readStyle (d : Draft) : Checked Draft := do
  let block ← d.spot.rawBlock cs "style".toList
  let style := block.style d.spot.offset
  return if d.style.isSome then
      { d with spot := block.cursor.spot.fault (.duplicate "top-level style") style.span }
    else { d with spot := block.cursor.spot, style := some style }

/-- A closing tag that closes nothing. -/
def skipClosingTag (d : Draft) : Checked Draft := do
  let name ← (← d.spot.moveTo cs (d.spot.offset + 2)).tagName cs
  let s ← d.spot.skipStray cs '>'
  return { d with
    spot := s.fault (.unexpectedClosingTag (String.ofList name.1)) (s.spanFrom d.spot.offset) }

/-- A tag of a block that is not open. -/
def skipBlockTag (d : Draft) : Checked Draft := do
  let s ← d.spot.skipStray cs '\x7d'
  let stray ← slice cs d.spot.offset s.offset
  let reason := "unexpected `" ++ String.ofList stray ++ "` outside of a block"
  return { d with spot := s.fault (.invalidBlock reason) (s.spanFrom d.spot.offset) }

/-- One round of the loop over a document. -/
def readTop (d : Draft) : Checked Draft := do
  let s := d.spot
  if ← s.atTag cs "script".toList then d.readScript cs
  else if ← s.atTag cs "style".toList then d.readStyle cs
  else if ← s.startsWith cs ['<', '/'] then d.skipClosingTag cs
  else if (← s.startsWith cs ['\x7b', ':']) || (← s.startsWith cs ['\x7b', '/']) then d.skipBlockTag cs
  else
    let n ← s.node cs
    return { d with spot := n.2, nodes := n.1.toList ++ d.nodes }

/-- All rounds up to the end of the text. -/
def run (d : Draft) : Checked Draft := do
  if d.spot.atEnd cs then return d
  else
    let d' ← d.readTop cs
    if _h : d.spot.Ahead cs d'.spot then run d' else throw .stuck
termination_by width cs - d.spot.offset
decreasing_by exact _h.closer

end Draft

/-- Reads a document from a text. -/
def read (text : String) : Checked Reading := do
  let d ← Draft.run text.toList { spot := ⟨0, []⟩ }
  let span : Span := ⟨0, width text.toList⟩
  return ⟨⟨d.moduleScript, d.instanceScript, d.style, ⟨d.nodes.reverse, span⟩, span⟩, d.spot.faults.reverse⟩

end Offsets

open Offsets Cursor

/-! ### What the reader does -/

/-- The state of the reader at the top of a document. -/
def Reader.draft (r : Reader) : Draft := ⟨r.cursor.spot, r.nodes, r.moduleScript, r.instanceScript, r.style⟩

section documents

variable {source : String} {c : Cursor} {r : Reader}

theorem Cursor.On.rawParts (h : c.On source.toList) (hsmall : width source.toList < 0x100000000) {name : List Char}
    (htag : c.atTag name = true) : c.spot.rawParts source.toList name
      = .ok ((c.rawBlock name).attributes, (c.rawBlock name).contentSpan, (c.rawBlock name).cursor.spot) := by
  have hclosing : '<' :: '/' :: name ≠ [] := List.cons_ne_nil _ _
  obtain ⟨left, hname⟩ : ∃ left, c.rest = '<' :: name ++ left := by
    unfold Cursor.atTag at htag
    split at htag
    · next hstrip => exact ⟨[], strip?_eq_some_iff.1 hstrip⟩
    · next hstrip => exact ⟨_, strip?_eq_some_iff.1 hstrip⟩
    · cases htag
  have htake : c.rest.take (name.length + 1) = '<' :: name := by simp [hname]
  have hmove : c.spot.moveTo source.toList (c.offset + (1 + width name))
      = .ok (c.moved (c.rest.take (name.length + 1)) (c.rest.drop (name.length + 1))).spot :=
    h.moveTo (List.take_append_drop _ _).symm (by rw [htake, width_cons]; rfl)
  have hopening := h.reaches (reaches_moved_take c (name.length + 1))
  have hattributes := hopening.reaches (reaches_attributes _)
  have hbody := hattributes.reaches (reaches_expect _ ['>'])
  simp only [Spot.rawParts, offset_spot, hmove, ok_bind, hopening.attributes hsmall, hattributes.eat?, Cursor.rawBlock]
  cases (c.moved (c.rest.take (name.length + 1)) (c.rest.drop (name.length + 1))).attributes.2.eat? ['/', '>'] with
  | some c' => rfl
  | none =>
    simp only [Option.map_none, hattributes.expect, hbody.rest, ok_bind]
    generalize Cursor.expect _ ['>'] = body at hbody
    cases hfound : find? ('<' :: '/' :: name) body.rest with
    | none =>
      obtain ⟨hbreak, heat⟩ := breakWhere_of_find?_eq_none hclosing hfound
      simp only [hbreak, heat, hbody.toEnd, ok_bind]
      rfl
    | some n =>
      obtain ⟨content, tail, hrest, hbreak, rfl⟩ := breakWhere_of_find?_eq_some hclosing hfound
      have hcontent := hbody.reaches (reaches_moved hrest)
      have hread : (body.moved content ('<' :: '/' :: name ++ tail)).rest = '<' :: '/' :: name ++ tail := rfl
      have hafter := hcontent.reaches (reaches_moved hread)
      have hblanks := hafter.reaches (reaches_skipBlanks _)
      have hto : body.spot.moveTo source.toList (body.offset + width content) = .ok _ := hbody.moveTo hrest rfl
      have hto' := hcontent.moveTo hread rfl
      rw [moved_moved] at hto' hafter hblanks
      simp only [hbreak, eat?_moved, offset_spot, hto, hto', ok_bind, hafter.skipBlanks, hblanks.expect, spanFrom_spot,
        pure_eq_ok]

/-- The content of a raw block is the slice of its span. -/
theorem Cursor.On.slice_rawBlock (h : c.On source.toList) (hsmall : width source.toList < 0x100000000)
    (name : List Char) : ∃ content, Offsets.sliceSpan source.toList (c.rawBlock name).contentSpan = .ok content ∧
      (c.rawBlock name).content = String.ofList content := by
  have hattributes := (h.reaches (reaches_moved_take c (name.length + 1))).reaches (reaches_attributes _)
  have hbody := hattributes.reaches (reaches_expect _ ['>'])
  unfold Cursor.rawBlock
  dsimp only
  split
  · next c' heat =>
    have hend := hattributes.reaches (reaches_eat? heat).1
    exact ⟨[], (sliceSpan_eq hsmall hend.cuts_point).trans (hend.slice_eq (List.nil_append _).symm rfl), rfl⟩
  · split <;> exact ⟨_, hbody.sliceSpan hsmall _, rfl⟩

/-- A raw block is read as the cursor reads it. -/
theorem Cursor.On.rawBlock (h : c.On source.toList) (hsmall : width source.toList < 0x100000000) {name : List Char}
    (htag : c.atTag name = true) : c.spot.rawBlock source.toList name
      = .ok { c.rawBlock name with cursor := (c.rawBlock name).cursor.spot.cursor } := by
  obtain ⟨content, hslice, hcontent⟩ := h.slice_rawBlock hsmall name
  simp only [Spot.rawBlock, h.rawParts hsmall htag, ok_bind, hslice, pure_eq_ok, ← hcontent]

/-- A stray tag is what is read and left behind. -/
theorem exists_skipStray (closing : Char) {d : Char} {ds : List Char} (hrest : c.rest = d :: ds) :
    ∃ stray rest, c.rest = stray ++ rest ∧ c.skipStray closing = (stray, c.moved stray rest) := by
  rw [Cursor.skipStray, hrest]
  dsimp only
  cases hdrop : ds.dropWhile (· ≠ closing) with
  | nil => exact ⟨_, [], (List.append_nil _).symm, by rw [toEnd, hrest]⟩
  | cons e after =>
    obtain ⟨rfl, hsplit⟩ := eq_append_of_dropWhile_ne hdrop
    refine ⟨_, after, ?_, rfl⟩
    simpa using hsplit

theorem exists_cons_of_startsWith {d : Char} {piece : List Char} (h : c.startsWith (d :: piece) = true) :
    ∃ ds, c.rest = d :: ds := by
  obtain ⟨ds, hstrip⟩ := Option.isSome_iff_exists.1 h
  exact ⟨piece ++ ds, strip?_eq_some_iff.1 hstrip⟩

/-- A script is made without reading. -/
theorem script_spot (b : RawBlock) (start : Nat) :
    RawBlock.script { b with cursor := b.cursor.spot.cursor } start = b.script start := rfl

namespace Reader

theorem draft_readScript (h : r.cursor.On source.toList) (hsmall : width source.toList < 0x100000000)
    (htag : r.cursor.atTag "script".toList = true) : r.draft.readScript source.toList = .ok r.readScript.draft := by
  obtain ⟨cursor, frames, nodes, moduleScript, instanceScript, style⟩ := r
  simp only [Draft.readScript, draft, h.rawBlock hsmall htag, ok_bind, offset_spot, script_spot, readScript]
  cases ((cursor.rawBlock "script".toList).script cursor.offset).context with
  | perModule => cases moduleScript <;> rfl
  | perInstance => cases instanceScript <;> rfl

theorem draft_readStyle (h : r.cursor.On source.toList) (hsmall : width source.toList < 0x100000000)
    (htag : r.cursor.atTag "style".toList = true) : r.draft.readStyle source.toList = .ok r.readStyle.draft := by
  obtain ⟨cursor, frames, nodes, moduleScript, instanceScript, style⟩ := r
  simp only [Draft.readStyle, draft, h.rawBlock hsmall htag, ok_bind, offset_spot]
  cases style <;> rfl

theorem draft_skipClosingTag (h : r.cursor.On source.toList) (htag : r.cursor.startsWith ['<', '/'] = true) :
    r.draft.skipClosingTag source.toList = .ok r.skipClosingTag.draft := by
  obtain ⟨ds, hstrip⟩ := Option.isSome_iff_exists.1 htag
  have hrest : r.cursor.rest = ['<', '/'] ++ ds := strip?_eq_some_iff.1 hstrip
  have hmove : r.cursor.spot.moveTo source.toList (r.cursor.offset + 2) = .ok (r.cursor.moved ['<', '/'] ds).spot :=
    h.moveTo hrest rfl
  have hname := (h.reaches (reaches_moved hrest)).tagName
  have hstray : r.cursor.spot.skipStray source.toList '>' = .ok (r.cursor.skipStray '>').2.spot :=
    h.skipStray hrest (by decide) (by decide)
  simp only [Draft.skipClosingTag, draft, offset_spot, hmove, hname, hstray, ok_bind, pure_eq_ok, fault_spot,
    spanFrom_spot, skipClosingTag]
  simp [hrest, Cursor.takeWhile]

theorem draft_skipBlockTag (h : r.cursor.On source.toList) {ds : List Char} (hrest : r.cursor.rest = '\x7b' :: ds) :
    r.draft.skipBlockTag source.toList = .ok r.skipBlockTag.draft := by
  have hstray : r.cursor.spot.skipStray source.toList '\x7d' = .ok (r.cursor.skipStray '\x7d').2.spot :=
    h.skipStray hrest (by decide) (by decide)
  obtain ⟨stray, rest, hread, hskip⟩ := exists_skipStray '\x7d' hrest
  have hslice : slice source.toList r.cursor.offset (r.cursor.moved stray rest).offset = .ok stray :=
    h.slice_eq hread rfl
  simp only [Draft.skipBlockTag, draft, offset_spot, hstray, hskip, ok_bind, hslice, pure_eq_ok, fault_spot,
    spanFrom_spot, skipBlockTag]

/-- A round of the loop does what a step at the top of the document does. -/
theorem draft_readTop {r' : Reader} (h : r.cursor.On source.toList) (hsmall : width source.toList < 0x100000000)
    (hadvances : Advances r r') : r.draft.readTop source.toList = .ok r'.draft := by
  have hspot : r.draft.spot = r.cursor.spot := rfl
  simp only [Draft.readTop, hspot, h.atTag, h.startsWith, ok_bind]
  cases hadvances with
  | @node ns c hframes hc hreads hnode =>
    rw [readsNode, hframes] at hreads
    simp only [Bool.not_eq_true', Bool.or_eq_false_iff] at hreads
    obtain ⟨⟨⟨⟨hscript, hstyle⟩, hclosing⟩, hbranch⟩, hblock⟩ := hreads
    obtain ⟨n, rfl, hperforms⟩ := performs_of_yields hsmall hnode h fun _ => hc
    simp only [hscript, hstyle, hclosing, hbranch, hblock, Bool.or_self, Bool.false_eq_true, if_false, hperforms,
      ok_bind]
    cases n <;> rfl
  | other hframes hc hreads =>
    rw [readsNode, hframes] at hreads
    unfold Reader.readTop
    dsimp only
    by_cases hscript : r.cursor.atTag "script".toList = true
    · rw [if_pos hscript, if_pos hscript, draft_readScript h hsmall hscript]
    rw [if_neg hscript, if_neg hscript]
    by_cases hstyle : r.cursor.atTag "style".toList = true
    · rw [if_pos hstyle, if_pos hstyle, draft_readStyle h hsmall hstyle]
    rw [if_neg hstyle, if_neg hstyle]
    by_cases hclosing : r.cursor.startsWith ['<', '/'] = true
    · rw [if_pos hclosing, if_pos hclosing, draft_skipClosingTag h hclosing]
    rw [if_neg hclosing, if_neg hclosing]
    have hblock : (r.cursor.startsWith ['\x7b', ':'] || r.cursor.startsWith ['\x7b', '/']) = true := by
      simp only [hscript, hstyle, hclosing, Bool.false_or, Bool.not_eq_false'] at hreads
      exact hreads
    obtain ⟨ds, hrest⟩ : ∃ ds, r.cursor.rest = '\x7b' :: ds := by
      rcases (Bool.or_eq_true _ _).mp hblock with hstart | hstart
      · exact exists_cons_of_startsWith hstart
      · exact exists_cons_of_startsWith hstart
    rw [if_pos hblock, if_pos hblock, draft_skipBlockTag h hrest]

theorem Advances.rest_ne_nil {r' : Reader} (h : Advances r r') : r.cursor.rest ≠ [] := by
  cases h with
  | node _ hc _ _ => exact hc
  | other _ hc _ => exact hc

/-- All rounds end, with what the reader has found. -/
theorem draft_run (hsmall : width source.toList < 0x100000000) (hframes : r.frames = [])
    (h : r.cursor.On source.toList) : r.draft.run source.toList = .ok r.run.draft := by
  obtain ⟨hsteps, hend⟩ := advances_run hframes
  generalize r.run = last at hsteps hend
  induction hsteps using Relation.ReflTransGen.head_induction_on with
  | refl =>
    have hdone : last.draft.spot.atEnd source.toList = true := by
      rw [show last.draft.spot = last.cursor.spot from rfl, h.atEnd, Cursor.atEnd, hend]
      rfl
    rw [Draft.run, if_pos hdone]
    rfl
  | @head r r' hadvances _ ih =>
    have hreach := hadvances.leads.reaches
    have hgoes : r.draft.spot.atEnd source.toList = false := by
      rw [show r.draft.spot = r.cursor.spot from rfl, h.atEnd, Cursor.atEnd, List.isEmpty_eq_false_iff]
      exact hadvances.rest_ne_nil
    have hahead : r.draft.spot.Ahead source.toList r'.draft.spot := h.ahead hreach hadvances.shorter
    rw [Draft.run, if_neg (by simp [hgoes]), draft_readTop h hsmall hadvances, ok_bind, dif_pos hahead]
    exact ih hadvances.frames_eq (h.reaches hreach)

end Reader

end documents

/-! ### Reading -/

/-- A text of fewer than 2 ^ 32 bytes is read by byte offsets without a trap, and as the reader reads it. -/
theorem read_offsets {text : String} (hsmall : width text.toList < 0x100000000) :
    Offsets.read text = .ok (read text) := by
  have hrun := Reader.draft_run (r := .ofText text) hsmall rfl (on_ofText text.toList)
  have hfirst : (Reader.ofText text).draft = { spot := ⟨0, []⟩ } := rfl
  rw [hfirst] at hrun
  rw [Offsets.read, hrun, ok_bind]
  rfl

/-- A spot on a boundary of a text is that of a cursor. -/
theorem exists_cursor {cs : List Char} {s : Spot} (h : isBoundary cs s.offset = true) :
    ∃ c : Cursor, c.On cs ∧ c.spot = s := by
  obtain ⟨before, rest, hcs, hwidth⟩ := isBoundary_iff.1 h
  exact ⟨⟨s.offset, rest, s.faults⟩, ⟨before, hcs, hwidth.symm⟩, rfl⟩

/-- Before the end of the text a node is read without a trap and moves the cursor on. -/
theorem Cursor.On.node_ahead {text : String} {c : Cursor} (h : c.On text.toList)
    (hsmall : width text.toList < 0x100000000) (hne : c.rest ≠ []) :
    ∃ n s, c.spot.node text.toList = .ok (n, s) ∧ c.spot.Ahead text.toList s := by
  obtain ⟨ns, c', hyields⟩ := exists_yields .node c fun _ => hne
  obtain ⟨n, -, hnode⟩ := performs_of_yields hsmall hyields h fun _ => hne
  exact ⟨n, c'.spot, hnode, h.ahead hyields.reaches (hyields.length_lt hne)⟩

/-- Before the end of the text an attribute is read without a trap and moves the cursor on. -/
theorem Cursor.On.attribute_ahead {text : String} {c : Cursor} (h : c.On text.toList)
    (hsmall : width text.toList < 0x100000000) (hne : c.rest ≠ []) :
    ∃ a s, c.spot.attribute? text.toList = .ok (a, s) ∧ c.spot.Ahead text.toList s :=
  ⟨_, _, h.attribute? hsmall hne, h.ahead (reaches_attribute? c) (length_attribute? hne)⟩

/-- No text of fewer than 2 ^ 32 bytes traps: it is read by byte offsets to the document that the reader
finds. From every boundary in it the closing brace is looked for without a trap; from every one before its
end a node and an attribute are read without a trap, further on but not beyond the end. -/
theorem read_without_trap {text : String} (hsmall : width text.toList < 0x100000000) :
    Offsets.read text = .ok (read text) ∧
      ∀ s : Spot, isBoundary text.toList s.offset = true →
        (∃ stop, findClosingBrace text.toList s.offset = .ok stop) ∧
          (s.offset < width text.toList →
            (∃ n s', s.node text.toList = .ok (n, s') ∧ s.Ahead text.toList s') ∧
              ∃ a s', s.attribute? text.toList = .ok (a, s') ∧ s.Ahead text.toList s') := by
  refine ⟨read_offsets hsmall, fun s hs => ?_⟩
  obtain ⟨c, hon, rfl⟩ := exists_cursor hs
  refine ⟨⟨_, hon.findClosingBrace⟩, fun hlt => ?_⟩
  have hne : c.rest ≠ [] := by
    intro hnil
    rw [hon.width_eq, hnil] at hlt
    exact Nat.lt_irrefl _ hlt
  exact ⟨hon.node_ahead hsmall hne, hon.attribute_ahead hsmall hne⟩

/-- A text that ends inside a string of an attribute, after a character of two bytes. -/
theorem read_without_trap_unclosed : width "<p a=\x7b'é".toList < 0x100000000 ∧
    Offsets.read "<p a=\x7b'é" = .ok (read "<p a=\x7b'é") ∧
      ∃ n s, Spot.node "<p a=\x7b'é".toList ⟨0, []⟩ = .ok (n, s) ∧ Spot.Ahead "<p a=\x7b'é".toList ⟨0, []⟩ s := by
  have hsmall : width "<p a=\x7b'é".toList < 0x100000000 := by decide
  obtain ⟨hread, hspots⟩ := read_without_trap hsmall
  exact ⟨hsmall, hread, ((hspots ⟨0, []⟩ (isBoundary_zero _)).2 (by decide)).1⟩

end Restyle.Markup
