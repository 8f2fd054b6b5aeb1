import Mathlib.Data.List.Nodup
import Restyle.Proofs.Splice.Segments

/-! What a map takes for a copy. A mapping is verbatim if the text it is for is as wide as the span it comes
from. All copies are, and so is the new text of a span that happens to be as wide as the span, whatever it
says: a map then looks offsets up and writes segments as if it were a copy. The main statement is what this
makes of every replacement, and that the maps in which verbatim means a copy are those without such texts. -/

namespace Restyle

open Text

namespace Text

/-- The bytes of a text in a span. -/
def bytesIn (text : String) (s : Span) : List UInt8 := ((bytes text.toList).drop s.start).take s.size

theorem length_bytesIn {text : String} {s : Span} (h : s.stop ≤ width text.toList) :
    (bytesIn text s).length = s.size := by
  simp only [bytesIn, List.length_take, List.length_drop, length_bytes, Span.size]
  omega

theorem bytesIn_of_stands {text : String} {cs : List Char} {o : Nat} (h : Stands text.toList o cs) :
    bytesIn text ⟨o, o + width cs⟩ = bytes cs := by
  obtain ⟨before, after, htext, rfl⟩ := h
  rw [bytesIn, htext, bytes_append, bytes_append, Span.size, Nat.add_sub_cancel_left,
    List.drop_left' (length_bytes before), List.take_left' (length_bytes cs)]

end Text

/-- The generated text of the mapping is the text that it comes from, byte for byte. -/
def Mapping.Copies (m : Mapping) (source code : String) : Prop := bytesIn code m.generated = bytesIn source m.source

instance (m : Mapping) (source code : String) : Decidable (m.Copies source code) :=
  inferInstanceAs (Decidable (bytesIn code m.generated = bytesIn source m.source))

namespace SourceMap

/-- Line starts inside a text are as many as its line feeds, other than one at its end. -/
theorem length_innerBreaks (cs : List Char) : (innerBreaks cs).length = cs.dropLast.count '\n' := by
  have hgo : ∀ (cs : List Char) (offset : Nat),
      ((LineTable.breaks offset cs).filter (· < offset + width cs)).length = cs.dropLast.count '\n' := by
    intro cs
    induction cs with
    | nil => exact fun _ => rfl
    | cons c cs ih =>
      intro offset
      have ih := ih (offset + c.utf8Size)
      rw [width_cons, ← Nat.add_assoc]
      cases cs with
      | nil =>
        by_cases hc : c = '\n' <;> simp [LineTable.breaks, hc]
      | cons d ds =>
        have hpos := d.utf8Size_pos
        rw [LineTable.breaks, List.dropLast_cons_of_ne_nil (List.cons_ne_nil d ds), List.count_cons]
        split
        · next hc =>
          rw [List.filter_cons_of_pos (by simp; omega), List.length_cons, ih]
          simp [hc]
        · next hc =>
          rw [ih]
          simp [hc]
  simpa [innerBreaks] using hgo cs 0

/-! ### Mappings and pieces -/

section Pieces

variable {ps before after : List Piece} {p : Piece} {m : Mapping}

/-- Every mapping is that of a piece. -/
theorem exists_piece_of_mem {offset : Nat} (h : m ∈ mappingsFrom offset ps) : ∃ before p after,
    ps = before ++ p :: after ∧ mappingOf (offset + width (textOf before).toList) p = some m := by
  induction ps generalizing offset with
  | nil => cases h
  | cons p ps ih =>
    rw [mappingsFrom, List.mem_append] at h
    rcases h with h | h
    · exact ⟨[], p, ps, rfl, by simpa [textOf] using Option.mem_toList.1 h⟩
    · obtain ⟨before, q, after, rfl, hm⟩ := ih h
      refine ⟨p :: before, q, after, rfl, ?_⟩
      rwa [textOf_cons, String.toList_append, width_append, ← Nat.add_assoc]

theorem stands_textOf (before : List Piece) (p : Piece) (after : List Piece) :
    Stands (textOf (before ++ p :: after)).toList (width (textOf before).toList) p.text.toList := by
  refine ⟨(textOf before).toList, (textOf after).toList, ?_, rfl⟩
  rw [textOf_append, textOf_cons, String.toList_append, String.toList_append]

theorem mappings_split {m : Mapping} (h : mappingOf (width (textOf before).toList) p = some m) :
    (ofPieces (before ++ p :: after)).mappings = mappingsFrom 0 before
      ++ m :: mappingsFrom (width (textOf before).toList + p.size) after := by
  rw [ofPieces, mappingsFrom_append, mappingsFrom, Nat.zero_add, h]
  rfl

/-- A mapping has the text of its piece. -/
theorem bytesIn_generated (h : mappingOf (width (textOf before).toList) p = some m) :
    bytesIn (textOf (before ++ p :: after)) m.generated = bytes p.text.toList := by
  unfold mappingOf at h
  split at h
  · cases h
  · obtain ⟨span, -, rfl⟩ := Option.map_eq_some_iff.1 h
    exact bytesIn_of_stands (stands_textOf before p after)

theorem source_of_mappingOf {offset : Nat} (h : mappingOf offset p = some m) :
    p.source? = some m.source ∧ m.generated = ⟨offset, offset + p.size⟩ ∧ p.size ≠ 0 := by
  unfold mappingOf at h
  split at h
  · cases h
  · next hsize =>
    obtain ⟨span, hspan, rfl⟩ := Option.map_eq_some_iff.1 h
    exact ⟨hspan, rfl, hsize⟩

/-- The segments of a mapping inside its texts: one at its start, and where it is taken for a copy one at each line
that starts inside it. -/
theorem length_segmentsOf {source : String} (h : mappingOf (width (textOf before).toList) p = some m)
    (hsource : m.source.start ≤ m.source.stop ∧ m.source.stop ≤ width source.toList) :
    (segmentsOf (.ofText source) (.ofText (textOf (before ++ p :: after))) (textOf (before ++ p :: after)).toList m).length
      = 1 + if m.isVerbatim then p.text.toList.dropLast.count '\n' else 0 := by
  obtain ⟨-, hgenerated, hsize⟩ := source_of_mappingOf h
  have hstands := stands_textOf before p after
  have hslice : slice? (textOf (before ++ p :: after)).toList m.generated.start m.generated.stop = some p.text.toList := by
    rw [hgenerated]
    exact hstands.slice?
  have hcode : m.generated.start < m.generated.stop ∧ m.generated.stop ≤ width (textOf (before ++ p :: after)).toList := by
    obtain ⟨_, _, htext, hbefore⟩ := hstands
    rw [hgenerated, htext]
    simp only [width_append, Piece.size] at hsize ⊢
    omega
  have hsegment : ∀ d ∈ distances (textOf (before ++ p :: after)).toList m,
      (segmentAt? (.ofText source) (.ofText (textOf (before ++ p :: after))) m d).isSome := by
    intro d hd
    have hlt := lt_of_mem_distances hcode.1 hd
    have hsourceLt : m.source.start + d ≤ width source.toList := by
      rcases List.mem_cons.1 hd with rfl | hd
      · omega
      · split at hd
        · next hverbatim =>
          simp only [Mapping.isVerbatim, Span.size, beq_iff_eq] at hverbatim
          omega
        · cases hd
    rw [segmentAt?_of_le (by omega) hsourceLt]
    rfl
  rw [segmentsOf_eq_ite, if_pos (hsegment 0 (List.mem_cons_self ..)), List.length_filterMap_eq_countP,
    List.countP_eq_length.2 hsegment, distances, List.length_cons, Nat.add_comm, hslice, Option.getD_some]
  split
  · rw [length_innerBreaks]
  · rfl

end Pieces

end SourceMap

namespace SpliceBuffer

open Splice SourceMap

variable {b : SpliceBuffer} {edits : List Splice}

/-! ### Replaced pieces -/

/-- The piece, if it is the new text of a span. -/
def replacedPiece? : Piece → Option (Span × String)
  | .replaced span text => some (span, text)
  | .copied .. | .inserted _ => none

/-- The replaced pieces are the replacements of the buffer, in the order of their offsets. -/
theorem filterMap_replacedPiece? (hs : b.Sound) : b.pieces.filterMap replacedPiece? =
    (List.range (width b.source.toList + 1)).filterMap fun o =>
      (b.replacements.find? o).map fun r => (⟨o, r.stop⟩, r.text) := by
  have hcopies : b.Copies (fun p => (replacedPiece? p).toList) fun _ => [] :=
    ⟨fun _ _ _ _ => by simp [replacedPiece?], rfl⟩
  have hat : b.contentAt (fun p => (replacedPiece? p).toList) (fun _ => []) b.points = fun o =>
      ((b.replacements.find? o).map fun r => ((⟨o, r.stop⟩ : Span), r.text)).toList := by
    funext o
    rw [contentAt_points, editsAt]
    cases b.insertions.find? o <;> cases b.replacements.find? o <;> simp [replacedPiece?]
  have hcontent := content_pieces hcopies hs
  rw [hat] at hcontent
  rw [List.filterMap_eq_flatMap_toList, List.filterMap_eq_flatMap_toList, hcontent]
  simp [replacedPiece?]

/-- No span is replaced by two pieces. -/
theorem nodup_replacedPieces (hs : b.Sound) : (b.pieces.filterMap replacedPiece?).Nodup := by
  rw [filterMap_replacedPiece? hs]
  refine List.Nodup.filterMap (fun o o' c ho ho' => ?_) List.nodup_range
  obtain ⟨r, -, rfl⟩ := Option.map_eq_some_iff.1 ho
  obtain ⟨r', -, h⟩ := Option.map_eq_some_iff.1 ho'
  exact (congrArg (fun c : Span × String => c.1.start) h).symm

/-- Every replacement of the buffer has a piece. -/
theorem mem_pieces_of_find? (hs : b.Sound) {span : Span} {text : String}
    (h : b.replacements.find? span.start = some ⟨span.stop, text⟩) : .replaced span text ∈ b.pieces := by
  have hle : span.start < width b.source.toList + 1 :=
    Nat.lt_succ_of_le (le_width_of_isBoundary (hs.replaced h).2.1)
  have hmem : (span, text) ∈ b.pieces.filterMap replacedPiece? := by
    rw [filterMap_replacedPiece? hs]
    exact List.mem_filterMap.2 ⟨span.start, List.mem_range.2 hle, by rw [h]; rfl⟩
  obtain ⟨p, hp, hpiece⟩ := List.mem_filterMap.1 hmem
  cases p with
  | replaced span' text' =>
    cases hpiece
    exact hp
  | copied => cases hpiece
  | inserted => cases hpiece

/-- In front of the new text of a span no mapping comes from an offset in the span. -/
theorem not_contains_before (h : b.Holds edits) (hs : b.Sound) {before after : List Piece} {span : Span} {text : String}
    (hpieces : b.pieces = before ++ .replaced span text :: after) {offset : Nat} {m : Mapping}
    (hm : m ∈ mappingsFrom offset before) {p : Nat} (hp : span.contains p = true) : m.source.contains p = false := by
  have hr : b.replacements.find? span.start = some ⟨span.stop, text⟩ :=
    find?_of_mem_pieces (by rw [hpieces]; simp)
  obtain ⟨front, q, back, rfl, hq⟩ := exists_piece_of_mem hm
  have hqmem : q ∈ b.pieces := by rw [hpieces]; simp
  refine Bool.eq_false_iff.2 fun hcontains => ?_
  obtain ⟨hsource, -, -⟩ := source_of_mappingOf hq
  cases q with
  | inserted text' => cases hsource
  | copied start text' =>
    -- what is copied is not replaced
    rw [← Option.some.inj hsource, Span.contains_iff] at hcontains
    dsimp only at hcontains
    have hlt : p - start < (bytes text'.toList).length := by
      rw [length_bytes]
      omega
    have htrace : ((bytes text'.toList)[p - start], Origin.copied p) ∈ b.pieces.flatMap Piece.trace := by
      refine List.mem_flatMap.2 ⟨_, hqmem, List.mem_of_getElem? (i := p - start) ?_⟩
      rw [Piece.trace, getElem?_traceBy, List.getElem?_eq_getElem hlt, Option.map_some, Nat.add_sub_cancel' hcontains.1]
    rw [h.trace_pieces hs] at htrace
    have hfilter := filter_traced b.source edits p
    rw [if_pos (h.replaces_of_contains hr hp)] at hfilter
    simpa using List.filter_eq_nil_iff.1 hfilter _ htrace
  | replaced span' text' =>
    -- another piece for the same span would be a second one
    have hsource : span' = m.source := Option.some.inj hsource
    rw [← hsource] at hcontains
    have hr' := find?_of_mem_pieces hqmem
    have hstart := hs.eq_of_contains hr' hr hcontains hp
    have hsame : (span', text') = (span, text) := by
      rw [hstart, hr] at hr'
      obtain ⟨start, stop⟩ := span
      obtain ⟨start', stop'⟩ := span'
      simp_all
    have hnodup := nodup_replacedPieces hs
    rw [hpieces, List.filterMap_append, List.nodup_append] at hnodup
    exact hnodup.2.2 (span', text') (List.mem_filterMap.2 ⟨.replaced span' text', by simp, rfl⟩) (span, text)
      (List.mem_filterMap.2 ⟨.replaced span text, List.mem_cons_self .., rfl⟩) hsame

/-! ### Which mappings are verbatim -/

/-- What the mapping of the new text of a span says. Whether it is taken for a copy is told from the widths alone;
if it is, the offsets in the span lead into the new text one by one, and the text has a segment at each of its
lines. -/
structure Rewritten (m : SourceMap) (source code : String) (span : Span) (text : String) (e : Mapping) : Prop where
  mem : e ∈ m.mappings
  source_eq : e.source = span
  bytes_eq : bytesIn code e.generated = bytes text.toList
  isVerbatim_iff : e.isVerbatim = true ↔ width text.toList = span.size
  generatedOf?_eq : ∀ p, span.contains p = true → m.generatedOf? p = some (if width text.toList = span.size then
    e.generated.start + (p - span.start) else e.generated.start)
  length_segments : (segmentsOf (.ofText source) (.ofText code) code.toList e).length =
    1 + if width text.toList = span.size then text.toList.dropLast.count '\n' else 0

theorem Holds.exists_rewritten (h : b.Holds edits) (hs : b.Sound) {span : Span} {text : String}
    (hmem : (span, text) ∈ edits.filterMap replacement?) (hne : text ≠ "") :
    ∃ e, Rewritten b.map b.source b.code span text e := by
  have hr := (h.replacement span text).1 hmem
  obtain ⟨hlt, -, hcut⟩ := hs.replaced hr
  have hstop : span.stop ≤ width b.source.toList := le_width_of_isBoundary hcut
  obtain ⟨before, after, hpieces⟩ := List.append_of_mem (mem_pieces_of_find? hs hr)
  have hsize : (Piece.replaced span text).size ≠ 0 := fun hzero =>
    hne (String.toList_injective (width_eq_zero hzero))
  have hm : mappingOf (width (textOf before).toList) (.replaced span text) = some
      ⟨⟨width (textOf before).toList, width (textOf before).toList + width text.toList⟩, span⟩ := if_neg hsize
  have hverbatim : (⟨⟨width (textOf before).toList, width (textOf before).toList + width text.toList⟩, span⟩ :
      Mapping).isVerbatim = true ↔ width text.toList = span.size := by
    simp [Mapping.isVerbatim, Span.size]
  have hcode : b.code = textOf (before ++ .replaced span text :: after) := by rw [code, hpieces]
  have hmap : b.map = ofPieces (before ++ .replaced span text :: after) := by rw [map, hpieces]
  refine ⟨_, ?_, rfl, ?_, hverbatim, fun p hp => ?_, ?_⟩
  · rw [hmap, mappings_split hm]
    simp
  · rw [hcode]
    exact bytesIn_generated hm
  · have hfind : b.map.mappings.find? (·.source.contains p) = some
        ⟨⟨width (textOf before).toList, width (textOf before).toList + width text.toList⟩, span⟩ := by
      rw [hmap, mappings_split hm, List.find?_append, List.find?_cons_of_pos (p := fun e : Mapping => e.source.contains p) hp,
        List.find?_eq_none.2 fun e he => Bool.eq_false_iff.1 (not_contains_before h hs hpieces he hp)]
      rfl
    rw [generatedOf?, hfind, Option.map_some]
    simp only [hverbatim]
  · rw [hcode, length_segmentsOf hm ⟨Nat.le_of_lt hlt, hstop⟩]
    simp only [hverbatim, Piece.text]

/-- A copied piece is what it comes from. -/
theorem Holds.bytesIn_copied (h : b.Holds edits) (hs : b.Sound) {before after : List Piece} {start : Nat} {text : String}
    (hpieces : b.pieces = before ++ .copied start text :: after) :
    bytesIn b.source ⟨start, start + width text.toList⟩ = bytes text.toList := by
  have hcopied : ∀ (g : Nat) x p, (b.pieces.flatMap Piece.trace)[g]? = some (x, Origin.copied p) →
      (bytes b.source.toList)[p]? = some x := fun g x p hg => by
    rw [h.trace_pieces hs] at hg
    exact getElem?_of_copied hg
  have htake := take_source hpieces hcopied (Nat.le_refl (width text.toList))
  rw [List.take_add] at htake
  have htail := List.append_cancel_left htake
  rwa [List.take_of_length_le (length_bytes text.toList).le, ← Nat.add_sub_cancel_left start (width text.toList)] at htail

/-- A mapping is for a copied piece or for the new text of a span. -/
theorem Holds.copies_or_rewritten (h : b.Holds edits) (hs : b.Sound) {m : Mapping} (hm : m ∈ b.map.mappings) :
    (m.isVerbatim = true ∧ m.Copies b.source b.code)
      ∨ ∃ text, (m.source, text) ∈ edits.filterMap replacement? ∧ text ≠ ""
        ∧ bytesIn b.code m.generated = bytes text.toList
        ∧ (m.isVerbatim = true ↔ width text.toList = m.source.size) := by
  obtain ⟨before, p, after, hpieces, hmapping⟩ := exists_piece_of_mem hm
  rw [Nat.zero_add] at hmapping
  have hbytes : bytesIn (textOf (before ++ p :: after)) m.generated = bytes p.text.toList := bytesIn_generated hmapping
  rw [← hpieces] at hbytes
  obtain ⟨hsource, hgenerated, hsize⟩ := source_of_mappingOf hmapping
  cases p with
  | inserted text => cases hsource
  | copied start text =>
    left
    obtain ⟨generated, source⟩ := m
    cases hsource
    subst hgenerated
    refine ⟨by simp [Mapping.isVerbatim, Span.size, Piece.size, Piece.text], ?_⟩
    rw [Mapping.Copies, h.bytesIn_copied hs hpieces]
    exact hbytes
  | replaced span text =>
    right
    cases hsource
    have hpiece : .replaced m.source text ∈ b.pieces := by rw [hpieces]; simp
    have hr := find?_of_mem_pieces hpiece
    refine ⟨text, (h.replacement _ _).2 hr, ?_, hbytes, ?_⟩
    · rintro rfl
      exact hsize rfl
    · rw [Mapping.isVerbatim, hgenerated]
      simp [Span.size, Piece.size, Piece.text]

end SpliceBuffer

open Splice SpliceBuffer in
/-- Where a map says verbatim. Every copy is; the mappings that are no copies and still verbatim are those of new
texts as wide as their spans. -/
structure SourceMap.Verbatim (m : SourceMap) (source code : String) (edits : List Splice) : Prop where
  of_copies : ∀ e ∈ m.mappings, e.Copies source code → e.isVerbatim = true
  copies_iff : (∀ e ∈ m.mappings, e.isVerbatim = true ↔ e.Copies source code) ↔
    ∀ span text, (span, text) ∈ edits.filterMap replacement? → text ≠ "" → width text.toList = span.size →
      bytes text.toList = bytesIn source span
  rewritten : ∀ span text, (span, text) ∈ edits.filterMap replacement? → text ≠ "" →
    ∃ e, Rewritten m source code span text e

namespace SpliceBuffer

open Splice SourceMap

variable {b : SpliceBuffer} {edits : List Splice}

theorem Holds.verbatim (h : b.Holds edits) (hs : b.Sound) : b.map.Verbatim b.source b.code edits where
  of_copies e he hcopies := by
    rcases h.copies_or_rewritten hs he with ⟨hverbatim, -⟩ | ⟨text, hmem, -, hbytes, hverbatim⟩
    · exact hverbatim
    · have hcut := (hs.replaced ((h.replacement _ _).1 hmem)).2.2
      rw [hverbatim, ← length_bytes, ← hbytes, hcopies, length_bytesIn (le_width_of_isBoundary hcut)]
  copies_iff := by
    constructor
    · intro hall span text hmem hne hwidth
      obtain ⟨e, he⟩ := h.exists_rewritten hs hmem hne
      rw [← he.bytes_eq, ← he.source_eq]
      exact (hall e he.mem).1 (he.isVerbatim_iff.2 hwidth)
    · intro hall e he
      rcases h.copies_or_rewritten hs he with ⟨hverbatim, hcopies⟩ | ⟨text, hmem, hne, hbytes, hverbatim⟩
      · exact iff_of_true hverbatim hcopies
      · rw [hverbatim, Mapping.Copies, hbytes]
        refine ⟨hall e.source text hmem hne, fun hcopies => ?_⟩
        have hcut := (hs.replaced ((h.replacement _ _).1 hmem)).2.2
        rw [← length_bytes, hcopies, length_bytesIn (le_width_of_isBoundary hcut)]
  rewritten span text hmem hne := h.exists_rewritten hs hmem hne

/-- Whatever edits are tried on a source, the map of the rendered text takes for copies all copies and the new texts
that are as wide as what they replace, and no others. -/
theorem verbatim_run (source : String) (edits : List Splice) :
    let b := (ofSource source).run edits
    b.map.Verbatim source b.code ((ofSource source).taken edits) := by
  obtain ⟨hs, hholds, hsource⟩ := holds_run (sound_ofSource source) (holds_ofSource source) edits
  have hverbatim := hholds.verbatim hs
  rwa [hsource] at hverbatim

/-- A new text of two lines that is as wide as what it replaces is taken for a copy. The offset in the middle leads to
the middle of it, and it has a segment for each line. -/
theorem verbatim_of_sameWidth :
    let b := (ofSource "abc").run [.update ⟨0, 3⟩ "x\ny"]
    b.code = "x\ny" ∧ (∃ m ∈ b.map.mappings, m.isVerbatim = true ∧ ¬ m.Copies "abc" b.code)
      ∧ b.map.generatedOf? 1 = some 1 ∧ (b.map.segments "abc" b.code).length = 2 := by
  decide +kernel

end SpliceBuffer

end Restyle
