import Restyle.Proofs.Source.MapReading
import Restyle.Proofs.Source.Places
import Restyle.Proofs.Splice.Tracing

/-! The segments that the map of an edited text is written in. They stand in the order of the generated
text, so all of them are read back, and a copy has one at its start and at each line that starts inside
it. The main statement is that the last segment in front of a copied byte names the line of the source
that the byte is from, as many columns in front of it there as in the generated text. -/

namespace Restyle

open Text

/-- The mapping of a copy. -/
def Mapping.verbatim (offset start n : Nat) : Mapping := ⟨⟨offset, offset + n⟩, ⟨start, start + n⟩⟩

namespace SourceMap

/-! ### The line starts of a copy -/

/-- In front of an offset of a text is the start of a line or of the text, without a line feed between
them, and the line starts that follow are behind the offset. -/
theorem exists_lineStart {cs : List Char} {i : Nat} (hi : i < width cs) : ∃ before d after,
    0 :: innerBreaks cs = before ++ d :: after ∧ d ≤ i ∧ (∀ d' ∈ after, i < d') ∧ 10 ∉ ((bytes cs).take i).drop d := by
  have hsorted := LineTable.pairwise_breaks 0 cs
  rw [← List.takeWhile_append_dropWhile (p := (· ≤ i)) (l := LineTable.breaks 0 cs)] at hsorted
  obtain ⟨-, hlater, -⟩ := List.pairwise_append.1 hsorted
  have hfront : ∀ d ∈ 0 :: (LineTable.breaks 0 cs).takeWhile (· ≤ i), d ≤ i := by
    intro d hd
    rcases List.mem_cons.1 hd with rfl | hd
    · exact Nat.zero_le i
    · simpa using List.mem_takeWhile_imp hd
  have hback : ∀ d ∈ (LineTable.breaks 0 cs).dropWhile (· ≤ i), i < d := by
    intro d hd
    cases hdrop : (LineTable.breaks 0 cs).dropWhile (· ≤ i) with
    | nil => simp [hdrop] at hd
    | cons first rest =>
      have hnot := List.head?_dropWhile_not (· ≤ i) (LineTable.breaks 0 cs)
      rw [hdrop] at hnot hlater hd
      have hfirst : i < first := by simpa using hnot
      rcases List.mem_cons.1 hd with rfl | hd
      · exact hfirst
      · exact Nat.lt_trans hfirst ((List.pairwise_cons.1 hlater).1 d hd)
  have hinner : innerBreaks cs = (LineTable.breaks 0 cs).takeWhile (· ≤ i)
      ++ ((LineTable.breaks 0 cs).dropWhile (· ≤ i)).filter (· < width cs) := by
    have hkeep : ((LineTable.breaks 0 cs).takeWhile (· ≤ i)).filter (· < width cs) =
        (LineTable.breaks 0 cs).takeWhile (· ≤ i) := by
      refine List.filter_eq_self.2 fun d hd => ?_
      have := hfront d (List.mem_cons_of_mem 0 hd)
      simp only [decide_eq_true_eq]
      omega
    conv_lhs => rw [innerBreaks, ← List.takeWhile_append_dropWhile (p := (· ≤ i)) (l := LineTable.breaks 0 cs)]
    rw [List.filter_append, hkeep]
  have hne : 0 :: (LineTable.breaks 0 cs).takeWhile (· ≤ i) ≠ [] := List.cons_ne_nil _ _
  refine ⟨(0 :: (LineTable.breaks 0 cs).takeWhile (· ≤ i)).dropLast,
    (0 :: (LineTable.breaks 0 cs).takeWhile (· ≤ i)).getLast hne,
    ((LineTable.breaks 0 cs).dropWhile (· ≤ i)).filter (· < width cs), ?_, hfront _ (List.getLast_mem hne),
    fun d hd => hback d (List.mem_of_mem_filter hd), ?_⟩
  · rw [hinner, ← List.cons_append, List.append_cons, List.dropLast_append_getLast hne]
  · refine Place.line_feed_not_mem_drop ?_
    rw [LineTable.behind_take (Nat.le_of_lt hi), List.length_take, length_bytes, Nat.min_eq_left (Nat.le_of_lt hi), List.getLast_eq_getLastD hne,
      List.getLastD_eq_getLast?]

/-! ### The segments of a mapping -/

section Segments

variable {source generated : String} {m : Mapping} {d : Nat} {s : Segment}

/-- The segment at a distance from the starts of a mapping, if there are places there. -/
def segmentAt? (source generated : LineTable) (m : Mapping) (distance : Nat) : Option Segment := do
  some ⟨← generated.place? (m.generated.start + distance), ← source.place? (m.source.start + distance)⟩

/-- The distances at which a mapping has segments. -/
def distances (generated : List Char) (m : Mapping) : List Nat :=
  0 :: if m.isVerbatim then innerBreaks ((slice? generated m.generated.start m.generated.stop).getD []) else []

theorem segmentsOf_eq_ite (source generated : LineTable) (cs : List Char) (m : Mapping) :
    segmentsOf source generated cs m = if (segmentAt? source generated m 0).isSome then
      (distances cs m).filterMap (segmentAt? source generated m) else [] := by
  cases h : segmentAt? source generated m 0 with
  | none =>
    unfold segmentsOf segmentAt? at *
    simp only [h]; rfl
  | some first =>
    rw [distances, List.filterMap_cons_some h]
    unfold segmentsOf segmentAt? at *
    simp only [h]; rfl

theorem generated_of_segmentAt? (h : segmentAt? (.ofText source) (.ofText generated) m d = some s) :
    (LineTable.ofText generated).place? (m.generated.start + d) = some s.generated := by
  simp only [segmentAt?, Option.bind_eq_bind, Option.bind_eq_some_iff, Option.some.injEq] at h
  obtain ⟨p, hp, q, -, rfl⟩ := h
  exact hp

theorem segmentAt?_of_le (hg : m.generated.start + d ≤ width generated.toList)
    (hs : m.source.start + d ≤ width source.toList) :
    segmentAt? (.ofText source) (.ofText generated) m d =
      some ⟨Place.behind ((bytes generated.toList).take (m.generated.start + d)),
        Place.behind ((bytes source.toList).take (m.source.start + d))⟩ := by
  simp [segmentAt?, LineTable.place?_of_le hg, LineTable.place?_of_le hs]

theorem lt_of_mem_innerBreaks {cs : List Char} (h : d ∈ innerBreaks cs) : 0 < d ∧ d < width cs := by
  obtain ⟨hd, hlt⟩ := List.mem_filter.1 h
  exact ⟨LineTable.lt_of_mem_breaks hd, by simpa using hlt⟩

theorem lt_of_mem_distances {cs : List Char} (hm : m.generated.start < m.generated.stop) (h : d ∈ distances cs m) :
    m.generated.start + d < m.generated.stop := by
  rcases List.mem_cons.1 h with rfl | hd
  · exact hm
  · split at hd
    · have hlt := (lt_of_mem_innerBreaks hd).2
      cases hslice : slice? cs m.generated.start m.generated.stop with
      | none => simp [hslice] at hlt
      | some inside =>
        have hstop := (slice?_eq_some_iff.1 hslice).2
        rw [hslice, Option.getD_some] at hlt
        omega
    · cases hd

theorem pairwise_distances (cs : List Char) (m : Mapping) : (distances cs m).Pairwise (· < ·) := by
  refine List.pairwise_cons.2 ⟨fun d hd => ?_, ?_⟩
  · split at hd
    · exact (lt_of_mem_innerBreaks hd).1
    · cases hd
  · split
    · exact (LineTable.pairwise_breaks 0 _).filter _
    · exact List.Pairwise.nil

/-- The segments of a mapping begin inside it. -/
theorem exists_offset_of_mem_segmentsOf {cs : List Char} (hm : m.generated.start < m.generated.stop)
    (h : s ∈ segmentsOf (.ofText source) (.ofText generated) cs m) :
    ∃ o, m.generated.start ≤ o ∧ o < m.generated.stop ∧ (LineTable.ofText generated).place? o = some s.generated := by
  rw [segmentsOf_eq_ite] at h
  split at h
  · obtain ⟨d, hd, hs⟩ := List.mem_filterMap.1 h
    exact ⟨_, Nat.le_add_right .., lt_of_mem_distances hm hd, generated_of_segmentAt? hs⟩
  · cases h

theorem pairwise_segmentsOf (source generated : String) (cs : List Char) (m : Mapping) :
    (segmentsOf (.ofText source) (.ofText generated) cs m).Pairwise (·.generated.Before ·.generated) := by
  rw [segmentsOf_eq_ite]
  split
  · refine (pairwise_distances cs m).filterMap _ fun d d' hlt s hs s' hs' => ?_
    exact LineTable.before_of_lt (generated_of_segmentAt? hs) (generated_of_segmentAt? hs')
      (Nat.add_lt_add_left hlt _)
  · exact List.Pairwise.nil

/-- The segments of mappings in order are in order. -/
theorem pairwise_flatMap_segmentsOf {ms : List Mapping} {lo hi : Nat} {cs : List Char}
    (h : Span.InOrder lo (ms.map (·.generated)) hi) :
    (ms.flatMap (segmentsOf (.ofText source) (.ofText generated) cs)).Pairwise (·.generated.Before ·.generated) := by
  induction ms generalizing lo with
  | nil => exact List.Pairwise.nil
  | cons m ms ih =>
    rw [List.map_cons] at h
    obtain ⟨-, hm, hrest⟩ := h
    rw [List.flatMap_cons]
    refine List.pairwise_append.2 ⟨pairwise_segmentsOf .., ih hrest, fun s hs s' hs' => ?_⟩
    obtain ⟨o, -, ho, hplace⟩ := exists_offset_of_mem_segmentsOf hm hs
    obtain ⟨m', hm', hs'⟩ := List.mem_flatMap.1 hs'
    obtain ⟨hle, hlt, -⟩ := hrest.of_mem (List.mem_map_of_mem hm')
    obtain ⟨o', ho', -, hplace'⟩ := exists_offset_of_mem_segmentsOf hlt hs'
    exact LineTable.before_of_lt hplace hplace' (by omega)

end Segments

/-- All segments of a map are read back. -/
theorem entries?_ofPieces (ps : List Piece) (source generated sourceName : String) :
    MapFile.entries? (MapFile.ofMap (ofPieces ps) source generated sourceName).mappings =
      some (((ofPieces ps).segments source generated).map MapFile.Entry.ofSegment) := by
  obtain ⟨hi, horder⟩ := inOrder_mappingsFrom 0 ps
  refine MapFile.entries?_encode ((pairwise_flatMap_segmentsOf horder).imp fun {s s'} hbefore => ?_)
  rcases hbefore with hlt | ⟨heq, -⟩
  · exact Nat.le_of_lt hlt
  · exact Nat.le_of_eq heq

/-! ### The segment of a copied byte -/

theorem mappingsFrom_append (offset : Nat) (ps qs : List Piece) :
    mappingsFrom offset (ps ++ qs) =
      mappingsFrom offset ps ++ mappingsFrom (offset + width (textOf ps).toList) qs := by
  induction ps generalizing offset with
  | nil => simp [mappingsFrom, textOf]
  | cons p ps ih =>
    rw [List.cons_append, mappingsFrom, mappingsFrom, ih, List.append_assoc, textOf_cons, String.toList_append,
      width_append, Piece.size, Nat.add_assoc]

/-- A byte that was copied is in a copied piece. -/
theorem exists_copied_piece {ps : List Piece} {g p : Nat} {x : UInt8}
    (h : (ps.flatMap Piece.trace)[g]? = some (x, .copied p)) : ∃ before start text after i,
      ps = before ++ .copied start text :: after ∧ i < width text.toList
        ∧ g = width (textOf before).toList + i ∧ p = start + i := by
  induction ps generalizing g with
  | nil => cases h
  | cons q ps ih =>
    rw [List.flatMap_cons, List.getElem?_append, Piece.length_trace] at h
    split at h
    · next hlt =>
      cases q with
      | copied start text =>
        rw [Piece.trace, getElem?_traceBy] at h
        obtain ⟨y, -, hy⟩ := Option.map_eq_some_iff.1 h
        cases hy
        exact ⟨[], start, text, ps, g, rfl, hlt, by simp [textOf], rfl⟩
      | replaced span text =>
        obtain ⟨i, -, horigin⟩ := exists_of_mem_traceBy (List.mem_of_getElem? h)
        cases horigin
      | inserted text =>
        obtain ⟨i, -, horigin⟩ := exists_of_mem_traceBy (List.mem_of_getElem? h)
        cases horigin
    · next hge =>
      obtain ⟨before, start, text, after, i, rfl, hi, hg, hp⟩ := ih h
      refine ⟨q :: before, start, text, after, i, rfl, hi, ?_, hp⟩
      rw [textOf_cons, String.toList_append, width_append, ← Piece.size]
      omega

end SourceMap

namespace MapFile

/-- Segments lead from a generated place to one of the source: the last one in front of the first place
names the line of the second, and is as far in front of it. -/
def Leads (entries : List Entry) (generated source : Place) : Prop :=
  ∃ e o, entryAt? entries generated = some e ∧ e.origin = some o ∧ o.source = 0 ∧ o.line = source.line
    ∧ o.column + (generated.column - e.column) = source.column

theorem Entry.precedes_ofSegment {s : Segment} {p : Place} :
    (Entry.ofSegment s).Precedes p ↔ s.generated.line = p.line ∧ s.generated.column ≤ p.column := by
  simp [Precedes, ofSegment]

/-- The last segment in front of a place is the one behind which all are past the place. -/
theorem entryAt?_of_before {segments later : List Segment} {s : Segment} {p : Place}
    (hline : s.generated.line = p.line) (hcolumn : s.generated.column ≤ p.column)
    (hlater : ∀ t ∈ later, p.Before t.generated) :
    entryAt? ((segments ++ s :: later).map .ofSegment) p = some (.ofSegment s) := by
  have hnone : (later.map Entry.ofSegment).filter (fun e => decide (e.Precedes p)) = [] := by
    refine List.filter_eq_nil_iff.2 fun e he => ?_
    obtain ⟨t, ht, rfl⟩ := List.mem_map.1 he
    have hbefore := hlater t ht
    rw [decide_eq_true_iff, Entry.precedes_ofSegment]
    unfold Place.Before at hbefore
    omega
  have hself : decide ((Entry.ofSegment s).Precedes p) = true :=
    decide_eq_true (Entry.precedes_ofSegment.2 ⟨hline, hcolumn⟩)
  rw [entryAt?, List.map_append, List.map_cons, List.filter_append,
    List.filter_cons_of_pos (p := fun e => decide (Entry.Precedes e p)) hself, hnone]
  exact List.getLast?_concat

end MapFile

namespace SourceMap

/-- A byte of a copy has a segment of the copy in front of it, without a line feed between them, and those
that follow are behind the byte. -/
theorem segmentsOf_copy {source code : String} {text : List Char} {offset start i : Nat}
    (htext : Stands code.toList offset text) (hsource : start + width text ≤ width source.toList)
    (hi : i < width text) : ∃ first d later,
      segmentsOf (.ofText source) (.ofText code) code.toList
          (.verbatim offset start (width text)) =
        first ++ ⟨Place.behind ((bytes code.toList).take (offset + d)),
          Place.behind ((bytes source.toList).take (start + d))⟩ :: later
      ∧ d ≤ i ∧ 10 ∉ ((bytes text).take i).drop d
      ∧ ∀ s ∈ later, ∃ o, offset + i < o ∧ (LineTable.ofText code).place? o = some s.generated := by
  obtain ⟨front, d, back, hbreaks, hd, hback, hline⟩ := exists_lineStart hi
  have hcode : offset + width text ≤ width code.toList := by
    obtain ⟨before, after, hcs, rfl⟩ := htext
    rw [hcs, width_append, width_append]
    omega
  have hsegment : ∀ d ≤ i, segmentAt? (.ofText source) (.ofText code)
      (.verbatim offset start (width text)) d =
        some ⟨Place.behind ((bytes code.toList).take (offset + d)),
          Place.behind ((bytes source.toList).take (start + d))⟩ := fun d hd =>
    segmentAt?_of_le (by dsimp only [Mapping.verbatim]; omega) (by dsimp only [Mapping.verbatim]; omega)
  have hdistances : distances code.toList (.verbatim offset start (width text)) = front ++ d :: back := by
    rw [← hbreaks, distances, if_pos (by simp [Mapping.isVerbatim, Mapping.verbatim, Span.size]), Mapping.verbatim,
      htext.slice?, Option.getD_some]
  refine ⟨front.filterMap (segmentAt? (.ofText source) (.ofText code) (.verbatim offset start (width text))), d,
    back.filterMap (segmentAt? (.ofText source) (.ofText code) (.verbatim offset start (width text))), ?_, hd, hline, fun s hs => ?_⟩
  · rw [segmentsOf_eq_ite, hsegment 0 (Nat.zero_le i), Option.isSome_some, if_pos rfl, hdistances,
      List.filterMap_append, List.filterMap_cons_some (hsegment d hd)]
  · obtain ⟨d', hd', hs⟩ := List.mem_filterMap.1 hs
    exact ⟨_, Nat.add_lt_add_left (hback d' hd') offset, generated_of_segmentAt? hs⟩

section Copied

variable {before after : List Piece} {start : Nat} {text source : String}

/-- The pieces before a copy are in front of its bytes. -/
theorem take_textOf {k : Nat} (hk : k ≤ width text.toList) :
    (bytes (textOf (before ++ .copied start text :: after)).toList).take (width (textOf before).toList + k) =
      bytes (textOf before).toList ++ (bytes text.toList).take k := by
  rw [textOf_append, textOf_cons, String.toList_append, String.toList_append, bytes_append, bytes_append,
    ← length_bytes, List.take_length_add_append, Piece.text, List.take_append_of_le_length (by simpa using hk)]

/-- The bytes of a copy are in the source where it starts, if all bytes copied are. -/
theorem take_source {ps : List Piece} (hps : ps = before ++ .copied start text :: after)
    (hcopied : ∀ (g : Nat) x p, (ps.flatMap Piece.trace)[g]? = some (x, Origin.copied p) →
      (bytes source.toList)[p]? = some x) {k : Nat} (hk : k ≤ width text.toList) :
    (bytes source.toList).take (start + k) = (bytes source.toList).take start ++ (bytes text.toList).take k := by
  rw [List.take_add]
  congr 1
  refine List.ext_getElem? fun j => ?_
  rcases Nat.lt_or_ge j k with hj | hj
  · have hlt : j < (bytes text.toList).length := by
      rw [length_bytes]
      omega
    have htrace : (ps.flatMap Piece.trace)[width (textOf before).toList + j]? =
        some ((bytes text.toList)[j], .copied (start + j)) := by
      rw [hps, List.flatMap_append, ← length_flatMap_trace, List.getElem?_append_right (Nat.le_add_right ..),
        Nat.add_sub_cancel_left, List.flatMap_cons, List.getElem?_append_left (by simpa [Piece.trace] using hlt),
        Piece.trace, getElem?_traceBy, List.getElem?_eq_getElem hlt, Option.map_some]
    rw [List.getElem?_take_of_lt hj, List.getElem?_take_of_lt hj, List.getElem?_drop, hcopied _ _ _ htrace,
      List.getElem?_eq_getElem hlt]
  · rw [List.getElem?_take_eq_none hj, List.getElem?_take_eq_none hj]

/-- The pieces behind a copy have their segments behind it. -/
theorem exists_segment {code : String} (hcode : textOf (before ++ .copied start text :: after) = code)
    (hsource : start + width text.toList ≤ width source.toList) {i : Nat} (hi : i < width text.toList) :
    ∃ first d later, (ofPieces (before ++ .copied start text :: after)).segments source code =
        first ++ ⟨Place.behind ((bytes code.toList).take (width (textOf before).toList + d)),
          Place.behind ((bytes source.toList).take (start + d))⟩ :: later
      ∧ d ≤ i ∧ 10 ∉ ((bytes text.toList).take i).drop d
      ∧ ∀ s ∈ later, ∃ o, width (textOf before).toList + i < o
          ∧ (LineTable.ofText code).place? o = some s.generated := by
  have htext : code.toList = (textOf before).toList ++ (text.toList ++ (textOf after).toList) := by
    rw [← hcode, textOf_append, textOf_cons, String.toList_append, String.toList_append]
    rfl
  obtain ⟨first, d, later, hself, hd, hline, hlater⟩ := segmentsOf_copy ⟨_, _, htext, rfl⟩ hsource hi
  have hm : mappingOf (width (textOf before).toList) (.copied start text) =
      some (.verbatim (width (textOf before).toList) start (width text.toList)) := if_neg (by simp only [Piece.size, Piece.text]; omega)
  obtain ⟨hi, horder⟩ := inOrder_mappingsFrom (width (textOf before).toList + width text.toList) after
  refine ⟨((mappingsFrom 0 before).flatMap (segmentsOf (.ofText source) (.ofText code) code.toList)) ++ first, d,
    later ++ (mappingsFrom (width (textOf before).toList + width text.toList) after).flatMap
      (segmentsOf (.ofText source) (.ofText code) code.toList), ?_, hd, hline, fun s hs => ?_⟩
  · have hsplit : mappingsFrom 0 (before ++ .copied start text :: after) = mappingsFrom 0 before
        ++ (.verbatim (width (textOf before).toList) start (width text.toList) ::
          mappingsFrom (width (textOf before).toList + width text.toList) after) := by
      rw [mappingsFrom_append, mappingsFrom, Nat.zero_add, hm]
      rfl
    rw [segments, ofPieces, hsplit]
    dsimp only
    rw [List.flatMap_append, List.flatMap_cons, hself]
    simp only [List.append_assoc, List.cons_append]
  · rcases List.mem_append.1 hs with hs | hs
    · exact hlater s hs
    · obtain ⟨m, hm, hs⟩ := List.mem_flatMap.1 hs
      obtain ⟨hle, hlt, -⟩ := horder.of_mem (List.mem_map_of_mem hm)
      obtain ⟨o, ho, -, hplace⟩ := exists_offset_of_mem_segmentsOf hlt hs
      exact ⟨o, by omega, hplace⟩

/-- The segments of the pieces of a text lead from each copied byte to where it was copied from, if all
bytes copied are bytes of the source. -/
theorem leads_ofPieces {ps : List Piece} {g p : Nat} {x : UInt8}
    (hcopied : ∀ (g : Nat) x p, (ps.flatMap Piece.trace)[g]? = some (x, Origin.copied p) →
      (bytes source.toList)[p]? = some x)
    (h : (ps.flatMap Piece.trace)[g]? = some (x, .copied p)) :
    MapFile.Leads (((ofPieces ps).segments source (textOf ps)).map .ofSegment)
      (Place.behind ((bytes (textOf ps).toList).take g)) (Place.behind ((bytes source.toList).take p)) := by
  obtain ⟨before, start, text, after, i, hps, hi, rfl, rfl⟩ := exists_copied_piece h
  have hsource : start + width text.toList ≤ width source.toList := by
    have hlength := congrArg List.length (take_source hps hcopied (Nat.le_refl _))
    simp only [List.length_take, List.length_append, length_bytes] at hlength
    omega
  subst hps
  obtain ⟨first, d, later, hsegments, hd, hline, hlater⟩ := exists_segment rfl hsource hi
  have hi' : i ≤ (bytes text.toList).length := by
    rw [length_bytes]
    omega
  -- both places are as far behind those of the segment as the byte is in the copy
  have hgenerated := Place.behind_append_take (bytes (textOf before).toList) hd hi' hline
  rw [← take_textOf (Nat.le_of_lt hi), ← take_textOf (by omega)] at hgenerated
  have horigin := Place.behind_append_take ((bytes source.toList).take start) hd hi' hline
  rw [← take_source rfl hcopied (Nat.le_of_lt hi), ← take_source rfl hcopied (by omega)] at horigin
  rw [hsegments]
  refine ⟨_, _, MapFile.entryAt?_of_before ?_ ?_ fun s hs => ?_, rfl, rfl, ?_, ?_⟩
  · rw [hgenerated]
  · rw [hgenerated]
    exact Nat.le_add_right ..
  · obtain ⟨o, ho, hplace⟩ := hlater s hs
    have hle : width (textOf before).toList + i ≤
        width (textOf (before ++ .copied start text :: after)).toList := by
      rw [textOf_append, textOf_cons, String.toList_append, String.toList_append, width_append, width_append]
      simp only [Piece.text]
      omega
    exact LineTable.before_of_lt (LineTable.place?_of_le hle) hplace ho
  · rw [horigin]
    rfl
  · rw [hgenerated, horigin]
    simp only [MapFile.Entry.ofSegment, MapFile.SourcePlace.ofPlace]
    omega

end Copied

end SourceMap

/-! ### Edited texts -/

namespace SpliceBuffer

open Splice

variable {b : SpliceBuffer} {edits : List Splice}

/-- What is traced to an offset of the source is its byte. -/
theorem getElem?_of_copied {source : String} {g p : Nat} {x : UInt8}
    (h : (traced source edits)[g]? = some (x, .copied p)) : (bytes source.toList)[p]? = some x := by
  have hmem : (x, Origin.copied p) ∈ (traced source edits).filter (·.2 = .copied p) :=
    List.mem_filter.2 ⟨List.mem_of_getElem? h, by simp⟩
  rw [filter_traced] at hmem
  split at hmem
  · cases hmem
  · obtain ⟨y, hy, hxy⟩ := List.mem_map.1 hmem
    cases hxy
    exact Option.mem_toList.1 hy

/-- Whatever edits are tried on a source, the map file of the rendered text can be read, and its segments
lead from the one copy of each offset that is not replaced to that offset. -/
theorem leads_run (source : String) (edits : List Splice) (sourceName : String) :
    let b := (ofSource source).run edits
    let taken := (ofSource source).taken edits
    ∃ entries, MapFile.entries? (MapFile.ofMap b.map source b.code sourceName).mappings = some entries ∧
      ∀ p, p < width source.toList → replaces taken p = false → ∃ g,
        (∃ x, (bytes source.toList)[p]? = some x ∧ (traced source taken)[g]? = some (x, .copied p))
          ∧ (∀ g' x, (traced source taken)[g']? = some (x, .copied p) → g' = g)
          ∧ MapFile.Leads entries (Place.behind ((bytes b.code.toList).take g))
            (Place.behind ((bytes source.toList).take p)) := by
  obtain ⟨hs, hholds, hsource⟩ := holds_run (sound_ofSource source) (holds_ofSource source) edits
  refine ⟨_, SourceMap.entries?_ofPieces .., fun p hp hkept => ?_⟩
  obtain ⟨g, hg, honly, -⟩ := exists_copy hp hkept
  refine ⟨g, hg, honly, ?_⟩
  obtain ⟨x, -, hx⟩ := hg
  have htrace := hholds.trace_pieces hs
  rw [hsource] at htrace
  refine SourceMap.leads_ofPieces (fun g x p hcopy => ?_) (x := x) ?_
  · rw [htrace] at hcopy
    exact getElem?_of_copied hcopy
  · rw [htrace]
    exact hx

end SpliceBuffer

end Restyle
