import Restyle.Proofs.Source.Origins
import Restyle.Proofs.Splice.Meaning

/-! The origins of the bytes of an edited text, told from the edits alone, next to what the edits mean.
The main statement is that the map of the rendered text answers as the edits say: a kept offset and its
one copy lead to each other, inserted text leads nowhere, the new text of a span leads into the span, and
nothing leads to a span that was removed. The sums that lead into a span are made in 32 bits, which are too
few for a text that replaces the end of a long source: it leads out of the span where its sums do not fit. -/

namespace Restyle

open Text

theorem Piece.map_fst_trace (p : Piece) : p.trace.map Prod.fst = p.bytes := by
  cases p <;> exact map_fst_traceBy

/-! ### What edits say of the origins -/

namespace Splice

/-- The replacement that starts at an offset, with the origins of its bytes. -/
def newTrace (edits : List Splice) (o : Nat) : Trace :=
  ((edits.filterMap replacement?).find? (·.1.start = o)).elim [] fun c => traceBy c.2 (.replaced c.1)

/-- What an offset of the source means after edits, with origins. -/
def tracedAt (source : List UInt8) (edits : List Splice) (o : Nat) : Trace :=
  traceBy (left edits o ++ right edits o) (fun _ => .inserted) ++ newTrace edits o
    ++ if replaces edits o then [] else source[o]?.toList.map fun x => (x, .copied o)

/-- The bytes of a source after edits, with their origins. -/
def traced (source : String) (edits : List Splice) : Trace :=
  traceBy (front edits) (fun _ => .inserted)
    ++ (List.range (width source.toList + 1)).flatMap (tracedAt (bytes source.toList) edits)
    ++ traceBy (back edits) fun _ => .inserted

end Splice

namespace SpliceBuffer

open Splice

variable {b : SpliceBuffer} {edits : List Splice}

/-- The bytes between two offsets of the source, each copied from where it is. -/
theorem flatMap_copied (xs : List UInt8) (i n : Nat) :
    (List.range' i n).flatMap (fun o => xs[o]?.toList.map fun x => (x, Origin.copied o)) =
      ((xs.drop i).take n).mapIdx fun k x => (x, Origin.copied (i + k)) := by
  induction n generalizing i with
  | zero => simp
  | succ n ih =>
    rw [List.range'_succ, List.flatMap_cons, ih]
    by_cases h : i < xs.length
    · rw [List.drop_eq_getElem_cons h, List.getElem?_eq_getElem h, List.take_succ_cons, List.mapIdx_cons]
      have hnext : (fun k (x : UInt8) => (x, Origin.copied (i + 1 + k))) =
          fun k x => (x, Origin.copied (i + (k + 1))) := by
        funext k x
        rw [Nat.add_assoc, Nat.add_comm 1 k]
      rw [hnext]
      rfl
    · have h : xs.length ≤ i := Nat.le_of_not_lt h
      simp [List.getElem?_eq_none h, List.drop_eq_nil_of_le h, List.drop_eq_nil_of_le (Nat.le_succ_of_le h)]

theorem copies_trace (b : SpliceBuffer) :
    b.Copies Piece.trace fun o => (bytes b.source.toList)[o]?.toList.map fun x => (x, .copied o) where
  copied before mid rest hsource := by
    rw [flatMap_copied, hsource, bytes_append, bytes_append, List.drop_left' (length_bytes before),
      List.take_left' (length_bytes mid), Piece.trace, traceBy, String.toList_ofList]
  atEnd := by simp

theorem trace_editsAt (o : Nat) :
    (b.editsAt o).flatMap Piece.trace =
      traceBy (((b.insertions.find? o).getD default).left ++ ((b.insertions.find? o).getD default).right)
          (fun _ => .inserted)
        ++ (b.replacements.find? o).elim [] fun r => traceBy r.text (.replaced ⟨o, r.stop⟩) := by
  have hempty : (default : Insertion) = ⟨"", ""⟩ := rfl
  unfold editsAt
  cases b.insertions.find? o <;> cases b.replacements.find? o <;>
    simp [Piece.trace, traceBy, hempty, List.mapIdx_append]

theorem Holds.newTrace_eq (h : b.Holds edits) (o : Nat) :
    newTrace edits o = (b.replacements.find? o).elim [] fun r => traceBy r.text (.replaced ⟨o, r.stop⟩) := by
  rw [newTrace, h.find?_replacement]
  cases b.replacements.find? o <;> rfl

theorem Holds.tracedAt_eq (h : b.Holds edits) (o : Nat) :
    b.contentAt Piece.trace (fun o => (bytes b.source.toList)[o]?.toList.map fun x => (x, .copied o)) b.points o =
      tracedAt (bytes b.source.toList) edits o := by
  rw [contentAt_points, tracedAt, trace_editsAt, h.insertion, h.newTrace_eq]
  simp [h.replaces_iff]

/-- The pieces of a sound buffer have the origins that the edits which it holds say. -/
theorem Holds.trace_pieces (h : b.Holds edits) (hs : b.Sound) :
    b.pieces.flatMap Piece.trace = traced b.source edits := by
  rw [content_pieces b.copies_trace hs, funext h.tracedAt_eq, traced, h.front_eq, h.back_eq]
  rfl

/-! ### The one copy of an offset -/

theorem flatMap_range_single {α : Type} (p n : Nat) (xs : List α) :
    (List.range n).flatMap (fun o => if o = p then xs else []) = if p < n then xs else [] := by
  induction n with
  | zero => rfl
  | succ n ih =>
    rw [List.range_succ, List.flatMap_append, ih, List.flatMap_singleton]
    by_cases h : n = p
    · simp [h]
    · by_cases hlt : p < n
      · simp [h, hlt, Nat.lt_succ_of_lt hlt]
      · have hge : ¬ p < n + 1 := by omega
        simp [h, hlt, hge]

theorem filter_traceBy_of_ne {text : String} {origin : Nat → Origin} {p : Nat} (h : ∀ i, origin i ≠ .copied p) :
    (traceBy text origin).filter (·.2 = .copied p) = [] := by
  refine List.filter_eq_nil_iff.2 fun t ht => ?_
  obtain ⟨i, -, horigin⟩ := exists_of_mem_traceBy ht
  simp [horigin, h i]

theorem filter_tracedAt (source : List UInt8) (edits : List Splice) (o p : Nat) :
    (tracedAt source edits o).filter (·.2 = .copied p) =
      if o = p then (if replaces edits p then [] else source[p]?.toList.map fun x => (x, .copied p)) else [] := by
  have hnew : (newTrace edits o).filter (·.2 = .copied p) = [] := by
    unfold newTrace
    cases (edits.filterMap replacement?).find? (·.1.start = o) with
    | none => rfl
    | some c => exact filter_traceBy_of_ne (by simp)
  rw [tracedAt, List.filter_append, List.filter_append, filter_traceBy_of_ne (by simp), hnew]
  by_cases h : o = p
  · subst h
    cases replaces edits o <;> cases source[o]? <;> simp
  · cases replaces edits o <;> cases source[o]? <;> simp [h]

/-- What is copied from an offset of the source is its byte, once, unless that is replaced. -/
theorem filter_traced (source : String) (edits : List Splice) (p : Nat) :
    (traced source edits).filter (·.2 = .copied p) =
      if replaces edits p then [] else (bytes source.toList)[p]?.toList.map fun x => (x, .copied p) := by
  have hat : (fun o => (tracedAt (bytes source.toList) edits o).filter (·.2 = .copied p)) = fun o =>
      if o = p then (if replaces edits p then [] else (bytes source.toList)[p]?.toList.map fun x => (x, .copied p))
      else [] := funext fun o => filter_tracedAt _ edits o p
  rw [traced, List.filter_append, List.filter_append, filter_traceBy_of_ne (by simp),
    filter_traceBy_of_ne (by simp), List.filter_flatMap, hat, flatMap_range_single]
  by_cases hp : p < width source.toList + 1
  · simp [hp]
  · have hnone : (bytes source.toList)[p]? = none := List.getElem?_eq_none (by simp; omega)
    simp [hp, hnone]

/-- The only element that passes a test has one place, which is the first where the test holds. -/
theorem exists_place {α : Type} {xs : List α} {test : α → Bool} {x : α} (h : xs.filter test = [x]) :
    ∃ g, xs[g]? = some x ∧ xs.findIdx? test = some g ∧ ∀ g' y, xs[g']? = some y → test y = true → g' = g := by
  obtain ⟨before, after, rfl, hbefore, hx, hafter⟩ := List.filter_eq_cons_iff.1 h
  have hnone : before.findIdx? test = none :=
    List.findIdx?_eq_none_iff.2 fun y hy => Bool.eq_false_iff.2 (hbefore y hy)
  refine ⟨before.length, by simp, ?_, fun g' y hg' hy => ?_⟩
  · rw [List.findIdx?_append, hnone, List.findIdx?_cons, if_pos hx]
    simp
  · rcases Nat.lt_trichotomy g' before.length with hlt | heq | hgt
    · rw [List.getElem?_append_left hlt] at hg'
      exact absurd hy (hbefore y (List.mem_of_getElem? hg'))
    · exact heq
    · obtain ⟨k, rfl⟩ : ∃ k, g' = before.length + (k + 1) := ⟨g' - before.length - 1, by omega⟩
      rw [List.getElem?_append_right (by omega), Nat.add_sub_cancel_left, List.getElem?_cons_succ] at hg'
      exact absurd hy (List.filter_eq_nil_iff.1 hafter y (List.mem_of_getElem? hg'))

/-- An offset that is not replaced has one copy. -/
theorem exists_copy {source : String} {edits : List Splice} {p : Nat} (hp : p < width source.toList)
    (hkept : replaces edits p = false) : ∃ g,
      (∃ x, (bytes source.toList)[p]? = some x ∧ (traced source edits)[g]? = some (x, .copied p))
        ∧ (∀ g' x, (traced source edits)[g']? = some (x, .copied p) → g' = g)
        ∧ (traced source edits).findIdx? (·.2 = .copied p) = some g := by
  have hlt : p < (bytes source.toList).length := by simpa using hp
  have hbyte : (bytes source.toList)[p]? = some (bytes source.toList)[p] := List.getElem?_eq_getElem hlt
  have hfilter := filter_traced source edits p
  rw [hkept, hbyte] at hfilter
  obtain ⟨g, hg, hfirst, honly⟩ := exists_place hfilter
  exact ⟨g, ⟨_, hbyte, hg⟩, fun g' x hg' => honly g' _ hg' (by simp), hfirst⟩

/-! ### The map of an edited text -/

theorem find?_of_mem_editsAt {o : Nat} {span : Span} {text : String} (h : .replaced span text ∈ b.editsAt o) :
    b.replacements.find? span.start = some ⟨span.stop, text⟩ := by
  unfold editsAt at h
  cases hr : b.replacements.find? o with
  | none => cases hi : b.insertions.find? o <;> simp [hi, hr] at h
  | some r =>
    have hpiece : span = ⟨o, r.stop⟩ ∧ text = r.text := by
      cases hi : b.insertions.find? o <;> simpa [hi, hr] using h
    obtain ⟨rfl, rfl⟩ := hpiece
    exact hr

/-- A replaced piece is one of the replacements of the buffer. -/
theorem find?_of_mem_pieces {span : Span} {text : String} (h : .replaced span text ∈ b.pieces) :
    b.replacements.find? span.start = some ⟨span.stop, text⟩ := by
  have hloop : ∀ cursor rest points, .replaced span text ∈ b.piecesFrom cursor rest points →
      b.replacements.find? span.start = some ⟨span.stop, text⟩ := by
    intro cursor rest points
    fun_induction piecesFrom b cursor rest points with
    | case1 => simp
    | case2 cursor rest point points hlt ih => exact ih
    | case3 cursor rest point points hge before rest' hsplit rest'' ih =>
      intro hmem
      simp only [List.mem_cons, reduceCtorEq, List.mem_append, false_or] at hmem
      rcases hmem with hedit | hmem
      · exact find?_of_mem_editsAt hedit
      · exact ih hmem
  simp only [pieces, List.cons_append, List.mem_cons, List.mem_append, reduceCtorEq, false_or, List.not_mem_nil,
    or_false] at h
  exact hloop _ _ _ h

/-- Of the replacements of a sound buffer only one is around an offset. -/
theorem Sound.eq_of_contains (hs : b.Sound) {o p q : Nat} {r r' : Replacement}
    (hr : b.replacements.find? o = some r) (hr' : b.replacements.find? p = some r')
    (hq : (⟨o, r.stop⟩ : Span).contains q = true) (hq' : (⟨p, r'.stop⟩ : Span).contains q = true) : o = p := by
  simp only [Span.contains, Bool.and_eq_true, decide_eq_true_eq] at hq hq'
  rcases Nat.lt_trichotomy o p with hlt | heq | hgt
  · have := hs.apart hr (by rw [hr']; rfl) hlt
    omega
  · exact heq
  · have := hs.apart hr' (by rw [hr]; rfl) hgt
    omega

end SpliceBuffer

open Splice in
/-- A map tells what the edits of a source say of the origins in the edited text. -/
structure SourceMap.Exact (m : SourceMap) (source code : String) (edits : List Splice) : Prop where
  /-- The origins are those of the bytes of the edited text. -/
  bytes_eq : (traced source edits).map Prod.fst = bytes code.toList
  /-- An offset that is not replaced has one copy, and the two lead to each other. -/
  copied : ∀ p, p < width source.toList → replaces edits p = false → ∃ g,
    (∃ x, (bytes source.toList)[p]? = some x ∧ (traced source edits)[g]? = some (x, .copied p))
      ∧ (∀ g' x, (traced source edits)[g']? = some (x, .copied p) → g' = g)
      ∧ m.sourceOf? g = some p ∧ m.generatedOf? p = some g
  inserted : ∀ g x, (traced source edits)[g]? = some (x, .inserted) → m.sourceOf? g = none
  /-- The new text of a span leads into the span, as far as the sums of its start and the places in the text
  fit in 32 bits. -/
  replaced : ∀ g x span place, (traced source edits)[g]? = some (x, .replaced span place) →
    ∃ p, m.sourceOf? g = some p ∧ (span.contains p = true ↔ span.start + place < 0x100000000)
  removed : ∀ span, (span, "") ∈ edits.filterMap replacement? → ∀ p, span.contains p = true →
    m.generatedOf? p = none
  past : ∀ g, width code.toList ≤ g → m.sourceOf? g = none

namespace SpliceBuffer

open Splice

variable {b : SpliceBuffer} {edits : List Splice}

theorem Holds.replaces_of_contains (h : b.Holds edits) {o p : Nat} {r : Replacement}
    (hr : b.replacements.find? o = some r) (hp : (⟨o, r.stop⟩ : Span).contains p = true) :
    replaces edits p = true :=
  List.any_eq_true.2 ⟨(⟨o, r.stop⟩, r.text), (h.replacement ⟨o, r.stop⟩ r.text).2 hr, hp⟩

theorem Holds.map_fst_traced (h : b.Holds edits) (hs : b.Sound) :
    (traced b.source edits).map Prod.fst = bytes b.code.toList := by
  rw [← h.trace_pieces hs, code, SourceMap.bytes_textOf, List.map_flatMap, funext Piece.map_fst_trace]

theorem Holds.sourceOf?_eq (h : b.Holds edits) (hs : b.Sound) (g : Nat) :
    b.map.sourceOf? g = ((traced b.source edits)[g]?).bind (·.2.offset?) := by
  rw [map, SourceMap.sourceOf?_ofPieces, h.trace_pieces hs]

/-- The first copy of an offset is found, unless a text replaces it. -/
theorem Holds.generatedOf?_eq (h : b.Holds edits) (hs : b.Sound) {p : Nat}
    (hp : ∀ o r, b.replacements.find? o = some r → r.text ≠ "" → (⟨o, r.stop⟩ : Span).contains p = false) :
    b.map.generatedOf? p = (traced b.source edits).findIdx? (·.2 = .copied p) := by
  rw [map, SourceMap.generatedOf?_ofPieces fun span text hmem hne => ?_, h.trace_pieces hs]
  exact hp _ _ (find?_of_mem_pieces hmem) hne

/-- A span that a byte is the new text of is replaced in the buffer, and the place of the byte is one of the
edited text. -/
theorem Holds.exists_of_replaced (h : b.Holds edits) (hs : b.Sound) {g place : Nat} {x : UInt8} {span : Span}
    (ht : (traced b.source edits)[g]? = some (x, .replaced span place)) :
    (∃ text, b.replacements.find? span.start = some ⟨span.stop, text⟩) ∧ place < width b.code.toList := by
  rw [← h.trace_pieces hs] at ht
  obtain ⟨piece, hpiece, hmem⟩ := List.mem_flatMap.1 (List.mem_of_getElem? ht)
  cases piece with
  | copied start text =>
    obtain ⟨i, -, horigin⟩ := exists_of_mem_traceBy hmem
    cases horigin
  | inserted text =>
    obtain ⟨i, -, horigin⟩ := exists_of_mem_traceBy hmem
    cases horigin
  | replaced span' text =>
    obtain ⟨i, hi, horigin⟩ := exists_of_mem_traceBy hmem
    cases horigin
    exact ⟨⟨text, find?_of_mem_pieces hpiece⟩, Nat.lt_of_lt_of_le hi (SourceMap.size_le_of_mem hpiece)⟩

/-- The map of a sound buffer tells what the edits that it holds say. Both texts are less than 2³² bytes long. -/
theorem Holds.exact_map (h : b.Holds edits) (hs : b.Sound) (hsource : width b.source.toList < 0x100000000)
    (hcode : width b.code.toList < 0x100000000) : b.map.Exact b.source b.code edits where
  bytes_eq := h.map_fst_traced hs
  copied p hp hkept := by
    obtain ⟨g, ⟨x, hbyte, hg⟩, honly, hfirst⟩ := exists_copy hp hkept
    refine ⟨g, ⟨x, hbyte, hg⟩, honly, ?_, ?_⟩
    · rw [h.sourceOf?_eq hs, hg]
      exact Origin.offset?_copied (Nat.lt_trans hp hsource)
    · rw [h.generatedOf?_eq hs, hfirst]
      intro o r hr _
      refine Bool.eq_false_iff.2 fun hcontains => ?_
      rw [h.replaces_of_contains hr hcontains] at hkept
      cases hkept
  inserted g x hg := by
    rw [h.sourceOf?_eq hs, hg]
    rfl
  replaced g x span place hg := by
    obtain ⟨⟨text, hr⟩, hplace⟩ := h.exists_of_replaced hs hg
    have hlt : span.start < span.stop := (hs.replaced hr).1
    have hstop : span.stop ≤ width b.source.toList := le_width_of_isBoundary (hs.replaced hr).2.2
    refine ⟨_, by rw [h.sourceOf?_eq hs, hg]; rfl, ?_⟩
    rw [if_neg (by simp [Span.isEmpty]; omega)]
    simp only [Span.contains, Bool.and_eq_true, decide_eq_true_eq]
    -- a sum that does not fit comes out in front of the span, since the place alone fits
    omega
  removed span hspan p hp := by
    have hr := (h.replacement span "").1 hspan
    have hfilter := filter_traced b.source edits p
    rw [if_pos (h.replaces_of_contains hr hp)] at hfilter
    rw [h.generatedOf?_eq hs]
    · refine List.findIdx?_eq_none_iff.2 fun t ht => ?_
      simpa using List.filter_eq_nil_iff.1 hfilter t ht
    · intro o r hr' hne
      refine Bool.eq_false_iff.2 fun hcontains => hne ?_
      -- the span around the offset is the one that is removed
      obtain rfl := hs.eq_of_contains hr' hr hcontains hp
      rw [hr] at hr'
      cases hr'
      rfl
  past g hg := by
    have hlength : (traced b.source edits).length = width b.code.toList := by
      rw [← length_bytes, ← h.map_fst_traced hs, List.length_map]
    rw [h.sourceOf?_eq hs, List.getElem?_eq_none (by omega)]
    rfl

/-- Whatever edits are tried on a source, the map of the rendered text tells what those that were taken
say: what is copied, what is replaced and removed, and what is inserted. Both texts are less than 2³² bytes
long. -/
theorem exact_map_run (source : String) (edits : List Splice) (hsource : width source.toList < 0x100000000) :
    let b := (ofSource source).run edits
    width b.code.toList < 0x100000000 → b.map.Exact source b.code ((ofSource source).taken edits) := by
  intro b hcode
  obtain ⟨hs, hholds, hsame⟩ := holds_run (sound_ofSource source) (holds_ofSource source) edits
  have hexact := hholds.exact_map hs (by rw [hsame]; exact hsource) hcode
  rwa [hsame] at hexact

/-! ### Sums that do not fit in 32 bits -/

section Rest

variable {source : String} {first rest : List Char} {n m : Nat}

end Rest

end SpliceBuffer

end Restyle
