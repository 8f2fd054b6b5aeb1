import Restyle.Proofs.Source.Lookups

/-! Where the bytes of a generated text come from. Each byte was copied from an offset of the source,
belongs to the replacement of a span, or was inserted. A map looks offsets up in its mappings, which do
not name single bytes; here its answers are those that the bytes give: a generated offset is answered by
the origin of the byte there, and an offset of the source by the first byte that was copied from it. -/

namespace Restyle

open Text

/-- Where a byte comes from: an offset of the source, a place in the replacement of a span, or nowhere. -/
inductive Origin where
  | copied (offset : Nat)
  | replaced (span : Span) (place : Nat)
  | inserted
  deriving Repr, DecidableEq

namespace Origin

/-- The offset of the source that stands for a byte of this origin, in 32 bits. -/
def offset? : Origin → Option Nat
  | copied offset => some (offset % 0x100000000)
  | replaced span place =>
    some (if span.isEmpty then span.start else min ((span.start + place) % 0x100000000) (span.stop - 1))
  | inserted => none

theorem offset?_copied {offset : Nat} (h : offset < 0x100000000) : (copied offset).offset? = some offset :=
  congrArg some (Nat.mod_eq_of_lt h)

end Origin

/-- Bytes with their origins. -/
abbrev Trace := List (UInt8 × Origin)

/-- The bytes of a text with origins that go by their place in it. -/
def traceBy (text : String) (origin : Nat → Origin) : Trace :=
  (bytes text.toList).mapIdx fun i x => (x, origin i)

section TraceBy

variable {text : String} {origin : Nat → Origin}

@[simp] theorem length_traceBy : (traceBy text origin).length = width text.toList := by
  simp [traceBy]

@[simp] theorem map_fst_traceBy : (traceBy text origin).map Prod.fst = bytes text.toList := by
  apply List.ext_getElem
  · simp [traceBy]
  · simp [traceBy]

theorem getElem?_traceBy (g : Nat) :
    (traceBy text origin)[g]? = (bytes text.toList)[g]?.map fun x => (x, origin g) := List.getElem?_mapIdx

theorem exists_of_mem_traceBy {t : UInt8 × Origin} (h : t ∈ traceBy text origin) :
    ∃ i, i < width text.toList ∧ t.2 = origin i := by
  obtain ⟨i, hi, rfl⟩ := List.mem_mapIdx.1 h
  exact ⟨i, by simpa using hi, rfl⟩

/-- The first place that was copied from an offset, in a text copied from some place on. -/
theorem findIdx?_traceBy_copied (start p : Nat) :
    (traceBy text fun i => .copied (start + i)).findIdx? (·.2 = .copied p) =
      if (⟨start, start + width text.toList⟩ : Span).contains p then some (p - start) else none := by
  simp only [Span.contains, Bool.and_eq_true, decide_eq_true_eq]
  split
  · next h =>
    refine List.findIdx?_eq_some_iff_getElem.2 ⟨by simp; omega, ?_, fun j hj => ?_⟩
    · simp [traceBy]
      omega
    · simp [traceBy]
      omega
  · next h =>
    refine List.findIdx?_eq_none_iff.2 fun t ht => ?_
    obtain ⟨i, hi, horigin⟩ := exists_of_mem_traceBy ht
    simp only [horigin, decide_eq_false_iff_not, Origin.copied.injEq]
    omega

/-- A text that was not copied has no place that was. -/
theorem findIdx?_traceBy_of_ne {p : Nat} (h : ∀ i, origin i ≠ .copied p) :
    (traceBy text origin).findIdx? (·.2 = .copied p) = none := by
  refine List.findIdx?_eq_none_iff.2 fun t ht => ?_
  obtain ⟨i, -, horigin⟩ := exists_of_mem_traceBy ht
  simp [horigin, h i]

/-- A place in a text has the origin that goes with it. -/
theorem bind_offset?_traceBy (g : Nat) :
    ((traceBy text origin)[g]?).bind (·.2.offset?) =
      if g < width text.toList then (origin g).offset? else none := by
  rw [getElem?_traceBy]
  by_cases h : g < width text.toList
  · rw [if_pos h, List.getElem?_eq_getElem (by simpa using h)]
    rfl
  · rw [if_neg h, List.getElem?_eq_none (by simpa using h)]
    rfl

end TraceBy

namespace Piece

/-- The bytes of a piece with their origins. -/
def trace : Piece → Trace
  | copied start text => traceBy text fun i => .copied (start + i)
  | replaced span text => traceBy text (.replaced span)
  | inserted text => traceBy text fun _ => .inserted

@[simp] theorem length_trace (p : Piece) : p.trace.length = p.size := by
  cases p <;> exact length_traceBy

end Piece

/-! ### Looking through mappings -/

namespace SourceMap

variable {ps : List Piece} {offset g p : Nat}

theorem length_flatMap_trace (ps : List Piece) : (ps.flatMap Piece.trace).length = width (textOf ps).toList := by
  induction ps with
  | nil => simp [textOf]
  | cons p ps ih =>
    rw [List.flatMap_cons, List.length_append, ih, textOf_cons, String.toList_append, width_append,
      Piece.length_trace, Piece.size]

theorem size_le_of_mem {q : Piece} (h : q ∈ ps) : q.size ≤ width (textOf ps).toList := by
  obtain ⟨before, after, rfl⟩ := List.append_of_mem h
  rw [textOf_append, textOf_cons, String.toList_append, String.toList_append, width_append, width_append, Piece.size]
  omega

theorem inOrder_mappingsFrom (offset : Nat) (ps : List Piece) :
    ∃ hi, Span.InOrder offset ((mappingsFrom offset ps).map (·.generated)) hi := by
  induction ps generalizing offset with
  | nil => exact ⟨offset, Nat.le_refl _⟩
  | cons q ps ih =>
    obtain ⟨hi, h⟩ := ih (offset + q.size)
    refine ⟨hi, ?_⟩
    have hfirst : Span.InOrder offset ((mappingOf offset q).toList.map (·.generated)) (offset + q.size) := by
      unfold mappingOf
      split
      · exact .nil (by omega)
      · cases q.source? with
        | none => exact .nil (by omega)
        | some span => exact .single (Nat.le_refl _) (by simp; omega) (Nat.le_refl _)
    rw [mappingsFrom, List.map_append]
    exact hfirst.append h

/-- The offset of the source that a mapping gives for a generated one. -/
def resolve (g : Nat) (m : Mapping) : Nat :=
  if m.source.isEmpty then m.source.start
  else min ((m.source.start + (g - m.generated.start)) % 0x100000000) (m.source.stop - 1)

/-- The generated offset that a mapping gives for one of the source. -/
def locate (p : Nat) (m : Mapping) : Nat :=
  if m.isVerbatim then m.generated.start + (p - m.source.start) else m.generated.start

/-- What a piece leaves in the map, looked up at a generated offset. -/
theorem find?_generated_mappingOf (h : offset ≤ g) (q : Piece) :
    ((mappingOf offset q).toList.find? (·.generated.contains g)).map (resolve g) =
      (q.trace[g - offset]?).bind (·.2.offset?) := by
  by_cases hempty : q.size = 0
  · have hnone : q.trace = [] := List.eq_nil_of_length_eq_zero (by rw [Piece.length_trace, hempty])
    simp [mappingOf, hempty, hnone]
  · have hcontains : ∀ n, (⟨offset, offset + n⟩ : Span).contains g = decide (g - offset < n) := fun n => by
      simp only [Span.contains, h, decide_true, Bool.true_and, decide_eq_decide]
      omega
    rw [mappingOf, if_neg hempty]
    cases q with
    | copied start text =>
      have hempty : width text.toList ≠ 0 := hempty
      rw [Piece.trace, bind_offset?_traceBy]
      simp only [Piece.source?, Option.map_some, Option.toList_some, List.find?_singleton, hcontains,
        Piece.size, Piece.text, decide_eq_true_eq]
      by_cases hlt : g - offset < width text.toList
      · rw [if_pos hlt, if_pos hlt, Option.map_some, resolve, if_neg (by simp [Span.isEmpty, hempty])]
        -- the remainder is at most the sum, which is at most the last byte of the copy
        have hmod := Nat.mod_le (start + (g - offset)) 0x100000000
        exact congrArg some (Nat.min_eq_left (by dsimp only; omega))
      · rw [if_neg hlt, if_neg hlt, Option.map_none]
    | replaced span text =>
      rw [Piece.trace, bind_offset?_traceBy]
      simp only [Piece.source?, Option.map_some, Option.toList_some, List.find?_singleton, hcontains,
        Piece.size, Piece.text, decide_eq_true_eq]
      by_cases hlt : g - offset < width text.toList
      · rw [if_pos hlt, if_pos hlt]
        rfl
      · rw [if_neg hlt, if_neg hlt, Option.map_none]
    | inserted text =>
      rw [Piece.trace, bind_offset?_traceBy]
      simp [Piece.source?, Origin.offset?]

/-- No mapping of later pieces covers an offset before them. -/
theorem find?_generated_of_lt (h : g < offset) :
    (mappingsFrom offset ps).find? (·.generated.contains g) = none := by
  obtain ⟨hi, horder⟩ := inOrder_mappingsFrom offset ps
  refine List.find?_eq_none.2 fun m hm => ?_
  have := (horder.of_mem (List.mem_map_of_mem hm)).1
  simp only [Span.contains, Bool.and_eq_true, decide_eq_true_eq]
  omega

/-- Looking a generated offset up in the mappings finds the origin of the byte there. -/
theorem find?_generated_mappingsFrom (h : offset ≤ g) :
    ((mappingsFrom offset ps).find? (·.generated.contains g)).map (resolve g) =
      ((ps.flatMap Piece.trace)[g - offset]?).bind (·.2.offset?) := by
  induction ps generalizing offset with
  | nil => rfl
  | cons q ps ih =>
    rw [mappingsFrom, List.find?_append, List.flatMap_cons, List.getElem?_append, Piece.length_trace]
    by_cases hq : g - offset < q.size
    · rw [if_pos hq, find?_generated_of_lt (by omega), Option.or_none, find?_generated_mappingOf h]
    · have hnone := find?_generated_mappingOf h q
      rw [List.getElem?_eq_none (by simpa using hq), Option.bind_none, Option.map_eq_none_iff] at hnone
      rw [if_neg hq, hnone, Option.none_or, ih (by omega)]
      congr 2
      omega

theorem sourceOf?_ofPieces (ps : List Piece) (g : Nat) :
    (ofPieces ps).sourceOf? g = ((ps.flatMap Piece.trace)[g]?).bind (·.2.offset?) := by
  obtain ⟨hi, horder⟩ := inOrder_mappingsFrom 0 ps
  rw [sourceOf?, ofPieces, mappingAt?_eq_find? horder]
  exact find?_generated_mappingsFrom (Nat.zero_le g)

/-- What a piece leaves in the map, looked up at an offset of the source that it does not replace. -/
theorem find?_source_mappingOf (offset p : Nat) (q : Piece)
    (h : ∀ span text, q = .replaced span text → text ≠ "" → span.contains p = false) :
    ((mappingOf offset q).toList.find? (·.source.contains p)).map (locate p) =
      (q.trace.findIdx? (·.2 = .copied p)).map (offset + ·) := by
  by_cases hempty : q.size = 0
  · have hnone : q.trace = [] := List.eq_nil_of_length_eq_zero (by rw [Piece.length_trace, hempty])
    simp [mappingOf, hempty, hnone]
  · rw [mappingOf, if_neg hempty]
    cases q with
    | copied start text =>
      rw [Piece.trace, findIdx?_traceBy_copied]
      simp only [Piece.source?, Option.map_some, Option.toList_some, List.find?_singleton]
      split
      · simp [locate, Mapping.isVerbatim, Span.size, Piece.size, Piece.text]
      · rfl
    | replaced span text =>
      have hne : text ≠ "" := by
        rintro rfl
        exact hempty rfl
      rw [Piece.trace, findIdx?_traceBy_of_ne (by simp)]
      simp [Piece.source?, h span text rfl hne]
    | inserted text =>
      rw [Piece.trace, findIdx?_traceBy_of_ne (by simp)]
      simp [Piece.source?]

theorem find?_source_mappingsFrom (offset : Nat)
    (h : ∀ span text, .replaced span text ∈ ps → text ≠ "" → span.contains p = false) :
    ((mappingsFrom offset ps).find? (·.source.contains p)).map (locate p) =
      ((ps.flatMap Piece.trace).findIdx? (·.2 = .copied p)).map (offset + ·) := by
  induction ps generalizing offset with
  | nil => rfl
  | cons q ps ih =>
    have hq := find?_source_mappingOf offset p q fun span text he => h span text (by simp [he])
    have ih := ih (offset + q.size) fun span text hmem => h span text (by simp [hmem])
    rw [mappingsFrom, List.find?_append, List.flatMap_cons, List.findIdx?_append, Option.map_or, Option.map_or,
      hq, ih, Piece.length_trace, Option.map_map]
    congr 2
    funext i
    simp only [Function.comp_apply]
    omega

theorem generatedOf?_ofPieces
    (h : ∀ span text, .replaced span text ∈ ps → text ≠ "" → span.contains p = false) :
    (ofPieces ps).generatedOf? p = (ps.flatMap Piece.trace).findIdx? (·.2 = .copied p) := by
  have hfind := find?_source_mappingsFrom 0 h
  simp only [Nat.zero_add, Option.map_id'] at hfind
  exact hfind

end SourceMap

end Restyle
