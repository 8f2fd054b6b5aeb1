import Restyle.Proofs.Source.Origins

/-! A map read plainly. The pieces that a text was generated from say where each of its offsets comes
from: the offset lies in one of them, so many bytes from its start. The main statement is that looking an
offset up in the map gives what its piece says, and nothing behind the last piece. -/

namespace Restyle

open Text

namespace Piece

/-- The offset of the source for a byte of the piece, so many bytes from its start. In a replacement it is
at most the last byte of the span, and its start if the span is empty. -/
def sourceAt? : Piece → Nat → Option Nat
  | copied start _, d => some (start + d)
  | replaced span _, d => some (if span.isEmpty then span.start else min (span.start + d) (span.stop - 1))
  | inserted _, _ => none

/-- So many bytes from its start, the sum of the piece with the start of its source fits in 32 bits. -/
def Fits (p : Piece) (d : Nat) : Prop := ∀ span, p.source? = some span → span.start + d < 0x100000000

/-- The byte of a piece has the origin that the piece gives it. -/
theorem bind_offset?_trace (p : Piece) {d : Nat} (h : d < p.size) (hfits : p.Fits d) :
    (p.trace[d]?).bind (·.2.offset?) = p.sourceAt? d := by
  cases p with
  | copied start text =>
    have hsum : start + d < 0x100000000 := hfits _ rfl
    exact ((bind_offset?_traceBy d).trans (if_pos h)).trans (Origin.offset?_copied hsum)
  | replaced span text =>
    have hsum : span.start + d < 0x100000000 := hfits _ rfl
    have hoffset : (Origin.replaced span d).offset? = (replaced span text).sourceAt? d := by
      rw [Origin.offset?, Nat.mod_eq_of_lt hsum]
      rfl
    exact ((bind_offset?_traceBy d).trans (if_pos h)).trans hoffset
  | inserted text => exact (bind_offset?_traceBy d).trans (if_pos h)

end Piece

namespace SourceMap

variable {ps : List Piece} {g i : Nat} {p : Piece}

/-- Where the text of a piece begins, behind the texts of the pieces before it. -/
def startOf (ps : List Piece) (i : Nat) : Nat := width (textOf (ps.take i)).toList

/-- The offset lies in the text of a piece. -/
def Covers (ps : List Piece) (i g : Nat) : Prop :=
  ∃ p, ps[i]? = some p ∧ startOf ps i ≤ g ∧ g < startOf ps i + p.size

theorem startOf_succ (h : ps[i]? = some p) : startOf ps (i + 1) = startOf ps i + p.size := by
  rw [startOf, startOf, List.take_add_one, h, textOf_append]
  simp [textOf, Piece.size]

theorem startOf_mono (ps : List Piece) {i j : Nat} (h : i ≤ j) : startOf ps i ≤ startOf ps j := by
  obtain ⟨rest, hrest⟩ := List.take_prefix_take_left h (l := ps)
  rw [startOf, startOf, ← hrest, textOf_append, String.toList_append, width_append]
  exact Nat.le_add_right _ _

/-- No two pieces share an offset. -/
theorem Covers.unique {j : Nat} (h : Covers ps i g) (h' : Covers ps j g) : j = i := by
  have hle : ∀ {i j}, Covers ps i g → Covers ps j g → j ≤ i := by
    rintro i j ⟨p, hp, -, hlt⟩ ⟨-, -, hle, -⟩
    by_contra hij
    -- A later piece begins behind the end of this one.
    have hmono := startOf_mono ps (Nat.gt_of_not_le hij)
    rw [startOf_succ hp] at hmono
    omega
  exact Nat.le_antisymm (hle h h') (hle h' h)

theorem exists_covers (h : g < width (textOf ps).toList) : ∃ i, Covers ps i g := by
  induction ps generalizing g with
  | nil => exact absurd h (Nat.not_lt_zero g)
  | cons p ps ih =>
    rw [textOf_cons, String.toList_append, width_append, ← Piece.size] at h
    by_cases hp : g < p.size
    · exact ⟨0, p, rfl, Nat.zero_le g, by simpa [startOf, textOf] using hp⟩
    · obtain ⟨i, q, hq, hle, hlt⟩ := ih (g := g - p.size) (by omega)
      have hstart : startOf (p :: ps) (i + 1) = p.size + startOf ps i := by
        rw [startOf, List.take_succ_cons, textOf_cons, String.toList_append, width_append]
        rfl
      exact ⟨i + 1, q, hq, by omega, by omega⟩

/-- A place in a piece is its place in the whole behind the pieces before it. -/
theorem getElem?_flatMap_trace (h : ps[i]? = some p) {d : Nat} (hd : d < p.size) :
    (ps.flatMap Piece.trace)[startOf ps i + d]? = p.trace[d]? := by
  obtain ⟨hi, rfl⟩ := List.getElem?_eq_some_iff.1 h
  have hflat : ps.flatMap Piece.trace = (ps.take i).flatMap Piece.trace ++
      (ps[i].trace ++ (ps.drop (i + 1)).flatMap Piece.trace) := by
    rw [← List.flatMap_cons, ← List.flatMap_append, ← List.drop_eq_getElem_cons hi, List.take_append_drop]
  have hbefore : ((ps.take i).flatMap Piece.trace).length = startOf ps i := length_flatMap_trace _
  rw [hflat, List.getElem?_append_right (by omega), hbefore, Nat.add_sub_cancel_left,
    List.getElem?_append_left (by rwa [Piece.length_trace])]

/-- The mappings start one behind the other. Behind the text nothing is mapped; any other offset lies in
one piece, and the map gives what that piece says of its distance from the start, if their sum fits in 32
bits. -/
theorem sourceOf?_read (ps : List Piece) (g : Nat) : Ascending (ofPieces ps).mappings ∧
    (width (textOf ps).toList ≤ g ∧ (ofPieces ps).sourceOf? g = none ∨
      ∃ i p, ps[i]? = some p ∧ Covers ps i g ∧ (∀ j, Covers ps j g → j = i) ∧
        (p.Fits (g - startOf ps i) → (ofPieces ps).sourceOf? g = p.sourceAt? (g - startOf ps i))) := by
  obtain ⟨hi, horder⟩ := inOrder_mappingsFrom 0 ps
  refine ⟨ascending_of_inOrder horder, ?_⟩
  rw [sourceOf?_ofPieces]
  rcases Nat.lt_or_ge g (width (textOf ps).toList) with hlt | hge
  · obtain ⟨i, hcovers⟩ := exists_covers hlt
    obtain ⟨p, hp, hle, hstop⟩ := id hcovers
    refine .inr ⟨i, p, hp, hcovers, fun j hj => hcovers.unique hj, fun hfits => ?_⟩
    have hd : g - startOf ps i < p.size := by omega
    have hplace := getElem?_flatMap_trace hp hd
    rw [Nat.add_sub_cancel' hle] at hplace
    rw [hplace, p.bind_offset?_trace hd hfits]
  · refine .inl ⟨hge, ?_⟩
    rw [List.getElem?_eq_none (by rwa [length_flatMap_trace]), Option.bind_none]

/-- Pieces of which some are empty, and two replace spans that start at one offset, in front of what is copied. -/
def shuffledPieces : List Piece :=
  [.copied 7 "ab", .inserted "", .replaced ⟨2, 2⟩ "é", .inserted "x", .copied 0 "", .replaced ⟨2, 4⟩ "cde"]

theorem sourceOf?_read_shuffledPieces : Covers shuffledPieces 5 7 ∧ startOf shuffledPieces 5 = 5
    ∧ (Piece.replaced ⟨2, 4⟩ "cde").Fits 2 ∧ (ofPieces shuffledPieces).sourceOf? 7 = some 3 := by
  have hstart : startOf shuffledPieces 5 = 5 := by decide
  have hcovers : Covers shuffledPieces 5 7 := ⟨_, rfl, by decide, by decide⟩
  have hfits : (Piece.replaced ⟨2, 4⟩ "cde").Fits 2 := by
    rintro span ⟨⟩
    decide
  obtain ⟨-, ⟨hpast, -⟩ | ⟨i, p, hp, -, honly, hread⟩⟩ := sourceOf?_read shuffledPieces 7
  · exact absurd hpast (by decide)
  · obtain rfl := honly 5 hcovers
    obtain rfl : Piece.replaced ⟨2, 4⟩ "cde" = p := Option.some.inj hp
    rw [hstart] at hread
    exact ⟨hcovers, hstart, hfits, hread hfits⟩

end SourceMap

end Restyle
