import Restyle.Proofs.Splice.Sound

/-! The text of an edited source, offset by offset. Rendering jumps from one edited offset to the next
and never back: the span replaced at a point ends before the next point. So each offset contributes,
in the order of the source, what is inserted there, the replacement that starts there, and its byte of
the source unless that is replaced. -/

namespace Restyle

open Text

variable {α : Type}

/-! ### Pieces and ranges -/

/-- The bytes of a piece. -/
def Piece.bytes (p : Piece) : List UInt8 := Text.bytes p.text.toList

theorem SourceMap.bytes_textOf (ps : List Piece) :
    bytes (textOf ps).toList = ps.flatMap Piece.bytes := by
  induction ps with
  | nil => rfl
  | cons p ps ih =>
    have hcons : textOf (p :: ps) = p.text ++ textOf ps := by simp [textOf]
    rw [hcons, String.toList_append, bytes_append, ih, List.flatMap_cons, Piece.bytes]

/-- What the first offset of a range adds can be taken out in front. -/
theorem flatMap_range'_front {p m : Nat} {front : List α} {f g : Nat → List α} (hm : p < m)
    (hp : f p = front ++ g p) (h : ∀ o, p < o → f o = g o) :
    (List.range' p (m - p)).flatMap f = front ++ (List.range' p (m - p)).flatMap g := by
  obtain ⟨n, hn⟩ : ∃ n, m - p = n + 1 := ⟨m - p - 1, by omega⟩
  have htail : (List.range' (p + 1) n).flatMap f = (List.range' (p + 1) n).flatMap g := by
    refine List.flatMap_congr fun o ho => h o ?_
    have := (List.mem_range'_1.1 ho).1
    omega
  rw [hn, List.range'_succ, List.flatMap_cons, List.flatMap_cons, hp, htail, List.append_assoc]

theorem range'_split {p q m : Nat} (hpq : p ≤ q) (hqm : q ≤ m) :
    List.range' p (m - p) = List.range' p (q - p) ++ List.range' q (m - q) := by
  have hsum : m - p = (q - p) + (m - q) := by omega
  have hq : p + 1 * (q - p) = q := by omega
  rw [hsum, ← List.range'_append, hq]

/-- Offsets that add nothing can be left out. -/
theorem flatMap_range'_skip {p q m : Nat} {f : Nat → List α} (hpq : p ≤ q) (hqm : q ≤ m) :
    (List.range' p (m - p)).flatMap (fun o => if o < q then [] else f o) =
      (List.range' q (m - q)).flatMap f := by
  have hnone : (List.range' p (q - p)).flatMap (fun o => if o < q then [] else f o) = [] := by
    refine List.flatMap_eq_nil_iff.2 fun o ho => if_pos ?_
    have := (List.mem_range'_1.1 ho).2
    omega
  have hall : (List.range' q (m - q)).flatMap (fun o => if o < q then [] else f o) =
      (List.range' q (m - q)).flatMap f := by
    refine List.flatMap_congr fun o ho => if_neg ?_
    have := (List.mem_range'_1.1 ho).1
    omega
  rw [range'_split hpq hqm, List.flatMap_append, hnone, hall, List.nil_append]

namespace SpliceBuffer

variable {b : SpliceBuffer}

theorem splitWidth_append (a c : List Char) : splitWidth (width a) (a ++ c) = (a, c) := by
  induction a with
  | nil =>
    cases c with
    | nil => rfl
    | cons d ds =>
      have := d.utf8Size_pos
      simp only [width_nil, List.nil_append, splitWidth]
      rw [if_neg (by omega)]
  | cons d ds ih =>
    have hrest : width (d :: ds) - d.utf8Size = width ds := by simp
    rw [List.cons_append, splitWidth, if_pos (by simp), hrest, ih]

/-! ### What an offset contributes -/

/-- The offset is inside a span that is replaced at one of the points. -/
def Covers (b : SpliceBuffer) (points : List Nat) (o : Nat) : Prop :=
  ∃ p ∈ points, p ≤ o ∧ o < b.resume p

instance (points : List Nat) (o : Nat) : Decidable (b.Covers points o) :=
  inferInstanceAs (Decidable (∃ p ∈ points, p ≤ o ∧ o < b.resume p))

/-- What an offset contributes if the edits at the given points are made, by what a piece and an offset of
the source have in them. -/
def contentAt (b : SpliceBuffer) (f : Piece → List α) (src : Nat → List α) (points : List Nat) (o : Nat) :
    List α :=
  (if o ∈ points then (b.editsAt o).flatMap f else []) ++ if b.Covers points o then [] else src o

/-- The bytes that an offset contributes. -/
def bytesAt (b : SpliceBuffer) (points : List Nat) (o : Nat) : List UInt8 :=
  (if o ∈ points then (b.editsAt o).flatMap Piece.bytes else [])
    ++ if b.Covers points o then [] else (bytes b.source.toList)[o]?.toList

/-- The points increase, and what is replaced at one ends before the next. -/
def Spaced (b : SpliceBuffer) (points : List Nat) : Prop :=
  points.Pairwise fun p q => p < q ∧ b.resume p ≤ q

/-- Points at which the source can be cut, before and behind what is replaced. -/
def Cuts (b : SpliceBuffer) (points : List Nat) : Prop :=
  ∀ p ∈ points, b.CutsSource p ∧ b.CutsSource (b.resume p) ∧ p ≤ b.resume p

section Contents

variable {f : Piece → List α} {src : Nat → List α}

theorem contentAt_before {points : List Nat} {o : Nat} (h : ∀ p ∈ points, o < p) :
    b.contentAt f src points o = src o := by
  have hmem : o ∉ points := fun hm => Nat.lt_irrefl o (h o hm)
  have hcovers : ¬ b.Covers points o := by
    rintro ⟨p, hp, hle, -⟩
    have := h p hp
    omega
  rw [contentAt, if_neg hmem, if_neg hcovers, List.nil_append]

section Cons

variable {p : Nat} {points : List Nat}

theorem covers_cons_of_le {o : Nat} (ho : b.resume p ≤ o) :
    b.Covers (p :: points) o ↔ b.Covers points o := by
  constructor
  · rintro ⟨q, hq, hle, hlt⟩
    rcases List.mem_cons.1 hq with rfl | hq
    · omega
    · exact ⟨q, hq, hle, hlt⟩
  · rintro ⟨q, hq, h⟩
    exact ⟨q, List.mem_cons_of_mem p hq, h⟩

/-- Behind its first point, a row of points is the row of the others. -/
theorem contentAt_cons_of_lt (hs : b.Spaced (p :: points)) {o : Nat} (ho : p < o) :
    b.contentAt f src (p :: points) o = if o < b.resume p then [] else b.contentAt f src points o := by
  have hlater := (List.pairwise_cons.1 hs).1
  split
  · next hlt =>
    have hmem : o ∉ p :: points := by
      rw [List.mem_cons]
      rintro (rfl | hm)
      · exact Nat.lt_irrefl _ ho
      · have := (hlater o hm).2
        omega
    have hcovers : b.Covers (p :: points) o := ⟨p, by simp, by omega, hlt⟩
    rw [contentAt, if_neg hmem, if_pos hcovers, List.nil_append]
  · next hge =>
    have hmem : o ∈ p :: points ↔ o ∈ points := by simp; omega
    simp only [contentAt, hmem, covers_cons_of_le (Nat.le_of_not_lt hge)]

theorem contentAt_cons_self (hs : b.Spaced (p :: points)) :
    b.contentAt f src (p :: points) p =
      (b.editsAt p).flatMap f ++ if p < b.resume p then [] else b.contentAt f src points p := by
  have hlater := (List.pairwise_cons.1 hs).1
  rw [contentAt, if_pos (by simp)]
  split_ifs with hcovers hlt hlt
  · rfl
  · obtain ⟨q, hq, hle, hq'⟩ := (covers_cons_of_le (Nat.le_of_not_lt hlt)).1 hcovers
    have := (hlater q hq).1
    omega
  · exact absurd ⟨p, by simp, Nat.le_refl p, hlt⟩ hcovers
  · rw [contentAt_before fun q hq => (hlater q hq).1]

end Cons

/-! ### The loop -/

/-- A copied piece has in it what its offsets have, and the end of the source has nothing. -/
structure Copies (b : SpliceBuffer) (f : Piece → List α) (src : Nat → List α) : Prop where
  copied : ∀ before mid rest : List Char, b.source.toList = before ++ (mid ++ rest) →
    f (.copied (width before) (String.ofList mid)) = (List.range' (width before) (width mid)).flatMap src
  atEnd : src (width b.source.toList) = []

/-- One round: the source up to the point is copied, the edits there are made, and the source goes on
behind what they replace. -/
theorem piecesFrom_cons {cursor p : Nat} {points : List Nat} {mid gone rest : List Char}
    (hcursor : cursor ≤ p) (hmid : width mid = p - cursor) (hgone : width gone = b.resume p - p) :
    b.piecesFrom cursor (mid ++ (gone ++ rest)) (p :: points) =
      .copied cursor (String.ofList mid)
        :: (b.editsAt p ++ b.piecesFrom (b.resume p) rest points) := by
  rw [piecesFrom, if_neg (by omega), ← hmid, ← hgone, splitWidth_append]
  dsimp only
  rw [splitWidth_append]

/-- From a place that no point has passed, rendering gives what each offset contributes. -/
theorem content_piecesFrom (hf : b.Copies f src) {before rest : List Char} {points : List Nat}
    (hsource : b.source.toList = before ++ rest) (hs : b.Spaced points) (hc : b.Cuts points)
    (hcursor : ∀ p ∈ points, width before ≤ p) :
    (b.piecesFrom (width before) rest points).flatMap f =
      (List.range' (width before) (width b.source.toList + 1 - width before)).flatMap
        (b.contentAt f src points) := by
  induction points generalizing before rest with
  | nil =>
    have hcontent : b.contentAt f src [] = src := funext fun o => contentAt_before (by simp)
    have hwidth : width b.source.toList + 1 - width before = width rest + 1 := by
      rw [hsource, width_append]
      omega
    have hlast : src (width before + width rest) = [] := by
      rw [← width_append, ← hsource]
      exact hf.atEnd
    rw [hcontent, hwidth, List.range'_1_concat, List.flatMap_append, List.flatMap_singleton, hlast,
      List.append_nil, ← hf.copied before rest [] (by simpa using hsource)]
    simp [piecesFrom]
  | cons p points ih =>
    obtain ⟨hcut, hcut', hle⟩ := hc p (by simp)
    obtain ⟨hlater, hs'⟩ := List.pairwise_cons.1 hs
    have hcur := hcursor p (by simp)
    -- the source up to the point, the span replaced there, and the source behind it
    obtain ⟨mid, rest, rfl, hmid⟩ := exists_middle hsource hcut hcur
    have hcopied := hf.copied before mid rest hsource
    have hwidth : width (before ++ mid) = p := by rw [width_append]; omega
    rw [← List.append_assoc] at hsource
    obtain ⟨gone, rest, rfl, hgone⟩ := exists_middle hsource hcut' (hwidth ▸ hle)
    have hwidth' : width (before ++ mid ++ gone) = b.resume p := by rw [width_append]; omega
    rw [← List.append_assoc] at hsource
    have ih := ih hsource hs' (fun q hq => hc q (List.mem_cons_of_mem p hq))
      (fun q hq => hwidth' ▸ (hlater q hq).2)
    rw [hwidth'] at ih
    have hn : b.resume p ≤ width b.source.toList := le_width_of_isBoundary hcut'
    have hfirst : (List.range' (width before) (p - width before)).flatMap
        (b.contentAt f src (p :: points)) = f (.copied (width before) (String.ofList mid)) := by
      rw [hcopied, hmid]
      refine List.flatMap_congr fun o ho => contentAt_before fun q hq => ?_
      have := (List.mem_range'_1.1 ho).2
      rcases List.mem_cons.1 hq with rfl | hq
      · omega
      · have := (hlater q hq).1
        omega
    have hrest : (List.range' p (width b.source.toList + 1 - p)).flatMap
        (b.contentAt f src (p :: points)) =
        (b.editsAt p).flatMap f ++ (b.piecesFrom (b.resume p) rest points).flatMap f := by
      rw [flatMap_range'_front (by omega) (contentAt_cons_self hs) fun o => contentAt_cons_of_lt hs,
        flatMap_range'_skip hle (by omega), ih]
    rw [piecesFrom_cons hcur hmid (hwidth ▸ hgone), range'_split hcur (by omega), List.flatMap_append, hfirst,
      hrest, List.flatMap_cons, List.flatMap_append]

end Contents

/-! ### The points of a buffer -/

theorem mem_points_iff {p : Nat} :
    p ∈ b.points ↔ (b.insertions.find? p).isSome ∨ (b.replacements.find? p).isSome := by
  rw [points, OffsetTable.mem_mergeOffsets, OffsetTable.mem_offsets_iff, OffsetTable.mem_offsets_iff]

/-- Away from the points of a buffer there is nothing to edit. -/
theorem contentAt_points (f : Piece → List α) (src : Nat → List α) (o : Nat) :
    b.contentAt f src b.points o =
      (b.editsAt o).flatMap f ++ if b.Covers b.points o then [] else src o := by
  rw [contentAt]
  split
  · rfl
  · next hp =>
    rw [mem_points_iff, not_or, Option.not_isSome_iff_eq_none, Option.not_isSome_iff_eq_none] at hp
    simp [editsAt, hp]

theorem resume_of_some {p : Nat} {r : Replacement} (h : b.replacements.find? p = some r) :
    b.resume p = r.stop := by
  rw [resume, h]
  rfl

theorem resume_of_none {p : Nat} (h : b.replacements.find? p = none) : b.resume p = p := by
  rw [resume, h]
  rfl

/-- What is replaced at a point of a sound buffer ends before every later point. -/
theorem Sound.resume_le (hs : b.Sound) {p q : Nat} (hq : q ∈ b.points) (hpq : p < q) :
    b.resume p ≤ q := by
  cases hr : b.replacements.find? p with
  | none =>
    rw [resume_of_none hr]
    omega
  | some r =>
    rw [resume_of_some hr]
    rcases mem_points_iff.1 hq with hi | hrep
    · have := hs.outside hr hi
      omega
    · exact hs.apart hr hrep hpq

theorem Sound.spaced (hs : b.Sound) : b.Spaced b.points := by
  have hsorted := OffsetTable.pairwise_mergeOffsets
    (OffsetTable.pairwise_offsets hs.insertions_sorted)
    (OffsetTable.pairwise_offsets hs.replacements_sorted)
  refine List.Pairwise.imp_of_mem (fun {p q} _ hq hpq => ?_) hsorted
  exact ⟨hpq, hs.resume_le hq hpq⟩

theorem Sound.cuts (hs : b.Sound) : b.Cuts b.points := by
  intro p hp
  cases hr : b.replacements.find? p with
  | none =>
    have hi : (b.insertions.find? p).isSome := by simpa [hr] using mem_points_iff.1 hp
    rw [resume_of_none hr]
    exact ⟨hs.inserted hi, hs.inserted hi, Nat.le_refl p⟩
  | some r =>
    obtain ⟨hlt, hcut, hcut'⟩ := hs.replaced hr
    rw [resume_of_some hr]
    exact ⟨hcut, hcut', Nat.le_of_lt hlt⟩

/-- What the rendered pieces have in them, offset by offset. -/
theorem content_pieces {f : Piece → List α} {src : Nat → List α} (hf : b.Copies f src) (hs : b.Sound) :
    b.pieces.flatMap f = f (.inserted b.intro)
      ++ (List.range (width b.source.toList + 1)).flatMap (b.contentAt f src b.points)
      ++ f (.inserted b.outro) := by
  have hsource : b.source.toList = [] ++ b.source.toList := rfl
  have hloop := content_piecesFrom hf hsource hs.spaced hs.cuts fun p _ => Nat.zero_le p
  rw [width_nil, Nat.sub_zero, ← List.range_eq_range'] at hloop
  rw [pieces, List.cons_append, List.flatMap_cons, List.flatMap_append, hloop]
  simp

theorem copies_bytes (b : SpliceBuffer) :
    b.Copies Piece.bytes fun o => (bytes b.source.toList)[o]?.toList where
  copied before mid rest hsource := by
    rw [flatMap_getElem?_toList, hsource, bytes_append, bytes_append, List.drop_left' (length_bytes before),
      List.take_left' (length_bytes mid)]
    simp [Piece.bytes, Piece.text]
  atEnd := by simp

/-- The rendered text, offset by offset. -/
theorem bytes_code (hs : b.Sound) :
    bytes b.code.toList = bytes b.intro.toList
      ++ (List.range (width b.source.toList + 1)).flatMap (b.bytesAt b.points)
      ++ bytes b.outro.toList := by
  rw [code, SourceMap.bytes_textOf]
  exact content_pieces b.copies_bytes hs

/-- The calls of the rendering loop: its cursor, what is left of the source there, and the points
still to come. -/
inductive Round (b : SpliceBuffer) : Nat → List Char → List Nat → Prop where
  | first : b.Round 0 b.source.toList b.points
  | skipped {cursor : Nat} {rest : List Char} {point : Nat} {points : List Nat} :
    b.Round cursor rest (point :: points) → point < cursor → b.Round cursor rest points
  | edited {cursor : Nat} {rest : List Char} {point : Nat} {points : List Nat} :
    b.Round cursor rest (point :: points) → ¬ point < cursor →
    b.Round (b.resume point)
      (splitWidth (b.resume point - point) (splitWidth (point - cursor) rest).2).2 points

/-- In no round has the cursor passed a point that is still to come, so none is skipped. -/
theorem Round.le (hs : b.Sound) {cursor : Nat} {rest : List Char} {points : List Nat}
    (h : b.Round cursor rest points) : b.Spaced points ∧ ∀ p ∈ points, cursor ≤ p := by
  induction h with
  | first => exact ⟨hs.spaced, fun p _ => Nat.zero_le p⟩
  | skipped _ hlt ih =>
    have := ih.2 _ (List.mem_cons_self ..)
    omega
  | edited _ _ ih =>
    obtain ⟨hlater, hspaced⟩ := List.pairwise_cons.1 ih.1
    exact ⟨hspaced, fun p hp => (hlater p hp).2⟩

end SpliceBuffer

end Restyle
