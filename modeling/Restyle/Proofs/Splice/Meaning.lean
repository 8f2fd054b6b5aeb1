import Restyle.Proofs.Splice.Rendering

/-! What edits mean for a text, told from the edits alone. Each offset of the source is preceded by
what is inserted on its left and on its right and by the replacement that starts there, and keeps its
byte unless that is replaced. The main statement is that rendering gives the meaning of the edits that
were taken, whatever other edits were refused in between. -/

namespace Restyle

open Text

/-! ### The meaning of edits -/

namespace Splice

/-- The span that an edit replaces, with its new text. Deleting an empty span replaces nothing. -/
def replacement? : Splice → Option (Span × String)
  | .update span text => some (span, text)
  | .remove span => if span.start = span.stop then none else some (span, "")
  | .insert .. | .prepend _ | .append _ => none

/-- The text that an edit inserts at an offset, on one side of it. -/
def insertion? (side : Side) (offset : Nat) : Splice → Option String
  | .insert side' offset' text => if side' = side ∧ offset' = offset then some text else none
  | .update .. | .remove _ | .prepend _ | .append _ => none

def prepended? : Splice → Option String
  | .prepend text => some text
  | .update .. | .remove _ | .insert .. | .append _ => none

def appended? : Splice → Option String
  | .append text => some text
  | .update .. | .remove _ | .insert .. | .prepend _ => none

/-- The text in front of everything: what was prepended, latest first. -/
def front (edits : List Splice) : String := String.join (edits.filterMap prepended?).reverse

/-- The text behind everything: what was appended, in order. -/
def back (edits : List Splice) : String := String.join (edits.filterMap appended?)

/-- The texts that belong to the text which ends at an offset. -/
def left (edits : List Splice) (o : Nat) : String :=
  String.join (edits.filterMap (insertion? .prependLeft o)).reverse
    ++ String.join (edits.filterMap (insertion? .appendLeft o))

/-- The texts that belong to the text which starts at an offset. -/
def right (edits : List Splice) (o : Nat) : String :=
  String.join (edits.filterMap (insertion? .prependRight o)).reverse
    ++ String.join (edits.filterMap (insertion? .appendRight o))

/-- The new text of the span that is replaced from an offset on, if one is. -/
def newText (edits : List Splice) (o : Nat) : String :=
  ((edits.filterMap replacement?).find? (·.1.start = o)).elim "" (·.2)

/-- The byte at an offset is replaced. -/
def replaces (edits : List Splice) (o : Nat) : Bool :=
  (edits.filterMap replacement?).any (·.1.contains o)

/-- What an offset of the source means after edits. -/
def meaningAt (source : List UInt8) (edits : List Splice) (o : Nat) : List UInt8 :=
  bytes (left edits o ++ right edits o ++ newText edits o).toList
    ++ if replaces edits o then [] else source[o]?.toList

/-- The bytes of a source after edits. -/
def meaning (source : String) (edits : List Splice) : List UInt8 :=
  bytes (front edits).toList
    ++ (List.range (width source.toList + 1)).flatMap (meaningAt (bytes source.toList) edits)
    ++ bytes (back edits).toList

/-! One more edit. -/

theorem join_filterMap_snoc (f : Splice → Option String) (edits : List Splice) (s : Splice) :
    String.join ((edits ++ [s]).filterMap f) = String.join (edits.filterMap f) ++ (f s).getD "" := by
  cases h : f s <;> simp [h]

theorem join_reverse_filterMap_snoc (f : Splice → Option String) (edits : List Splice) (s : Splice) :
    String.join ((edits ++ [s]).filterMap f).reverse =
      (f s).getD "" ++ String.join (edits.filterMap f).reverse := by
  cases h : f s <;> simp [h]

theorem front_snoc (edits : List Splice) (s : Splice) :
    front (edits ++ [s]) = s.prepended?.getD "" ++ front edits := join_reverse_filterMap_snoc ..

theorem back_snoc (edits : List Splice) (s : Splice) :
    back (edits ++ [s]) = back edits ++ s.appended?.getD "" := join_filterMap_snoc ..

theorem left_snoc (edits : List Splice) (s : Splice) (o : Nat) :
    left (edits ++ [s]) o =
      (s.insertion? .prependLeft o).getD "" ++ left edits o ++ (s.insertion? .appendLeft o).getD "" := by
  rw [left, join_reverse_filterMap_snoc, join_filterMap_snoc, left]
  simp only [String.append_assoc]

theorem right_snoc (edits : List Splice) (s : Splice) (o : Nat) :
    right (edits ++ [s]) o =
      (s.insertion? .prependRight o).getD "" ++ right edits o
        ++ (s.insertion? .appendRight o).getD "" := by
  rw [right, join_reverse_filterMap_snoc, join_filterMap_snoc, right]
  simp only [String.append_assoc]

theorem insertion?_insert_self (side side' : Side) (o : Nat) (text : String) :
    insertion? side' o (.insert side o text) = if side = side' then some text else none := by
  simp [insertion?]

theorem insertion?_insert_of_ne (side side' : Side) {o p : Nat} (h : o ≠ p) (text : String) :
    insertion? side' o (.insert side p text) = none := if_neg fun hboth => h hboth.2.symm

end Splice

/-! ### Buffers that hold edits -/

namespace SpliceBuffer

open Splice

variable {b b' : SpliceBuffer} {edits : List Splice}

/-- The buffer holds exactly the given edits. -/
structure Holds (b : SpliceBuffer) (edits : List Splice) : Prop where
  front_eq : b.intro = front edits
  back_eq : b.outro = back edits
  insertion : ∀ o, (b.insertions.find? o).getD default = ⟨left edits o, right edits o⟩
  replacement : ∀ span text, (span, text) ∈ edits.filterMap replacement? ↔
    b.replacements.find? span.start = some ⟨span.stop, text⟩

theorem holds_ofSource (source : String) : (ofSource source).Holds [] where
  front_eq := rfl
  back_eq := rfl
  insertion _ := rfl
  replacement span text := by simp [ofSource, OffsetTable.find?]

theorem Replaceable.find?_start {span : Span} (h : b.Replaceable span) (hs : b.Sound) :
    b.replacements.find? span.start = none := by
  cases hr : b.replacements.find? span.start with
  | none => rfl
  | some r =>
    have := h.disjoint _ r hr
    have := h.nonempty
    have := (hs.replaced hr).1
    omega

/-- An edit that inserts nothing leaves the inserted texts. -/
theorem Holds.insertion_snoc (h : b.Holds edits) {s : Splice} (hs : ∀ side o, s.insertion? side o = none)
    (o : Nat) :
    (b.insertions.find? o).getD default = ⟨left (edits ++ [s]) o, right (edits ++ [s]) o⟩ := by
  simp [left_snoc, right_snoc, hs, h.insertion]

/-- An edit that replaces nothing leaves the replaced spans. -/
theorem Holds.replacement_snoc (h : b.Holds edits) {s : Splice} (hs : s.replacement? = none)
    (span : Span) (text : String) : (span, text) ∈ (edits ++ [s]).filterMap replacement? ↔
      b.replacements.find? span.start = some ⟨span.stop, text⟩ := by
  rw [← h.replacement, List.filterMap_append, List.filterMap_cons_none hs]
  simp

theorem Holds.replacing (h : b.Holds edits) (hs : b.Sound) {span : Span}
    (hr : b.Replaceable span) {s : Splice} {text : String} (hreplace : s.replacement? = some (span, text))
    (hinsert : ∀ side o, s.insertion? side o = none) (hfront : s.prepended? = none)
    (hback : s.appended? = none) : (b.replacing span text).Holds (edits ++ [s]) where
  front_eq := by
    rw [front_snoc, hfront, ← h.front_eq]
    exact (String.empty_append ..).symm
  back_eq := by
    rw [back_snoc, hback, ← h.back_eq]
    exact (String.append_empty ..).symm
  insertion := h.insertion_snoc hinsert
  replacement span' text' := by
    rw [List.filterMap_append, List.mem_append, h.replacement, find?_replacing hs,
      List.filterMap_cons_some hreplace, List.filterMap_nil, List.mem_singleton]
    split
    · next hstart =>
      rw [hstart, hr.find?_start hs]
      obtain ⟨start', stop'⟩ := span'
      obtain ⟨start, stop⟩ := span
      simp only [Prod.mk.injEq, Span.mk.injEq, Option.some.injEq, Replacement.mk.injEq] at hstart ⊢
      grind
    · next hstart =>
      have hne : span' ≠ span := fun he => hstart (he ▸ rfl)
      simp [hne]

theorem Holds.inserting (h : b.Holds edits) (hs : b.Sound) (side : Side) (offset : Nat)
    (text : String) : (b.inserting side offset text).Holds (edits ++ [.insert side offset text]) where
  front_eq := by
    rw [front_snoc, ← h.front_eq]
    exact (String.empty_append ..).symm
  back_eq := by
    rw [back_snoc, ← h.back_eq]
    exact (String.append_empty ..).symm
  insertion o := by
    rw [find?_inserting hs, left_snoc, right_snoc]
    split
    · next ho =>
      subst ho
      rw [Option.getD_some, h.insertion]
      cases side <;> simp [Insertion.add, insertion?_insert_self]
    · next ho => simp [insertion?_insert_of_ne _ _ ho, h.insertion]
  replacement := h.replacement_snoc rfl

/-- A buffer that takes an edit holds it. -/
theorem Takes.holds {s : Splice} (ht : b.Takes s b') (hs : b.Sound) (h : b.Holds edits) :
    b'.Holds (edits ++ [s]) := by
  cases ht with
  | update text hr => exact h.replacing hs hr rfl (fun _ _ => rfl) rfl rfl
  | remove hr =>
    have := hr.nonempty
    exact h.replacing hs hr (if_neg (by omega)) (fun _ _ => rfl) rfl rfl
  | removeNothing hempty _ =>
    refine ⟨?_, ?_, h.insertion_snoc fun _ _ => rfl, h.replacement_snoc (if_pos hempty)⟩
    · simp [front_snoc, prepended?, h.front_eq]
    · simp [back_snoc, appended?, h.back_eq]
  | insert side text _ => exact h.inserting hs side _ text
  | prepend text =>
    refine ⟨?_, ?_, h.insertion_snoc fun _ _ => rfl, h.replacement_snoc rfl⟩
    · simp [SpliceBuffer.prepend, front_snoc, prepended?, h.front_eq]
    · simp [SpliceBuffer.prepend, back_snoc, appended?, h.back_eq]
  | append text =>
    refine ⟨?_, ?_, h.insertion_snoc fun _ _ => rfl, h.replacement_snoc rfl⟩
    · simp [SpliceBuffer.append, front_snoc, prepended?, h.front_eq]
    · simp [SpliceBuffer.append, back_snoc, appended?, h.back_eq]

/-! ### Rendering what a buffer holds -/

theorem bytes_editsAt (o : Nat) :
    (b.editsAt o).flatMap Piece.bytes =
      bytes ((b.insertions.find? o).getD default).left.toList
        ++ bytes ((b.insertions.find? o).getD default).right.toList
        ++ bytes ((b.replacements.find? o).elim "" (·.text)).toList := by
  have hempty : (default : Insertion) = ⟨"", ""⟩ := rfl
  unfold editsAt
  cases b.insertions.find? o <;> cases b.replacements.find? o <;>
    simp [Piece.bytes, Piece.text, hempty]

/-- The replacement that the edits have at an offset is the one of the buffer. -/
theorem Holds.find?_replacement (h : b.Holds edits) (o : Nat) :
    (edits.filterMap replacement?).find? (·.1.start = o) =
      (b.replacements.find? o).map fun r => (⟨o, r.stop⟩, r.text) := by
  cases hfind : (edits.filterMap replacement?).find? (·.1.start = o) with
  | none =>
    cases hr : b.replacements.find? o with
    | none => rfl
    | some r =>
      have hmem := (h.replacement ⟨o, r.stop⟩ r.text).2 hr
      have := List.find?_eq_none.1 hfind _ hmem
      simp at this
  | some e =>
    have hstart : e.1.start = o := by simpa using List.find?_some hfind
    have hmem := (h.replacement e.1 e.2).1 (List.mem_of_find?_eq_some hfind)
    rw [← hstart, hmem]
    rfl

theorem Holds.newText_eq (h : b.Holds edits) (o : Nat) :
    newText edits o = (b.replacements.find? o).elim "" (·.text) := by
  rw [newText, h.find?_replacement]
  cases b.replacements.find? o <;> rfl

theorem Holds.replaces_iff (h : b.Holds edits) (o : Nat) :
    replaces edits o = true ↔ b.Covers b.points o := by
  simp only [replaces, List.any_eq_true, Span.contains, Bool.and_eq_true, decide_eq_true_eq]
  constructor
  · rintro ⟨⟨span, text⟩, hmem, hle, hlt⟩
    have hr := (h.replacement span text).1 hmem
    refine ⟨span.start, mem_points_iff.2 (.inr (by rw [hr]; rfl)), hle, ?_⟩
    rwa [resume_of_some hr]
  · rintro ⟨p, -, hle, hlt⟩
    cases hr : b.replacements.find? p with
    | none =>
      rw [resume_of_none hr] at hlt
      omega
    | some r =>
      rw [resume_of_some hr] at hlt
      exact ⟨(⟨p, r.stop⟩, r.text), (h.replacement ⟨p, r.stop⟩ r.text).2 hr, hle, hlt⟩

theorem Holds.bytesAt_eq (h : b.Holds edits) (o : Nat) :
    b.bytesAt b.points o = meaningAt (bytes b.source.toList) edits o := by
  have hat : b.bytesAt b.points o =
      b.contentAt Piece.bytes (fun o => (bytes b.source.toList)[o]?.toList) b.points o := rfl
  rw [hat, contentAt_points, meaningAt, bytes_editsAt, h.insertion, h.newText_eq]
  simp [h.replaces_iff]

/-- A sound buffer renders the meaning of the edits that it holds. -/
theorem Holds.bytes_code (h : b.Holds edits) (hs : b.Sound) :
    bytes b.code.toList = meaning b.source edits := by
  rw [SpliceBuffer.bytes_code hs, meaning, h.front_eq, h.back_eq, funext h.bytesAt_eq]

/-! ### Runs -/

/-- The buffer after an edit. One that is refused leaves it as it is. -/
def take (b : SpliceBuffer) (s : Splice) : SpliceBuffer := (b.splice s).toOption.getD b

/-- The buffer after edits. -/
def run (b : SpliceBuffer) (edits : List Splice) : SpliceBuffer := edits.foldl take b

/-- Those of some edits that are taken. -/
def taken (b : SpliceBuffer) : List Splice → List Splice
  | [] => []
  | s :: rest => if (b.splice s).isOk then s :: (b.take s).taken rest else (b.take s).taken rest

/-- What every edit that is taken keeps holds after any edits, of those that were taken. -/
theorem run_induction (Inv : SpliceBuffer → List Splice → Prop)
    (hstep : ∀ b b' s edits, b.Sound → Inv b edits → b.Takes s b' → Inv b' (edits ++ [s]))
    (hs : b.Sound) (h : Inv b edits) (more : List Splice) :
    (b.run more).Sound ∧ Inv (b.run more) (edits ++ b.taken more) := by
  induction more generalizing b edits with
  | nil => exact ⟨hs, by simpa [run, taken] using h⟩
  | cons s more ih =>
    rw [run, List.foldl_cons, ← run, taken]
    cases hb : b.splice s with
    | error e =>
      have hsame : b.take s = b := by rw [take, hb]; rfl
      rw [hsame]
      exact ih hs h
    | ok b' =>
      have htake : b.take s = b' := by rw [take, hb]; rfl
      have ht := (splice_eq_ok_iff hs).1 hb
      have hrest := ih (ht.sound hs) (hstep b b' s edits hs h ht)
      rw [htake]
      simpa [Except.isOk, Except.toBool] using hrest

/-- After any edits the buffer is sound and holds those that were taken. -/
theorem holds_run (hs : b.Sound) (h : b.Holds edits) (more : List Splice) :
    (b.run more).Sound ∧ (b.run more).Holds (edits ++ b.taken more)
      ∧ (b.run more).source = b.source := by
  refine run_induction (fun b' edits => b'.Holds edits ∧ b'.source = b.source) ?_ hs ⟨h, rfl⟩ more
  intro b₁ b₂ s edits hs₁ hinv ht
  exact ⟨ht.holds hs₁ hinv.1, ht.source_eq.trans hinv.2⟩

theorem hasChanged_eq_false (h : b.hasChanged = false) :
    b.intro = "" ∧ b.outro = "" ∧ b.replacements = [] ∧ ∀ i ∈ b.insertions, i.2 = ⟨"", ""⟩ := by
  simp only [hasChanged, Bool.or_eq_false_iff, bne_eq_false_iff_eq, Bool.not_eq_false',
    List.isEmpty_iff, List.any_eq_false, Bool.not_eq_true'] at h
  obtain ⟨⟨⟨hintro, houtro⟩, hreplaced⟩, hinserted⟩ := h
  refine ⟨hintro, houtro, hreplaced, ?_⟩
  rintro ⟨o, left, right⟩ hi
  have := hinserted _ hi
  simp only [Insertion.isEmpty, Bool.not_eq_false, Bool.and_eq_true, beq_iff_eq] at this
  simp [this]

/-- A buffer without changes renders its source. -/
theorem code_of_hasChanged (hs : b.Sound) (h : b.hasChanged = false) : b.code = b.source := by
  obtain ⟨hintro, houtro, hreplaced, hinserted⟩ := hasChanged_eq_false h
  have hnone : ∀ o, b.replacements.find? o = none := fun o => by rw [hreplaced]; rfl
  have hat : b.bytesAt b.points = fun o => (bytes b.source.toList)[o]?.toList := by
    funext o
    have hempty : (b.insertions.find? o).getD default = ⟨"", ""⟩ := by
      cases hi : b.insertions.find? o with
      | none => rfl
      | some i => exact hinserted _ ((OffsetTable.mem_iff_find? hs.insertions_sorted).2 hi)
    have hcovers : ¬ b.Covers b.points o := by
      rintro ⟨p, -, hle, hlt⟩
      rw [resume_of_none (hnone p)] at hlt
      omega
    simp [bytesAt, bytes_editsAt, hnone, hempty, hcovers]
  have hbytes : bytes b.code.toList = bytes b.source.toList := by
    rw [SpliceBuffer.bytes_code hs, hat, List.range_eq_range', flatMap_getElem?_toList, hintro,
      houtro]
    simp [List.take_of_length_le]
  exact String.toList_injective (bytes_injective hbytes)

/-- Whatever edits are tried on a source, rendering gives the meaning of those that were taken. No
round of rendering skips a point, and without changes the source itself is rendered. -/
theorem code_run (source : String) (edits : List Splice) :
    let b := (ofSource source).run edits
    bytes b.code.toList = meaning source ((ofSource source).taken edits)
      ∧ (∀ cursor rest point points, b.Round cursor rest (point :: points) → cursor ≤ point)
      ∧ (b.hasChanged = false → b.code = source) := by
  obtain ⟨hs, hholds, hsource⟩ := holds_run (sound_ofSource source) (holds_ofSource source) edits
  have hsource : ((ofSource source).run edits).source = source := hsource
  refine ⟨?_, fun cursor rest point points hround => ?_, fun hchanged => ?_⟩
  · have hcode := hholds.bytes_code hs
    rwa [hsource] at hcode
  · exact (hround.le hs).2 point (by simp)
  · rw [code_of_hasChanged hs hchanged, hsource]

end SpliceBuffer

end Restyle
