import Restyle.Proofs.Source.Spans
import Restyle.Proofs.Splice.InPlace
import Restyle.Proofs.Splice.Meaning

/-! Which edits a buffer takes, told from the edits that it took before. A span can be replaced if it has
a place among the spans that were replaced and the offsets at which something was inserted; an insertion
needs an offset that is not inside a replaced span. The main statement is that this is so after any edits,
taken or refused, that a refused edit leaves no trace, and that replaced spans stay apart from each other
and from what is inserted. -/

namespace Restyle

open Text

namespace Splice

/-- The offset at which an edit inserts. -/
def insertedAt? : Splice → Option Nat
  | .insert _ offset _ => some offset
  | .update .. | .remove _ | .prepend _ | .append _ => none

/-- The spans that edits replace. -/
def replacedSpans (edits : List Splice) : List Span := (edits.filterMap replacement?).map Prod.fst

/-- The offsets at which edits insert. -/
def insertedOffsets (edits : List Splice) : List Nat := edits.filterMap insertedAt?

theorem insertedOffsets_snoc (edits : List Splice) (s : Splice) :
    insertedOffsets (edits ++ [s]) = insertedOffsets edits ++ s.insertedAt?.toList := by
  cases h : s.insertedAt? <;> simp [insertedOffsets, h]

/-- A span that can be replaced after edits: it is not empty, lies on boundaries of the source, shares no
byte with a replaced span, and has no insertion inside. -/
structure LeavesRoom (source : String) (past : List Splice) (span : Span) : Prop where
  nonempty : span.start < span.stop
  cuts_start : isBoundary source.toList span.start = true
  cuts_stop : isBoundary source.toList span.stop = true
  apart : ∀ s ∈ replacedSpans past, s.Apart span
  outside : ∀ o ∈ insertedOffsets past, ¬ (span.start < o ∧ o < span.stop)

end Splice

namespace SpliceBuffer

open Splice

variable {b b' : SpliceBuffer} {edits : List Splice}

/-! ### What a buffer tells of its edits -/

/-- The buffer has insertions just where the edits insert, be it an empty text. -/
def Marks (b : SpliceBuffer) (edits : List Splice) : Prop :=
  ∀ o, (b.insertions.find? o).isSome ↔ o ∈ insertedOffsets edits

theorem marks_ofSource (source : String) : (ofSource source).Marks [] := by
  intro o
  simp [ofSource, OffsetTable.find?, insertedOffsets]

/-- An edit that inserts nothing keeps the offsets of the insertions. -/
theorem Marks.keep {s : Splice} (h : b.Marks edits) (hsame : b'.insertions = b.insertions)
    (hs : s.insertedAt? = none) : b'.Marks (edits ++ [s]) := by
  intro o
  rw [hsame, h o, insertedOffsets_snoc, hs]
  simp

theorem Takes.marks {s : Splice} (ht : b.Takes s b') (hs : b.Sound) (h : b.Marks edits) :
    b'.Marks (edits ++ [s]) := by
  cases ht with
  | @insert side offset text _ =>
    intro o
    rw [find?_inserting hs, insertedOffsets_snoc]
    by_cases ho : o = offset
    · simp [ho, insertedAt?]
    · simp [ho, insertedAt?, h o]
  | update text _ => exact h.keep rfl rfl
  | remove _ => exact h.keep rfl rfl
  | removeNothing _ _ => exact h.keep rfl rfl
  | prepend text => exact h.keep rfl rfl
  | append text => exact h.keep rfl rfl

/-- After any edits the buffer has insertions just where those that were taken insert. -/
theorem marks_run (hs : b.Sound) (h : b.Marks edits) (more : List Splice) :
    (b.run more).Marks (edits ++ b.taken more) :=
  (run_induction Marks (fun _ _ _ _ hs₁ h₁ ht => ht.marks hs₁ h₁) hs h more).2

theorem Holds.mem_edited_iff (h : b.Holds edits) (hs : b.Sound) {s : Span} :
    s ∈ b.edited ↔ s ∈ replacedSpans edits := by
  rw [SpliceBuffer.mem_edited_iff hs, replacedSpans, List.mem_map]
  constructor
  · rintro ⟨r, hr, hstop⟩
    exact ⟨(s, r.text), (h.replacement s r.text).2 (by rw [hr, ← hstop]), rfl⟩
  · rintro ⟨⟨span, text⟩, hmem, rfl⟩
    exact ⟨⟨span.stop, text⟩, (h.replacement span text).1 hmem, rfl⟩

/-- A property of the replaced spans is one of the spans that the edits replace. -/
theorem Holds.forall_replaced_iff (h : b.Holds edits) (hs : b.Sound) {P : Span → Prop} :
    (∀ o r, b.replacements.find? o = some r → P ⟨o, r.stop⟩) ↔ ∀ s ∈ replacedSpans edits, P s := by
  constructor
  · intro hall s hmem
    obtain ⟨r, hr, hstop⟩ := (SpliceBuffer.mem_edited_iff hs).1 ((h.mem_edited_iff hs).2 hmem)
    have := hall s.start r hr
    rwa [hstop] at this
  · intro hall o r hr
    exact hall _ ((h.mem_edited_iff hs).1 ((SpliceBuffer.mem_edited_iff hs).2 ⟨r, hr, rfl⟩))

theorem Holds.replaceable_iff (h : b.Holds edits) (hs : b.Sound) (hmarks : b.Marks edits) {span : Span} :
    b.Replaceable span ↔ LeavesRoom b.source edits span := by
  constructor
  · intro hr
    exact ⟨hr.nonempty, hr.cuts_start, hr.cuts_stop,
      (h.forall_replaced_iff hs (P := (·.Apart span))).1 hr.disjoint,
      fun o ho => hr.outside o ((hmarks o).2 ho)⟩
  · intro hr
    exact ⟨hr.nonempty, hr.cuts_start, hr.cuts_stop,
      (h.forall_replaced_iff hs (P := (·.Apart span))).2 hr.apart,
      fun o ho => hr.outside o ((hmarks o).1 ho)⟩

theorem Holds.insertable_iff (h : b.Holds edits) (hs : b.Sound) {offset : Nat} :
    b.Insertable offset ↔ isBoundary b.source.toList offset = true ∧
      ∀ s ∈ replacedSpans edits, ¬ (s.start < offset ∧ offset < s.stop) := by
  rw [← h.forall_replaced_iff hs (P := fun s => ¬ (s.start < offset ∧ offset < s.stop))]
  exact ⟨fun hi => ⟨hi.cuts, hi.outside⟩, fun hi => ⟨hi.1, hi.2⟩⟩

/-! ### Which edits are taken -/

theorem isOk_splice_iff (hs : b.Sound) {s : Splice} : (b.splice s).isOk = true ↔ ∃ b', b.Takes s b' := by
  simp only [← splice_eq_ok_iff hs]
  cases b.splice s <;> simp [Except.isOk, Except.toBool]

/-- Which edits a buffer takes after the edits that it took. -/
structure Accepts (b : SpliceBuffer) (source : String) (past : List Splice) : Prop where
  update : ∀ span text, (b.splice (.update span text)).isOk = true ↔ LeavesRoom source past span
  remove : ∀ span, span.start ≠ span.stop →
    ((b.splice (.remove span)).isOk = true ↔ LeavesRoom source past span)
  removeNothing : ∀ span, span.start = span.stop →
    ((b.splice (.remove span)).isOk = true ↔ isBoundary source.toList span.start = true)
  insert : ∀ side offset text, (b.splice (.insert side offset text)).isOk = true ↔
    isBoundary source.toList offset = true
      ∧ ∀ s ∈ replacedSpans past, ¬ (s.start < offset ∧ offset < s.stop)
  outside : ∀ text, (b.splice (.prepend text)).isOk = true ∧ (b.splice (.append text)).isOk = true

/-- The edits that leave a buffer as it is: those that are refused, be it on the way, and deletions of nothing. -/
structure Unmoved (b : SpliceBuffer) : Prop where
  /-- In place the same edits are taken, with the same buffer afterwards. -/
  inPlace : ∀ s, ((Editing.splice s).run b).1.isOk = (b.splice s).isOk ∧ ((Editing.splice s).run b).2 = b.take s
  refusedInPlace : ∀ s e b', (Editing.splice s).run b = (.error e, b') → b' = b
  refused : ∀ s, (b.splice s).isOk = false → b.take s = b
  removeNothing : ∀ span, span.start = span.stop → b.take (.remove span) = b

/-- The spans that a buffer replaces and the offsets at which it inserts are those of its edits, and have
room beside each other. -/
structure Ranges (b : SpliceBuffer) (source : String) (past : List Splice) : Prop where
  mem_edited_iff : ∀ s, s ∈ b.edited ↔ s ∈ replacedSpans past
  mem_offsets_iff : ∀ o, o ∈ b.insertions.offsets ↔ o ∈ insertedOffsets past
  nonempty : ∀ s ∈ b.edited, s.start < s.stop
  cuts : ∀ s ∈ b.edited, s.Cuts source.toList ∧ s.stop ≤ width source.toList
  apart : b.edited.Pairwise Span.Apart
  outside : ∀ s ∈ b.edited, ∀ o ∈ b.insertions.offsets, ¬ (s.start < o ∧ o < s.stop)

theorem Holds.accepts (h : b.Holds edits) (hs : b.Sound) (hmarks : b.Marks edits) :
    b.Accepts b.source edits where
  update span text := by
    rw [isOk_splice_iff hs, ← h.replaceable_iff hs hmarks]
    constructor
    · rintro ⟨b', ht⟩
      cases ht with
      | update _ hr => exact hr
    · exact fun hr => ⟨_, .update text hr⟩
  remove span hne := by
    rw [isOk_splice_iff hs, ← h.replaceable_iff hs hmarks]
    constructor
    · rintro ⟨b', ht⟩
      cases ht with
      | remove hr => exact hr
      | removeNothing hempty _ => exact absurd hempty hne
    · exact fun hr => ⟨_, .remove hr⟩
  removeNothing span hempty := by
    rw [isOk_splice_iff hs]
    constructor
    · rintro ⟨b', ht⟩
      cases ht with
      | remove hr => exact hr.cuts_start
      | removeNothing _ hcuts => exact hcuts
    · exact fun hcuts => ⟨_, .removeNothing hempty hcuts⟩
  insert side offset text := by
    rw [isOk_splice_iff hs, ← h.insertable_iff hs]
    constructor
    · rintro ⟨b', ht⟩
      cases ht with
      | insert _ _ hi => exact hi
    · exact fun hi => ⟨_, .insert side text hi⟩
  outside _ := ⟨rfl, rfl⟩

theorem take_of_refused {s : Splice} (h : (b.splice s).isOk = false) : b.take s = b := by
  rw [take]
  cases hb : b.splice s with
  | error e => rfl
  | ok b' =>
    rw [hb] at h
    cases h

theorem Sound.unmoved (hs : b.Sound) : b.Unmoved where
  inPlace s := by
    rw [Editing.run_splice, take]
    cases b.splice s <;> exact ⟨rfl, rfl⟩
  refusedInPlace s e b' hrun := by
    rw [Editing.run_splice] at hrun
    cases hb : b.splice s with
    | error e' =>
      rw [hb] at hrun
      exact (congrArg Prod.snd hrun).symm
    | ok b₁ =>
      rw [hb] at hrun
      cases hrun
  refused _ := take_of_refused
  removeNothing span hempty := by
    cases hok : (b.splice (.remove span)).isOk with
    | false => exact take_of_refused hok
    | true =>
      obtain ⟨b', ht⟩ := (isOk_splice_iff hs).1 hok
      rw [take, (splice_eq_ok_iff hs).2 ht]
      cases ht with
      | remove hr =>
        have := hr.nonempty
        omega
      | removeNothing _ _ => rfl

theorem Holds.ranges (h : b.Holds edits) (hs : b.Sound) (hmarks : b.Marks edits) :
    b.Ranges b.source edits where
  mem_edited_iff _ := h.mem_edited_iff hs
  mem_offsets_iff o := by rw [OffsetTable.mem_offsets_iff, hmarks o]
  nonempty s hmem := by
    obtain ⟨r, hr, hstop⟩ := (SpliceBuffer.mem_edited_iff hs).1 hmem
    exact hstop ▸ (hs.replaced hr).1
  cuts s hmem := by
    obtain ⟨r, hr, hstop⟩ := (SpliceBuffer.mem_edited_iff hs).1 hmem
    obtain ⟨hlt, hstart, hend⟩ := hs.replaced hr
    rw [hstop] at hlt hend
    exact ⟨⟨Nat.le_of_lt hlt, hstart, hend⟩, le_width_of_isBoundary hend⟩
  apart := (pairwise_edited hs).imp .inl
  outside s hmem o ho := by
    obtain ⟨r, hr, hstop⟩ := (SpliceBuffer.mem_edited_iff hs).1 hmem
    exact hstop ▸ hs.outside hr (OffsetTable.mem_offsets_iff.1 ho)

/-- Whatever edits were tried on a source, those that were taken decide which edits are taken next. A
refused edit leaves the buffer as it is, also where it edits in place, and so does deleting nothing; replaced
spans are not empty, lie on boundaries, and are apart from each other and from the insertions. -/
theorem accepts_run (source : String) (edits : List Splice) :
    let b := (ofSource source).run edits
    let past := (ofSource source).taken edits
    b.Accepts source past ∧ b.Unmoved ∧ b.Ranges source past := by
  have hsound := sound_ofSource source
  obtain ⟨hs, hholds, hsource⟩ := holds_run hsound (holds_ofSource source) edits
  have hmarks := marks_run hsound (marks_ofSource source) edits
  have hsource : ((ofSource source).run edits).source = source := hsource
  have haccepts := hholds.accepts hs hmarks
  have hranges := hholds.ranges hs hmarks
  rw [hsource] at haccepts hranges
  exact ⟨haccepts, hs.unmoved, hranges⟩

end SpliceBuffer

end Restyle
