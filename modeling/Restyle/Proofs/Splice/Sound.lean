import Mathlib.Tactic.Common
import Restyle.Proofs.Text.Bytes
import Restyle.Source.Splice

/-! Which edits a buffer takes, and what its edits have in common. An edit is taken if and only if it
lies on boundaries of the source and touches no earlier one; so in every buffer that is reached the
replaced spans are not empty and apart from each other, and nothing is inserted inside one. -/

namespace Restyle.SpliceBuffer

open Text

variable {b b' : SpliceBuffer}

/-- The offset cuts the source. -/
def CutsSource (b : SpliceBuffer) (offset : Nat) : Prop := isBoundary b.source.toList offset = true

/-- What every buffer that is reached by edits satisfies. -/
structure Sound (b : SpliceBuffer) : Prop where
  insertions_sorted : b.insertions.Sorted
  replacements_sorted : b.replacements.Sorted
  /-- Replaced spans are not empty and end on boundaries. -/
  replaced : ∀ {o r}, b.replacements.find? o = some r →
    o < r.stop ∧ b.CutsSource o ∧ b.CutsSource r.stop
  /-- Of two replaced spans the later one starts after the end of the earlier one. -/
  apart : ∀ {o r p}, b.replacements.find? o = some r → (b.replacements.find? p).isSome → o < p →
    r.stop ≤ p
  inserted : ∀ {p}, (b.insertions.find? p).isSome → b.CutsSource p
  /-- No insertion lies inside a replaced span. -/
  outside : ∀ {o r p}, b.replacements.find? o = some r → (b.insertions.find? p).isSome →
    ¬ (o < p ∧ p < r.stop)

theorem sound_ofSource (source : String) : (ofSource source).Sound where
  insertions_sorted := List.Pairwise.nil
  replacements_sorted := List.Pairwise.nil
  replaced h := by cases h
  apart h := by cases h
  inserted h := by cases h
  outside h := by cases h

/-! ### Which edits are taken -/

theorem checkOffset_eq_ok_iff {offset : Nat} :
    b.checkOffset offset = .ok () ↔ b.CutsSource offset := by
  unfold checkOffset CutsSource
  dsimp only
  split
  · next hlt =>
    simp only [reduceCtorEq, false_iff]
    intro hb
    have := le_width_of_isBoundary hb
    omega
  · split <;> simp [*]

theorem checkOffset_bind_eq_ok_iff {α : Type} {offset : Nat}
    {next : Unit → Except SpliceError α} {x : α} :
    (b.checkOffset offset >>= next) = .ok x ↔ b.CutsSource offset ∧ next () = .ok x := by
  rw [← checkOffset_eq_ok_iff]
  cases b.checkOffset offset <;> simp [bind, Except.bind]

theorem mem_edited_iff (hs : b.Sound) {s : Span} :
    s ∈ b.edited ↔ ∃ r, b.replacements.find? s.start = some r ∧ r.stop = s.stop := by
  obtain ⟨start, stop⟩ := s
  simp only [edited, List.mem_map, Prod.exists, Span.mk.injEq]
  constructor
  · rintro ⟨o, r, hr, rfl, rfl⟩
    exact ⟨r, (OffsetTable.mem_iff_find? hs.replacements_sorted).1 hr, rfl⟩
  · rintro ⟨r, hr, rfl⟩
    exact ⟨start, r, (OffsetTable.mem_iff_find? hs.replacements_sorted).2 hr, rfl, rfl⟩

theorem find?_edited_eq_none_iff (hs : b.Sound) {test : Span → Bool} :
    b.edited.find? test = none ↔
      ∀ o r, b.replacements.find? o = some r → test ⟨o, r.stop⟩ = false := by
  rw [List.find?_eq_none]
  constructor
  · intro h o r hr
    simpa using h ⟨o, r.stop⟩ ((mem_edited_iff hs).2 ⟨r, hr, rfl⟩)
  · intro h s hmem
    obtain ⟨r, hr, hstop⟩ := (mem_edited_iff hs).1 hmem
    have := h s.start r hr
    rw [hstop] at this
    simpa using this

theorem find?_overlaps_eq_none_iff (hs : b.Sound) {span : Span} :
    b.edited.find? (·.overlaps span) = none ↔
      ∀ o r, b.replacements.find? o = some r → r.stop ≤ span.start ∨ span.stop ≤ o := by
  rw [find?_edited_eq_none_iff hs]
  refine forall₃_congr fun o r _ => ?_
  simp only [Span.overlaps, Bool.and_eq_false_iff, decide_eq_false_iff_not]
  omega

/-- Of two replaced spans the one that comes first ends where the other begins, or before. -/
theorem pairwise_edited (hs : b.Sound) : b.edited.Pairwise fun s t => s.stop ≤ t.start := by
  rw [edited, List.pairwise_map]
  refine List.Pairwise.imp_of_mem (fun {x y} hx hy hlt => ?_) hs.replacements_sorted
  have hfirst := (OffsetTable.mem_iff_find? hs.replacements_sorted).1 hx
  have hsecond := (OffsetTable.mem_iff_find? hs.replacements_sorted).1 hy
  exact hs.apart hfirst (by rw [hsecond]; rfl) hlt

/-- An offset inside a replaced span is inside the last one that starts before it. -/
theorem lastBefore?_of_mem (hs : b.Sound) {s : Span} {offset : Nat} (hmem : s ∈ b.edited)
    (hin : s.start < offset ∧ offset < s.stop) : b.lastBefore? offset = some s := by
  have hbefore : s ∈ b.edited.filter (·.start < offset) :=
    List.mem_filter.2 ⟨hmem, decide_eq_true hin.1⟩
  obtain ⟨last, hlast⟩ := Option.isSome_iff_exists.1
    (List.getLast?_isSome.2 (List.ne_nil_of_mem hbefore))
  obtain ⟨before, hsplit⟩ := List.getLast?_eq_some_iff.1 hlast
  have hpairs := (pairwise_edited hs).filter (·.start < offset)
  have hstart : last.start < offset := by
    have hmem : last ∈ b.edited.filter (·.start < offset) := by simp [hsplit]
    exact of_decide_eq_true (List.mem_filter.1 hmem).2
  rw [hsplit, List.pairwise_append] at hpairs
  rw [hsplit, List.mem_append, List.mem_singleton] at hbefore
  rcases hbefore with hbefore | rfl
  · have := hpairs.2.2 s hbefore last (by simp)
    omega
  · exact hlast

theorem lastBefore?_eq_none_iff (hs : b.Sound) {offset : Nat} :
    (b.lastBefore? offset).filter (·.strictlyContains offset) = none ↔
      ∀ o r, b.replacements.find? o = some r → ¬ (o < offset ∧ offset < r.stop) := by
  constructor
  · intro h o r hr hin
    have hmem : (⟨o, r.stop⟩ : Span) ∈ b.edited := (mem_edited_iff hs).2 ⟨r, hr, rfl⟩
    rw [lastBefore?_of_mem hs hmem hin, Option.filter_eq_none_iff] at h
    exact h _ rfl (by simp [Span.strictlyContains, hin])
  · intro h
    rw [Option.filter_eq_none_iff]
    intro s hlast hin
    obtain ⟨r, hr, hstop⟩ := (mem_edited_iff hs).1 (List.mem_filter.1 (List.mem_of_getLast? hlast)).1
    have := h s.start r hr
    rw [hstop] at this
    simp [Span.strictlyContains] at hin
    omega

theorem find?_inside_eq_none_iff {span : Span} :
    b.insertions.offsets.find? span.strictlyContains = none ↔
      ∀ p, (b.insertions.find? p).isSome → ¬ (span.start < p ∧ p < span.stop) := by
  simp only [List.find?_eq_none, OffsetTable.mem_offsets_iff, Bool.not_eq_true,
    Span.strictlyContains, Bool.and_eq_false_iff, decide_eq_false_iff_not]
  refine forall₂_congr fun p _ => ?_
  omega

/-- The span has a place among the edits: it is not empty, ends on boundaries, shares no byte with a
replaced span, and nothing is inserted inside it. -/
structure Replaceable (b : SpliceBuffer) (span : Span) : Prop where
  nonempty : span.start < span.stop
  cuts_start : b.CutsSource span.start
  cuts_stop : b.CutsSource span.stop
  disjoint : ∀ o r, b.replacements.find? o = some r → r.stop ≤ span.start ∨ span.stop ≤ o
  outside : ∀ p, (b.insertions.find? p).isSome → ¬ (span.start < p ∧ p < span.stop)

/-- The offset is a boundary that lies in no replaced span. -/
structure Insertable (b : SpliceBuffer) (offset : Nat) : Prop where
  cuts : b.CutsSource offset
  outside : ∀ o r, b.replacements.find? o = some r → ¬ (o < offset ∧ offset < r.stop)

/-- The buffer with a span replaced. -/
def replacing (b : SpliceBuffer) (span : Span) (text : String) : SpliceBuffer :=
  { b with replacements := b.replacements.alter (fun _ => ⟨span.stop, text⟩) span.start }

/-- The buffer with a text inserted. -/
def inserting (b : SpliceBuffer) (side : Side) (offset : Nat) (text : String) : SpliceBuffer :=
  { b with insertions := b.insertions.alter (fun i => (i.getD default).add text side) offset }

theorem update_eq_ok_iff (hs : b.Sound) {span : Span} {text : String} :
    b.update span text = .ok b' ↔ b.Replaceable span ∧ b' = b.replacing span text := by
  unfold update
  dsimp only
  rcases Nat.lt_or_ge span.start span.stop with hlt | hge
  · rw [if_neg (by omega), checkOffset_bind_eq_ok_iff, checkOffset_bind_eq_ok_iff]
    constructor
    · rintro ⟨hstart, hstop, h⟩
      split at h
      · cases h
      · next hdisjoint =>
        split at h
        · cases h
        · next houtside =>
          cases h
          exact ⟨⟨hlt, hstart, hstop, (find?_overlaps_eq_none_iff hs).1 hdisjoint,
            find?_inside_eq_none_iff.1 houtside⟩, rfl⟩
    · rintro ⟨h, rfl⟩
      refine ⟨h.cuts_start, h.cuts_stop, ?_⟩
      rw [(find?_overlaps_eq_none_iff hs).2 h.disjoint, find?_inside_eq_none_iff.2 h.outside]
      rfl
  · rw [if_pos hge]
    simp only [bind, Except.bind, reduceCtorEq, false_iff]
    rintro ⟨h, -⟩
    have := h.nonempty
    omega

theorem insert_eq_ok_iff (hs : b.Sound) {side : Side} {offset : Nat} {text : String} :
    b.insert side offset text = .ok b' ↔ b.Insertable offset ∧ b' = b.inserting side offset text := by
  unfold insert
  rw [checkOffset_bind_eq_ok_iff]
  constructor
  · rintro ⟨hcuts, h⟩
    split at h
    · cases h
    · next houtside =>
      cases h
      exact ⟨⟨hcuts, (lastBefore?_eq_none_iff hs).1 houtside⟩, rfl⟩
  · rintro ⟨h, rfl⟩
    refine ⟨h.cuts, ?_⟩
    rw [(lastBefore?_eq_none_iff hs).2 h.outside]
    rfl

/-- Deleting an empty span is taken at a boundary and does nothing. -/
theorem remove_eq_ok_iff (hs : b.Sound) {span : Span} :
    b.remove span = .ok b' ↔
      if span.start = span.stop then b.CutsSource span.start ∧ b' = b
      else b.Replaceable span ∧ b' = b.replacing span "" := by
  unfold remove
  simp only [Span.isEmpty, beq_iff_eq]
  split
  · rw [checkOffset_bind_eq_ok_iff, Except.ok.injEq]
    exact and_congr_right fun _ => eq_comm
  · exact update_eq_ok_iff hs

/-- An edit is taken, and gives the second buffer. -/
inductive Takes (b : SpliceBuffer) : Splice → SpliceBuffer → Prop where
  | update {span : Span} (text : String) :
    b.Replaceable span → b.Takes (.update span text) (b.replacing span text)
  | remove {span : Span} : b.Replaceable span → b.Takes (.remove span) (b.replacing span "")
  | removeNothing {span : Span} :
    span.start = span.stop → b.CutsSource span.start → b.Takes (.remove span) b
  | insert (side : Side) {offset : Nat} (text : String) :
    b.Insertable offset → b.Takes (.insert side offset text) (b.inserting side offset text)
  | prepend (text : String) : b.Takes (.prepend text) (b.prepend text)
  | append (text : String) : b.Takes (.append text) (b.append text)

theorem splice_eq_ok_iff (hs : b.Sound) {s : Splice} : b.splice s = .ok b' ↔ b.Takes s b' := by
  constructor
  · intro h
    cases s with
    | update span text =>
      obtain ⟨hr, rfl⟩ := (update_eq_ok_iff hs).1 h
      exact .update text hr
    | remove span =>
      have h := (remove_eq_ok_iff hs).1 h
      split at h
      · next hempty =>
        obtain ⟨hcuts, rfl⟩ := h
        exact .removeNothing hempty hcuts
      · obtain ⟨hr, rfl⟩ := h
        exact .remove hr
    | insert side offset text =>
      obtain ⟨hi, rfl⟩ := (insert_eq_ok_iff hs).1 h
      exact .insert side text hi
    | prepend text =>
      cases h
      exact .prepend text
    | append text =>
      cases h
      exact .append text
  · intro h
    cases h with
    | update text hr => exact (update_eq_ok_iff hs).2 ⟨hr, rfl⟩
    | @remove span hr =>
      have := hr.nonempty
      exact (remove_eq_ok_iff hs).2 (by rw [if_neg (by omega)]; exact ⟨hr, rfl⟩)
    | removeNothing hempty hcuts =>
      exact (remove_eq_ok_iff hs).2 (by rw [if_pos hempty]; exact ⟨hcuts, rfl⟩)
    | insert side text hi => exact (insert_eq_ok_iff hs).2 ⟨hi, rfl⟩
    | prepend text => rfl
    | append text => rfl

/-! ### What edits keep -/

theorem find?_replacing (hs : b.Sound) (span : Span) (text : String) (o : Nat) :
    (b.replacing span text).replacements.find? o =
      if o = span.start then some ⟨span.stop, text⟩ else b.replacements.find? o :=
  OffsetTable.find?_alter _ _ _ hs.replacements_sorted

theorem find?_inserting (hs : b.Sound) (side : Side) (offset : Nat) (text : String) (p : Nat) :
    (b.inserting side offset text).insertions.find? p =
      if p = offset then some (((b.insertions.find? offset).getD default).add text side)
      else b.insertions.find? p :=
  OffsetTable.find?_alter _ _ _ hs.insertions_sorted

theorem Sound.replacing (hs : b.Sound) {span : Span} (h : b.Replaceable span) (text : String) :
    (b.replacing span text).Sound where
  insertions_sorted := hs.insertions_sorted
  replacements_sorted := OffsetTable.sorted_alter _ _ hs.replacements_sorted
  replaced {o r} hr := by
    rw [find?_replacing hs] at hr
    split at hr
    · next ho =>
      cases hr
      exact ⟨ho ▸ h.nonempty, ho ▸ h.cuts_start, h.cuts_stop⟩
    · exact hs.replaced hr
  apart {o r p} hr hp hlt := by
    rw [find?_replacing hs] at hr hp
    split at hr <;> split at hp
    · omega
    · next ho _ =>
      cases hr
      obtain ⟨r', hr'⟩ := Option.isSome_iff_exists.1 hp
      have := h.disjoint p r' hr'
      have := (hs.replaced hr').1
      show span.stop ≤ p
      omega
    · next _ hp' =>
      have := h.disjoint o r hr
      have := h.nonempty
      omega
    · exact hs.apart hr hp hlt
  inserted := hs.inserted
  outside {o r p} hr hp := by
    rw [find?_replacing hs] at hr
    split at hr
    · next ho =>
      cases hr
      exact ho ▸ h.outside p hp
    · exact hs.outside hr hp

theorem Sound.inserting (hs : b.Sound) {offset : Nat} (h : b.Insertable offset) (side : Side)
    (text : String) : (b.inserting side offset text).Sound where
  insertions_sorted := OffsetTable.sorted_alter _ _ hs.insertions_sorted
  replacements_sorted := hs.replacements_sorted
  replaced := hs.replaced
  apart := hs.apart
  inserted {p} hp := by
    rw [find?_inserting hs] at hp
    split at hp
    · next ho => exact ho ▸ h.cuts
    · exact hs.inserted hp
  outside {o r p} hr hp := by
    rw [find?_inserting hs] at hp
    split at hp
    · next ho => exact ho ▸ h.outside o r hr
    · exact hs.outside hr hp

/-- An edit that is taken keeps the buffer sound. -/
theorem Takes.sound {s : Splice} (h : b.Takes s b') (hs : b.Sound) : b'.Sound := by
  cases h with
  | update text hr => exact hs.replacing hr text
  | remove hr => exact hs.replacing hr ""
  | removeNothing => exact hs
  | insert side text hi => exact hs.inserting hi side text
  | prepend text => exact ⟨hs.1, hs.2, hs.3, hs.4, hs.5, hs.6⟩
  | append text => exact ⟨hs.1, hs.2, hs.3, hs.4, hs.5, hs.6⟩

theorem Takes.source_eq {s : Splice} (h : b.Takes s b') : b'.source = b.source := by
  cases h <;> rfl

end Restyle.SpliceBuffer
