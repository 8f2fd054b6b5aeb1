import Mathlib.Data.List.Sort
import Restyle.Proofs.Splice.Acceptance

/-! Edits in another order. Two edits are compatible if they replace spans that are apart and neither inserts
inside a span that the other replaces; this has no first and second. Edits that go through one after the
other are those that go through alone and are compatible with each other, so they go through in every order.
The order shows only in texts that are added at the same end of the same text: without these every order of
some edits gives one buffer. -/

namespace Restyle

open Text

/-! ### Tables told from their content -/

namespace OffsetTable

variable {α : Type} {s t : OffsetTable α}

/-- Tables with one content are equal. -/
theorem eq_of_find? (hs : s.Sorted) (ht : t.Sorted) (h : ∀ o, s.find? o = t.find? o) : s = t := by
  have : Std.Antisymm fun x y : Nat × α => x.1 < y.1 := ⟨fun _ _ h h' => absurd h' (Nat.lt_asymm h)⟩
  have : Std.Irrefl fun x y : Nat × α => x.1 < y.1 := ⟨fun _ => Nat.lt_irrefl _⟩
  exact hs.eq_of_mem_iff ht fun kv => by rw [mem_iff_find? hs, mem_iff_find? ht, h]

end OffsetTable

namespace Splice

variable {source : String} {past edits more : List Splice} {x y : Splice}

/-! ### Compatible edits -/

/-- Two edits that have room beside each other: what they replace is apart, and neither inserts inside what the
other replaces. -/
structure Compatible (x y : Splice) : Prop where
  apart : ∀ s ∈ x.replacement?, ∀ t ∈ y.replacement?, s.1.Apart t.1
  outside : ∀ s ∈ x.replacement?, ∀ o ∈ y.insertedAt?, ¬ (s.1.start < o ∧ o < s.1.stop)
  inside : ∀ t ∈ y.replacement?, ∀ o ∈ x.insertedAt?, ¬ (t.1.start < o ∧ o < t.1.stop)

theorem Compatible.symm (h : x.Compatible y) : y.Compatible x :=
  ⟨fun t ht s hs => (h.apart s hs t ht).symm, h.inside, h.outside⟩

/-- The edit can be made on a source after others. -/
def Fits (source : String) (past : List Splice) : Splice → Prop
  | .update span _ => LeavesRoom source past span
  | .remove span =>
    if span.start = span.stop then isBoundary source.toList span.start = true else LeavesRoom source past span
  | .insert _ offset _ => isBoundary source.toList offset = true
    ∧ ∀ s ∈ replacedSpans past, ¬ (s.start < offset ∧ offset < s.stop)
  | .prepend _ | .append _ => True

theorem mem_replacedSpans_snoc {s : Span} :
    s ∈ replacedSpans (past ++ [x]) ↔ s ∈ replacedSpans past ∨ ∃ c ∈ x.replacement?, c.1 = s := by
  cases h : x.replacement? <;> simp [replacedSpans, h, eq_comm]

theorem mem_insertedOffsets_snoc {o : Nat} :
    o ∈ insertedOffsets (past ++ [x]) ↔ o ∈ insertedOffsets past ∨ o ∈ x.insertedAt? := by
  rw [insertedOffsets_snoc, List.mem_append, Option.mem_toList, Option.mem_def]

theorem leavesRoom_snoc {span : Span} : LeavesRoom source (past ++ [x]) span ↔ LeavesRoom source past span
    ∧ (∀ c ∈ x.replacement?, c.1.Apart span)
    ∧ ∀ o ∈ x.insertedAt?, ¬ (span.start < o ∧ o < span.stop) := by
  constructor
  · intro h
    exact ⟨⟨h.nonempty, h.cuts_start, h.cuts_stop, fun s hs => h.apart s (mem_replacedSpans_snoc.2 (.inl hs)),
        fun o ho => h.outside o (mem_insertedOffsets_snoc.2 (.inl ho))⟩,
      fun c hc => h.apart c.1 (mem_replacedSpans_snoc.2 (.inr ⟨c, hc, rfl⟩)),
      fun o ho => h.outside o (mem_insertedOffsets_snoc.2 (.inr ho))⟩
  · rintro ⟨h, hapart, houtside⟩
    refine ⟨h.nonempty, h.cuts_start, h.cuts_stop, fun s hs => ?_, fun o ho => ?_⟩
    · rcases mem_replacedSpans_snoc.1 hs with hs | ⟨c, hc, rfl⟩
      · exact h.apart s hs
      · exact hapart c hc
    · rcases mem_insertedOffsets_snoc.1 ho with ho | ho
      · exact h.outside o ho
      · exact houtside o ho

/-- An edit can be made after one more if it can be made before that and is compatible with it. -/
theorem fits_snoc : y.Fits source (past ++ [x]) ↔ y.Fits source past ∧ x.Compatible y := by
  have replacing : ∀ {span text}, y.replacement? = some (span, text) → y.insertedAt? = none →
      (LeavesRoom source (past ++ [x]) span ↔ LeavesRoom source past span ∧ x.Compatible y) := by
    intro span text hreplace hinsert
    rw [leavesRoom_snoc]
    refine and_congr_right fun _ => ⟨fun h => ⟨?_, ?_, ?_⟩, fun h => ⟨?_, ?_⟩⟩
    · simpa [hreplace] using h.1
    · simp [hinsert]
    · simpa [hreplace] using h.2
    · simpa [hreplace] using h.apart
    · simpa [hreplace] using h.inside
  have adding : y.replacement? = none → y.insertedAt? = none → x.Compatible y := by
    intro hreplace hinsert
    exact ⟨by simp [hreplace], by simp [hinsert], by simp [hreplace]⟩
  cases y with
  | update span text => exact replacing rfl rfl
  | remove span =>
    by_cases hempty : span.start = span.stop
    · simp only [Fits, if_pos hempty, adding (if_pos hempty) rfl, and_true]
    · simp only [Fits, if_neg hempty]
      exact replacing (if_neg hempty) rfl
  | insert side offset text =>
    simp only [Fits, and_assoc]
    refine and_congr_right fun _ => ⟨fun h => ⟨fun s hs => h s (mem_replacedSpans_snoc.2 (.inl hs)), ?_, ?_, ?_⟩,
      fun h s hs => ?_⟩
    · simp [replacement?]
    · simpa [insertedAt?] using fun span text hc => h span (mem_replacedSpans_snoc.2 (.inr ⟨_, hc, rfl⟩))
    · simp [replacement?]
    · rcases mem_replacedSpans_snoc.1 hs with hs | ⟨c, hc, rfl⟩
      · exact h.1 s hs
      · exact h.2.outside c hc offset rfl
  | prepend text => simp [Fits, adding rfl rfl]
  | append text => simp [Fits, adding rfl rfl]

/-! ### Where the order shows -/

/-- Both edits add to the same end of the same text. -/
inductive SameEnd : Splice → Splice → Prop where
  | front (t u : String) : SameEnd (.prepend t) (.prepend u)
  | back (t u : String) : SameEnd (.append t) (.append u)
  | insert (side : Side) (offset : Nat) (t u : String) : SameEnd (.insert side offset t) (.insert side offset u)

/-- What two lists of edits have in common if they mean the same: what is added at each place, what is replaced,
and where something is inserted. -/
structure Agree (edits more : List Splice) : Prop where
  front : front edits = front more
  back : back edits = back more
  left : ∀ o, left edits o = left more o
  right : ∀ o, right edits o = right more o
  replaced : ∀ c, c ∈ edits.filterMap replacement? ↔ c ∈ more.filterMap replacement?
  inserted : ∀ o, o ∈ insertedOffsets edits ↔ o ∈ insertedOffsets more

/-- Of edits no two of which add at the same end, at most one adds at a given end, so their order does not show
there. -/
theorem filterMap_eq_of_perm {α : Type} {f : Splice → Option α}
    (hf : ∀ x y, (f x).isSome → (f y).isSome → x.SameEnd y) (hperm : edits.Perm more)
    (hapart : edits.Pairwise fun x y => ¬ x.SameEnd y) : edits.filterMap f = more.filterMap f := by
  have hfew : (edits.filterMap f).length ≤ 1 := by
    have hpairs : (edits.filterMap f).Pairwise fun _ _ => False :=
      hapart.filterMap f fun x y hxy a ha b hb => hxy (hf x y (by simp [ha]) (by simp [hb]))
    match edits.filterMap f, hpairs with
    | [], _ => exact Nat.zero_le 1
    | [a], _ => exact Nat.le_refl 1
    | a :: b :: rest, h => exact ((List.pairwise_cons.1 h).1 b (List.mem_cons_self ..)).elim
  have hperm := hperm.filterMap f
  match edits.filterMap f, hfew, hperm with
  | [], _, h => exact h.nil_eq
  | [a], _, h => exact h.singleton_eq

theorem agree_of_perm (past : List Splice) (hperm : edits.Perm more)
    (hapart : edits.Pairwise fun x y => ¬ x.SameEnd y) : Agree (past ++ edits) (past ++ more) := by
  have hfront : edits.filterMap prepended? = more.filterMap prepended? := by
    refine filterMap_eq_of_perm (fun x y hx hy => ?_) hperm hapart
    cases x <;> cases y <;> simp_all [prepended?, SameEnd.front]
  have hback : edits.filterMap appended? = more.filterMap appended? := by
    refine filterMap_eq_of_perm (fun x y hx hy => ?_) hperm hapart
    cases x <;> cases y <;> simp_all [appended?, SameEnd.back]
  have hinsert : ∀ side o, edits.filterMap (insertion? side o) = more.filterMap (insertion? side o) := by
    intro side o
    refine filterMap_eq_of_perm (fun x y hx hy => ?_) hperm hapart
    cases x <;> cases y <;> simp_all [insertion?, SameEnd.insert]
  refine ⟨?_, ?_, fun o => ?_, fun o => ?_, fun c => ?_, fun o => ?_⟩
  · simp only [Splice.front, List.filterMap_append, hfront]
  · simp only [Splice.back, List.filterMap_append, hback]
  · simp only [Splice.left, List.filterMap_append, hinsert]
  · simp only [Splice.right, List.filterMap_append, hinsert]
  · simp only [List.filterMap_append, List.mem_append, (hperm.filterMap replacement?).mem_iff]
  · simp only [insertedOffsets, List.filterMap_append, List.mem_append, (hperm.filterMap insertedAt?).mem_iff]

end Splice

namespace SpliceBuffer

open Splice

variable {b b' : SpliceBuffer} {past edits more : List Splice} {x y : Splice}

/-! ### Which edits go through together -/

theorem Holds.isOk_iff_fits (h : b.Holds past) (hs : b.Sound) (hmarks : b.Marks past) :
    (b.splice x).isOk = true ↔ x.Fits b.source past := by
  have haccepts := h.accepts hs hmarks
  cases x with
  | update span text => exact haccepts.update span text
  | remove span =>
    by_cases hempty : span.start = span.stop
    · rw [Fits, if_pos hempty]
      exact haccepts.removeNothing span hempty
    · rw [Fits, if_neg hempty]
      exact haccepts.remove span hempty
  | insert side offset text => exact haccepts.insert side offset text
  | prepend text => exact iff_of_true rfl trivial
  | append text => exact iff_of_true rfl trivial

/-- What is known of a buffer and the edits that it took. -/
structure Reflects (b : SpliceBuffer) (past : List Splice) : Prop where
  sound : b.Sound
  holds : b.Holds past
  marks : b.Marks past

theorem Reflects.step (h : b.Reflects past) (hx : b.splice x = .ok b') :
    b'.Reflects (past ++ [x]) ∧ b'.source = b.source := by
  have ht := (splice_eq_ok_iff h.sound).1 hx
  exact ⟨⟨ht.sound h.sound, ht.holds h.sound h.holds, ht.marks h.sound h.marks⟩, ht.source_eq⟩

theorem reflects_run (source : String) (edits : List Splice) :
    ((ofSource source).run edits).Reflects ((ofSource source).taken edits) := by
  have hsound := sound_ofSource source
  obtain ⟨hs, hholds, -⟩ := holds_run hsound (holds_ofSource source) edits
  exact ⟨hs, hholds, marks_run hsound (marks_ofSource source) edits⟩

/-- Edits go through one after the other if each goes through alone and they are compatible with each other. -/
theorem Reflects.exists_foldlM_iff (h : b.Reflects past) : (∃ b', edits.foldlM splice b = .ok b') ↔
    (∀ x ∈ edits, x.Fits b.source past) ∧ edits.Pairwise Compatible := by
  induction edits generalizing b past with
  | nil => simpa using ⟨b, rfl⟩
  | cons x edits ih =>
    rw [List.foldlM_cons, List.pairwise_cons, List.forall_mem_cons, ← h.holds.isOk_iff_fits h.sound h.marks]
    cases hx : b.splice x with
    | error e => simp [bind, Except.bind, Except.isOk, Except.toBool]
    | ok b₁ =>
      obtain ⟨hnext, hsource⟩ := h.step hx
      have hrest := ih hnext
      rw [hsource] at hrest
      simp only [fits_snoc, forall_and] at hrest
      simp only [bind, Except.bind, Except.isOk, Except.toBool, true_and, hrest]
      tauto

/-- Buffers for one source are equal if their edits mean the same. -/
theorem Reflects.eq_of_agree (h : b.Reflects edits) (h' : b'.Reflects more) (hsource : b.source = b'.source)
    (hagree : Agree edits more) : b = b' := by
  have hreplacements : b.replacements = b'.replacements := by
    refine OffsetTable.eq_of_find? h.sound.replacements_sorted h'.sound.replacements_sorted fun o => Option.ext fun r => ?_
    exact (h.holds.replacement ⟨o, r.stop⟩ r.text).symm.trans
      ((hagree.replaced _).trans (h'.holds.replacement ⟨o, r.stop⟩ r.text))
  have hinsertions : b.insertions = b'.insertions := by
    refine OffsetTable.eq_of_find? h.sound.insertions_sorted h'.sound.insertions_sorted fun o => ?_
    have hsome := (h.marks o).trans ((hagree.inserted o).trans (h'.marks o).symm)
    have hvalue := h.holds.insertion o
    rw [hagree.left, hagree.right, ← h'.holds.insertion] at hvalue
    cases hi : b.insertions.find? o <;> cases hi' : b'.insertions.find? o <;> simp_all
  have hintro := h.holds.front_eq.trans (hagree.front.trans h'.holds.front_eq.symm)
  have houtro := h.holds.back_eq.trans (hagree.back.trans h'.holds.back_eq.symm)
  cases b
  cases b'
  simp_all

theorem Reflects.foldlM (h : b.Reflects past) (hrun : edits.foldlM splice b = .ok b') :
    b'.Reflects (past ++ edits) ∧ b'.source = b.source := by
  induction edits generalizing b past with
  | nil =>
    cases hrun
    exact ⟨by simpa using h, rfl⟩
  | cons x edits ih =>
    rw [List.foldlM_cons] at hrun
    cases hx : b.splice x with
    | error e =>
      rw [hx] at hrun
      cases hrun
    | ok b₁ =>
      rw [hx] at hrun
      obtain ⟨hnext, hsource⟩ := h.step hx
      obtain ⟨hlast, hsource'⟩ := ih hnext hrun
      exact ⟨by simpa using hlast, hsource'.trans hsource⟩

/-- Edits that go through go through in every order, and give one buffer unless two of them add at the same end of
the same text. -/
theorem Reflects.foldlM_perm (h : b.Reflects past) (hperm : edits.Perm more)
    (hrun : edits.foldlM splice b = .ok b') : ∃ b'', more.foldlM splice b = .ok b''
      ∧ ((edits.Pairwise fun x y => ¬ x.SameEnd y) → b'' = b') := by
  obtain ⟨hfits, hcompatible⟩ := h.exists_foldlM_iff.1 ⟨b', hrun⟩
  obtain ⟨b'', hrun'⟩ := h.exists_foldlM_iff.2 ⟨fun x hx => hfits x (hperm.mem_iff.2 hx),
    (hperm.pairwise_iff fun h => Compatible.symm h).1 hcompatible⟩
  refine ⟨b'', hrun', fun hapart => ?_⟩
  obtain ⟨hlast, hsource⟩ := h.foldlM hrun
  obtain ⟨hlast', hsource'⟩ := h.foldlM hrun'
  exact (hlast.eq_of_agree hlast' (hsource.trans hsource'.symm) (agree_of_perm past hperm hapart)).symm

/-- Whatever edits were tried on a source, two edits that can be made next can both be made in one order if and only
if they can in the other, and both orders give one buffer and one text with one map, unless both edits add at the
same end of the same text. -/
theorem splice_comm (source : String) (edits : List Splice) {x y : Splice} {bx by_ : SpliceBuffer}
    (hx : ((ofSource source).run edits).splice x = .ok bx)
    (hy : ((ofSource source).run edits).splice y = .ok by_) :
    ((bx.splice y).isOk = true ↔ (by_.splice x).isOk = true)
      ∧ (¬ x.SameEnd y → ∀ bxy byx, bx.splice y = .ok bxy → by_.splice x = .ok byx →
        bxy = byx ∧ bxy.code = byx.code ∧ bxy.map = byx.map) := by
  have h := reflects_run source edits
  obtain ⟨hnext, hsource⟩ := h.step hx
  obtain ⟨hnext', hsource'⟩ := h.step hy
  refine ⟨?_, fun hapart bxy byx hxy hyx => ?_⟩
  · have hfits := (h.holds.isOk_iff_fits h.sound h.marks).1 (congrArg Except.isOk hx)
    have hfits' := (h.holds.isOk_iff_fits h.sound h.marks).1 (congrArg Except.isOk hy)
    rw [hnext.holds.isOk_iff_fits hnext.sound hnext.marks, hnext'.holds.isOk_iff_fits hnext'.sound hnext'.marks,
      hsource, hsource', fits_snoc, fits_snoc]
    exact ⟨fun hboth => ⟨hfits, hboth.2.symm⟩, fun hboth => ⟨hfits', hboth.2.symm⟩⟩
  · obtain ⟨hlast, hlastSource⟩ := hnext.step hxy
    obtain ⟨hlast', hlastSource'⟩ := hnext'.step hyx
    rw [List.append_assoc] at hlast hlast'
    have hagree := agree_of_perm ((ofSource source).taken edits) (List.Perm.swap y x [])
      (List.pairwise_pair.2 hapart)
    have hsame : bxy = byx := hlast.eq_of_agree hlast'
      ((hlastSource.trans hsource).trans (hlastSource'.trans hsource').symm) hagree
    exact ⟨hsame, congrArg code hsame, congrArg map hsame⟩

/-- A replacement and an insertion at its edge, behind another insertion there and a refused edit. -/
theorem splice_comm_edge :
    let edits : List Splice := [.insert .appendLeft 2 "x", .update ⟨1, 3⟩ "y", .update ⟨0, 1⟩ "z"]
    let replaced : SpliceBuffer :=
      { source := "abcd", replacements := [(0, ⟨1, "z"⟩), (2, ⟨4, "u"⟩)], insertions := [(2, ⟨"x", ""⟩)] }
    let inserted : SpliceBuffer :=
      { source := "abcd", replacements := [(0, ⟨1, "z"⟩)], insertions := [(2, ⟨"x", "v"⟩)] }
    let both : SpliceBuffer :=
      { source := "abcd", replacements := [(0, ⟨1, "z"⟩), (2, ⟨4, "u"⟩)], insertions := [(2, ⟨"x", "v"⟩)] }
    ((ofSource "abcd").run edits).splice (.update ⟨2, 4⟩ "u") = .ok replaced
      ∧ ((ofSource "abcd").run edits).splice (.insert .prependRight 2 "v") = .ok inserted
      ∧ replaced.splice (.insert .prependRight 2 "v") = .ok both
      ∧ inserted.splice (.update ⟨2, 4⟩ "u") = .ok both := by
  intro edits replaced inserted both
  have hreplaced : ((ofSource "abcd").run edits).splice (.update ⟨2, 4⟩ "u") = .ok replaced := by
    decide +kernel
  have hinserted : ((ofSource "abcd").run edits).splice (.insert .prependRight 2 "v") = .ok inserted := by
    decide +kernel
  have hboth : replaced.splice (.insert .prependRight 2 "v") = .ok both := by decide +kernel
  obtain ⟨hok, hsame⟩ := splice_comm "abcd" edits hreplaced hinserted
  refine ⟨hreplaced, hinserted, hboth, ?_⟩
  cases hlast : inserted.splice (.update ⟨2, 4⟩ "u") with
  | error e =>
    have hrefused := hok.1 (congrArg Except.isOk hboth)
    rw [hlast] at hrefused
    cases hrefused
  | ok last => rw [(hsame (by rintro ⟨⟩) both last hboth hlast).1]

end SpliceBuffer

end Restyle
