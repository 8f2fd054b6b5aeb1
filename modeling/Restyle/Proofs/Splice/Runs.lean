import Restyle.Proofs.Source.Spans
import Restyle.Proofs.Splice.Meaning

/-! Runs of edits none of which is refused. Replacements of spans that are apart go through, and so do
insertions outside of them after that. -/

namespace Restyle

open Text

/-- The edit replaces a span by a text. -/
inductive Splice.Makes : Splice → Span × String → Prop where
  | update (span : Span) (text : String) : Makes (.update span text) (span, text)
  | remove (span : Span) : Makes (.remove span) (span, "")

namespace SpliceBuffer

open Splice

variable {b b' : SpliceBuffer}

/-- A run that is not refused leaves a buffer with all its edits. -/
theorem Holds.foldlM {edits more : List Splice} (h : b.Holds edits) (hs : b.Sound)
    (hrun : more.foldlM splice b = .ok b') :
    b'.Sound ∧ b'.Holds (edits ++ more) ∧ b'.source = b.source := by
  induction more generalizing b edits with
  | nil =>
    cases hrun
    exact ⟨hs, by simpa using h, rfl⟩
  | cons s more ih =>
    rw [List.foldlM_cons] at hrun
    cases hb : b.splice s with
    | error e =>
      rw [hb] at hrun
      cases hrun
    | ok b₁ =>
      rw [hb] at hrun
      have ht := (splice_eq_ok_iff hs).1 hb
      have hrest := ih (ht.holds hs h) (ht.sound hs) hrun
      rw [List.append_assoc] at hrest
      exact ⟨hrest.1, hrest.2.1, hrest.2.2.trans ht.source_eq⟩

theorem Takes.of_makes {s : Splice} {c : Span × String} (h : s.Makes c) (hc : b.Replaceable c.1) :
    b.Takes s (b.replacing c.1 c.2) := by
  cases h with
  | update span text => exact .update text hc
  | remove span => exact .remove hc

/-- What a buffer replaces is apart from the span. -/
def Free (b : SpliceBuffer) (span : Span) : Prop :=
  ∀ o r, b.replacements.find? o = some r → Span.Apart ⟨o, r.stop⟩ span

theorem replaceable_of_free {span : Span} (h : b.Free span) (hnone : b.insertions = [])
    (hcuts : span.Cuts b.source.toList) (hlt : span.start < span.stop) : b.Replaceable span where
  nonempty := hlt
  cuts_start := hcuts.start
  cuts_stop := hcuts.stop
  disjoint := h
  outside p hp := by
    rw [hnone] at hp
    cases hp

theorem Free.replacing (hs : b.Sound) {span span' : Span} (h : b.Free span) (hapart : span'.Apart span)
    (text : String) : (b.replacing span' text).Free span := by
  intro o r hr
  rw [find?_replacing hs] at hr
  split at hr
  · next ho =>
    cases hr
    rw [ho]
    exact hapart
  · exact h o r hr

/-- Changes of spans that are apart are all made. -/
theorem foldlM_makes {edits : List Splice} {changes : List (Span × String)}
    (hmakes : List.Forall₂ Makes edits changes) (hs : b.Sound) (hnone : b.insertions = [])
    (hcuts : ∀ c ∈ changes, c.1.Cuts b.source.toList ∧ c.1.start < c.1.stop)
    (hapart : (changes.map Prod.fst).Pairwise Span.Apart) (hfree : ∀ c ∈ changes, b.Free c.1) :
    ∃ b', edits.foldlM splice b = .ok b' ∧ b'.Sound ∧ b'.source = b.source ∧
      ∀ span, b.Free span → (∀ c ∈ changes, c.1.Apart span) → b'.Free span := by
  induction hmakes generalizing b with
  | nil => exact ⟨b, rfl, hs, rfl, fun span h _ => h⟩
  | @cons s c edits changes hmake _ ih =>
    obtain ⟨hfirst, hrest⟩ := List.pairwise_cons.1 hapart
    have hc := hcuts c (List.mem_cons_self ..)
    have hr := replaceable_of_free (hfree c (List.mem_cons_self ..)) hnone hc.1 hc.2
    obtain ⟨b', hrun, hs', hsource, hfree'⟩ := ih (hs.replacing hr c.2) hnone
      (fun d hd => hcuts d (List.mem_cons_of_mem c hd)) hrest
      (fun d hd => (hfree d (List.mem_cons_of_mem c hd)).replacing hs
        (hfirst d.1 (List.mem_map_of_mem hd)) c.2)
    refine ⟨b', ?_, hs', hsource, fun span hspan hall => ?_⟩
    · rw [List.foldlM_cons, (splice_eq_ok_iff hs).2 (.of_makes hmake hr)]
      exact hrun
    · exact hfree' span (hspan.replacing hs (hall c (List.mem_cons_self ..)) c.2)
        fun d hd => hall d (List.mem_cons_of_mem c hd)

/-- The edit adds text outside of what is replaced. -/
inductive Adds (b : SpliceBuffer) : Splice → Prop where
  | insert (side : Side) {offset : Nat} (text : String) :
    b.Insertable offset → b.Adds (.insert side offset text)
  | prepend (text : String) : b.Adds (.prepend text)
  | append (text : String) : b.Adds (.append text)

theorem Adds.congr {s : Splice} (h : b.Adds s) (hsource : b'.source = b.source)
    (hreplacements : b'.replacements = b.replacements) : b'.Adds s := by
  cases h with
  | insert side text hi =>
    exact .insert side text ⟨by rw [CutsSource, hsource]; exact hi.cuts, hreplacements ▸ hi.outside⟩
  | prepend text => exact .prepend text
  | append text => exact .append text

/-- Additions are all made. -/
theorem foldlM_adds {edits : List Splice} (hs : b.Sound) (hadds : ∀ s ∈ edits, b.Adds s) :
    ∃ b', edits.foldlM splice b = .ok b' := by
  induction edits generalizing b with
  | nil => exact ⟨b, rfl⟩
  | cons s edits ih =>
    have one : ∃ b₁, b.Takes s b₁ ∧ b₁.replacements = b.replacements := by
      cases hadds s (List.mem_cons_self ..) with
      | insert side text hi => exact ⟨_, .insert side text hi, rfl⟩
      | prepend text => exact ⟨_, .prepend text, rfl⟩
      | append text => exact ⟨_, .append text, rfl⟩
    obtain ⟨b₁, ht, hreplacements⟩ := one
    rw [List.foldlM_cons, (splice_eq_ok_iff hs).2 ht]
    exact ih (ht.sound hs) fun t hmem =>
      (hadds t (List.mem_cons_of_mem s hmem)).congr ht.source_eq hreplacements

end SpliceBuffer

end Restyle
