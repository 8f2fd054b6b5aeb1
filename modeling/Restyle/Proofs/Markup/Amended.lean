import Restyle.Proofs.Markup.Zones

/-! Documents that are amended. A weave amends a document if attributes of its elements give way to spreads or are
dropped, and if texts are put at the ends of the contents of its scripts, and if it does nothing else. What
comes of the text of a document without faults has no faults either; it has the same elements with what became
of their attributes, and the same scripts with what they have taken in. -/

namespace Restyle.Markup

open Text Cursor

variable {w : Weave} {text code : String} {first r : Reader}

/-- What a weave does to the text of a document. -/
structure Amends (w : Weave) (d : Document) : Prop where
  put : ∀ o, (∀ e ∈ d.fragment.elements, ∀ a ∈ e.attributes, a.span.contains o = false) →
    (∀ context s, d.script? context = some s → s.contentSpan.stop < s.span.stop →
      o ≠ s.contentSpan.start ∧ o ≠ s.contentSpan.stop) → w.put o = []
  drops : ∀ o, (∀ e ∈ d.fragment.elements, ∀ a ∈ e.attributes, a.span.contains o = false) → w.drops o = false
  edits : ∀ e ∈ d.fragment.elements, ∀ a ∈ e.attributes, Edits w a
  free : ∀ context s, d.script? context = some s → s.contentSpan.stop < s.span.stop →
    Free "</script".toList (w.filled s.contentSpan.start s.content.toList)

/-- A step that covers a place of an attribute of the document shows the attribute. -/
theorem shows_of_covers {e : ElementView} {a : Attribute} {o : Nat} (hleads : (Reader.ofText text).Leads r)
    (he : e ∈ (read text).document.fragment.elements) (ha : a ∈ e.attributes) (hlo : r.cursor.offset ≤ o)
    (hhi : o < r.step.cursor.offset + 2) (ho : a.span.contains o = true) : r.Shows a := by
  obtain ⟨-, r₁, hleads₁, hshows⟩ := exists_shows he ha
  rw [(hshows.covers ho).eq hleads hleads₁ hlo hhi]
  exact hshows

/-- A step that covers an end of the content of a script takes the script. -/
theorem takes_of_covers {context : ScriptContext} {s : Script} {o : Nat} (hclean : (read text).faults = [])
    (hleads : (Reader.ofText text).Leads r) (hs : (read text).document.script? context = some s)
    (hcontent : s.contentSpan.stop < s.span.stop) (hlo : r.cursor.offset ≤ o)
    (hhi : o < r.step.cursor.offset + 2) (ho : o = s.contentSpan.start ∨ o = s.contentSpan.stop) : r.Takes s := by
  obtain ⟨r₁, hleads₁, htakes, -⟩ := exists_takes hs
  obtain ⟨hstart, hstop⟩ := htakes.covers (clean_step hclean hleads₁ htakes.isDone) hcontent
  have hcovers : r₁.Covers o := by
    rcases ho with rfl | rfl
    · exact hstart
    · exact hstop
  rw [hcovers.eq hleads hleads₁ hlo hhi]
  exact htakes

/-- An attribute does not have an end of the content of a script in it. -/
theorem not_contains_of_script? {e : ElementView} {a : Attribute} {context : ScriptContext} {s : Script} {o : Nat}
    (hclean : (read text).faults = []) (he : e ∈ (read text).document.fragment.elements) (ha : a ∈ e.attributes)
    (hs : (read text).document.script? context = some s) (hcontent : s.contentSpan.stop < s.span.stop)
    (ho : o = s.contentSpan.start ∨ o = s.contentSpan.stop) : a.span.contains o = false := by
  rw [← Bool.not_eq_true]
  intro hin
  obtain ⟨-, r, hleads, hshows⟩ := exists_shows he ha
  obtain ⟨hlo, hhi⟩ := hshows.covers hin
  exact Reader.not_takes_of_readsNode hshows.1 s
    (takes_of_covers hclean hleads hs hcontent (by omega) (by omega) ho)

/-- Scripts of two contexts do not have an end of their contents in common. -/
theorem context_eq_of_script? {context context' : ScriptContext} {s t : Script} {o : Nat}
    (hclean : (read text).faults = []) (hs : (read text).document.script? context = some s)
    (hscontent : s.contentSpan.stop < s.span.stop) (hso : o = s.contentSpan.start ∨ o = s.contentSpan.stop)
    (ht : (read text).document.script? context' = some t) (htcontent : t.contentSpan.stop < t.span.stop)
    (hto : o = t.contentSpan.start ∨ o = t.contentSpan.stop) : context = context' := by
  obtain ⟨r, hleads, htakes, rfl⟩ := exists_takes hs
  obtain ⟨-, -, -, hcontext⟩ := exists_takes ht
  obtain ⟨hstart, hstop⟩ := htakes.covers (clean_step hclean hleads htakes.isDone) hscontent
  have hcovers : r.Covers o := by
    rcases hso with rfl | rfl
    · exact hstart
    · exact hstop
  obtain ⟨hlo, hhi⟩ := hcovers
  obtain ⟨-, -, hsame⟩ := takes_of_covers hclean hleads ht htcontent (by omega) (by omega) hto
  rw [← hcontext, hsame, htakes.2.2]

/-- The content of a script is as wide as its span, and no closing tag of a script stands in it. -/
theorem content_of_script? {context : ScriptContext} {s : Script} (hclean : (read text).faults = [])
    (hs : (read text).document.script? context = some s) (hcontent : s.contentSpan.stop < s.span.stop) :
    s.contentSpan.stop = s.contentSpan.start + width s.content.toList
      ∧ Free ('<' :: '/' :: "script".toList) s.content.toList := by
  obtain ⟨r, hleads, htakes, -⟩ := exists_takes hs
  have hblock := htakes.step.clean (clean_step hclean hleads htakes.isDone)
  obtain ⟨-, htag, rfl⟩ := htakes
  obtain ⟨t, hc, -⟩ := rest_of_atTag htag
  obtain ⟨hreads, -⟩ := readsRaw_rawBlock hblock hc
  cases hreads with
  | selfClosing _ hspan =>
    rw [RawBlock.script, hspan] at hcontent
    exact absurd hcontent (Nat.lt_irrefl _)
  | content content _ _ hfree _ hspan htext =>
    have hlist : (r.cursor.rawBlock "script".toList).content.toList = content := by
      rw [htext, String.toList_ofList]
    refine ⟨?_, hlist ▸ hfree⟩
    show (r.cursor.rawBlock "script".toList).contentSpan.stop =
      (r.cursor.rawBlock "script".toList).contentSpan.start + width (r.cursor.rawBlock "script".toList).content.toList
    rw [hlist, hspan]

/-- An attribute that is shown, in an element or not, is one that the weave may treat so. -/
theorem Amends.edits_of_shows {a : Attribute} (h : Amends w (read text).document) (hclean : (read text).faults = [])
    (hleads : (Reader.ofText text).Leads r) (hshows : r.Shows a) : Edits w a := by
  by_cases hmem : ∃ e ∈ (read text).document.fragment.elements, a ∈ e.attributes
  · obtain ⟨e, he, ha⟩ := hmem
    exact h.edits e he a ha
  refine .keep fun o hlo hhi => ?_
  have ho : a.span.contains o = true := Span.contains_iff.2 ⟨hlo, hhi⟩
  have hcovers := hshows.covers ho
  have hlo : r.cursor.offset ≤ o := Nat.le_trans (Nat.le_add_right _ 2) hcovers.1
  have hhi : o < r.step.cursor.offset + 2 := Nat.lt_of_lt_of_le hcovers.2 (Nat.le_add_right _ 2)
  have hnone : ∀ e ∈ (read text).document.fragment.elements, ∀ b ∈ e.attributes, b.span.contains o = false := by
    intro e he b hb
    rw [← Bool.not_eq_true]
    intro hob
    obtain ⟨-, rfl⟩ := hshows.eq (shows_of_covers hleads he hb hlo hhi hob) hleads hleads ho hob
    exact hmem ⟨e, he, hb⟩
  refine ⟨h.put o hnone fun context s hs hcontent => ?_, h.drops o hnone⟩
  rw [← not_or]
  intro hend
  exact Reader.not_takes_of_readsNode hshows.1 s (takes_of_covers hclean hleads hs hcontent hlo hhi hend)

/-- Every step can bear what the weave does. -/
theorem Amends.fits (h : Amends w (read text).document) (hclean : (read text).faults = [])
    (hfirst : ∀ context, (read text).document.script? context ≠ none → first.script? context = none)
    (hleads : (Reader.ofText text).Leads r) : r.Fits w first := by
  have hattributes : ∀ o, r.cursor.offset ≤ o → o < r.step.cursor.offset + 2 →
      (∀ a, r.Shows a → a.span.contains o = false) →
      ∀ e ∈ (read text).document.fragment.elements, ∀ a ∈ e.attributes, a.span.contains o = false := by
    intro o hlo hhi hnone e he a ha
    rw [← Bool.not_eq_true]
    intro ho
    rw [hnone a (shows_of_covers hleads he ha hlo hhi ho)] at ho
    cases ho
  have hkept : ∀ s, r.Takes s → first.script? s.context = none := fun s hs =>
    hfirst _ (by rw [script?_of_takes hclean hleads hs]; simp)
  refine ⟨fun o hlo hhi hshows htakes => ?_, fun o hlo hhi hshows => ?_, fun a ha => ?_, fun s hs hcontent => ?_,
    fun s hs hcontext => ?_, fun s hs hcontext => ?_⟩
  · refine h.put o (hattributes o hlo hhi hshows) fun context s hs hcontent => ?_
    rw [← not_or]
    intro hend
    have := htakes s (takes_of_covers hclean hleads hs hcontent hlo hhi hend) hcontent
    rcases hend with hend | hend
    · exact this.1 hend
    · exact this.2 hend
  · exact h.drops o (hattributes o hlo hhi hshows)
  · exact h.edits_of_shows hclean hleads ha
  · exact h.free _ s (script?_of_takes hclean hleads hs) hcontent
  · have := hkept s hs
    rwa [hcontext] at this
  · have := hkept s hs
    rwa [hcontext] at this

/-- The reader has read nothing of a document but scripts, and stands before a text. -/
structure Reader.Before (r : Reader) (z : List Char) : Prop where
  cursor : r.cursor.Sees z
  frames : r.frames = []
  nodes : r.nodes = []
  style : r.style = none

/-- What has become of a document: there is no fault, the elements are the same with what became of their
attributes, and the scripts are those that were there at first, and the same with what they have taken in. -/
structure Amended (w : Weave) (first : Reader) (d : Document) (reading : Reading) : Prop where
  faults : reading.faults = []
  elements : List.Forall₂ (ElementView.Like (Rewoven w)) d.fragment.elements reading.document.fragment.elements
  scripts : ∀ context, Refilled w (first.script? context) (d.script? context) (reading.document.script? context)

/-- Nothing is put behind the text. -/
theorem Amends.put_end (h : Amends w (read text).document) (hclean : (read text).faults = []) :
    w.put (Reader.ofText text).run.cursor.offset = [] := by
  have hlast : ∀ r, (Reader.ofText text).Leads r → r.isDone = false →
      r.step.cursor.offset ≤ (Reader.ofText text).run.cursor.offset := by
    intro r hleads hdone
    rw [run_of_leads_step hleads hdone]
    exact (Reader.leads_to_run r.step).reaches.offset_le
  refine h.put _ (fun e he a ha => ?_) fun context s hs hcontent => ?_
  · obtain ⟨-, r, hleads, hshows⟩ := exists_shows he ha
    have hdone : r.isDone = false := by
      obtain ⟨d, rest, hrest, -⟩ := hshows.2.1
      exact Reader.isDone_of_rest (by simp [hrest])
    have hle := hlast r hleads hdone
    have hstop := hshows.le_step
    exact Span.contains_eq_false_iff.2 (.inr (by omega))
  · obtain ⟨r, hleads, htakes, -⟩ := exists_takes hs
    have hle := hlast r hleads htakes.isDone
    obtain ⟨⟨-, hstart⟩, -, hstop⟩ := htakes.covers (clean_step hclean hleads htakes.isDone) hcontent
    exact ⟨by omega, by omega⟩

/-- A text that goes on as an amended one is read so. -/
theorem Amends.amended (h : Amends w (read text).document) (hclean : (read text).faults = [])
    (hfirst : ∀ context, (read text).document.script? context ≠ none → first.script? context = none)
    (hleads : (Reader.ofText code).Leads first) (hbefore : first.Before (w.text 0 text.toList)) :
    Amended w first (read text).document (read code) := by
  have hstart : (Reader.ofText text).Follows w first first := by
    refine ⟨hbefore.cursor, ⟨?_, ?_⟩, rfl, rfl, fun _ => hbefore.style⟩
    · rw [hbefore.frames]
      exact List.Forall₂.nil
    · rw [hbefore.nodes]
      exact .nil
  have hrun := hstart.run (List.reverse_eq_nil_iff.1 hclean) (fun r hr _ => h.fits hclean hfirst hr) (h.put_end hclean)
  rw [← Reader.run_of_leads hleads] at hrun
  refine ⟨List.reverse_eq_nil_iff.2 hrun.cursor.faults, hrun.alike.nodes.walk, fun context => ?_⟩
  cases context with
  | perModule => exact hrun.moduleScript
  | perInstance => exact hrun.instanceScript

end Restyle.Markup
