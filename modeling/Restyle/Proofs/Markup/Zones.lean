import Restyle.Proofs.Markup.Simulation
import Restyle.Proofs.Markup.Walk

/-! The steps that read the parts of a document. A run comes to its states in one order, and each step covers the
places between the first two bytes of what it reads and the end of it, so no place is covered by two steps. An
attribute is covered by the step that shows it and the content of a script by the step that takes it; they are
told from others by their places. -/

namespace Restyle.Markup

open Text Cursor

namespace Reader

variable {r r₀ r₁ : Reader} {a b : Attribute} {s t : Script} {o : Nat}

/-! ### The places of a step -/

theorem Leads.total (h : r₀.Leads r) (h₁ : r₀.Leads r₁) : r.Leads r₁ ∨ r₁.Leads r :=
  Relation.ReflTransGen.total_of_right_unique (fun _ _ _ hmove hmove₁ => hmove.2.trans hmove₁.2.symm) h h₁

theorem Leads.eq_or_step (h : r.Leads r₁) : r = r₁ ∨ r.step.Leads r₁ := by
  rcases Relation.ReflTransGen.cases_head h with rfl | ⟨r', hmove, h⟩
  · exact .inl rfl
  · rw [hmove.2] at h
    exact .inr h

/-- The place is behind the first two bytes of the text of the next step, and before the end of it. -/
def Covers (r : Reader) (o : Nat) : Prop := r.cursor.offset + 2 ≤ o ∧ o < r.step.cursor.offset

/-- A place that a step covers is not near the text of any other step. -/
theorem Covers.eq (ho : r₁.Covers o) (h : r₀.Leads r) (h₁ : r₀.Leads r₁) (hlo : r.cursor.offset ≤ o)
    (hhi : o < r.step.cursor.offset + 2) : r = r₁ := by
  obtain ⟨hstart, hstop⟩ := ho
  rcases h.total h₁ with hmore | hmore
  · rcases hmore.eq_or_step with rfl | hmore
    · rfl
    · have := hmore.reaches.offset_le
      omega
  · rcases hmore.eq_or_step with rfl | hmore
    · rfl
    · have := hmore.reaches.offset_le
      omega

/-! ### Attributes -/

theorem Shows.le_step (h : r.Shows a) : a.span.stop ≤ r.step.cursor.offset := by
  obtain ⟨hreads, hat, ha⟩ := h
  have hstop := ((inOrder_attributes _).of_mem (List.mem_map_of_mem ha)).2.2
  have htag := (reaches_element (readOpeningTag r.cursor) r.cursor.offset).offset_le
  have hmore := (reaches_readNode_found r).offset_le
  rw [readNode_of_element hat] at hmore
  rw [step_of_readsNode hreads]
  exact Nat.le_trans hstop (Nat.le_trans htag hmore)

theorem Shows.covers (h : r.Shows a) (ho : a.span.contains o = true) : r.Covers o := by
  have hstart := le_attributes h.2.1 a h.2.2
  have hstop := h.le_step
  rw [Span.contains_iff] at ho
  exact ⟨by omega, by omega⟩

/-- An attribute is told from others by any place of it. -/
theorem Shows.eq (ha : r.Shows a) (hb : r₁.Shows b) (h : r₀.Leads r) (h₁ : r₀.Leads r₁)
    (hoa : a.span.contains o = true) (hob : b.span.contains o = true) : r = r₁ ∧ a = b := by
  have hcovers := ha.covers hoa
  have hr : r = r₁ := (hb.covers hob).eq h h₁ (by have := hcovers.1; omega) (by have := hcovers.2; omega)
  subst hr
  refine ⟨rfl, ?_⟩
  exact Span.eq_of_contains (inOrder_attributes _).pairwise ha.2.2 hb.2.2 hoa hob

end Reader

/-- Every attribute of a document was shown by a step. -/
theorem exists_shows {text : String} {e : ElementView} (he : e ∈ (read text).document.fragment.elements)
    {a : Attribute} (ha : a ∈ e.attributes) :
    a.span.start < a.span.stop ∧ ∃ r, (Reader.ofText text).Leads r ∧ r.Shows a := by
  have hsound := (sound_read (P := fun a => ∃ r, (Reader.ofText text).Leads r ∧ r.Shows a) text
    fun r hr hreads hat b hb => ⟨r, hr, hreads, hat, hb⟩).fragment
  have hshown := hsound.shown a (List.mem_flatMap.2 ⟨e, he, ha⟩)
  exact ⟨hshown.nonempty, hshown.holds⟩

/-! ### Scripts -/

/-- The script of a context. -/
def Document.script? (d : Document) : ScriptContext → Option Script
  | .perModule => d.moduleScript
  | .perInstance => d.instanceScript

namespace Reader

variable {r r₀ r₁ : Reader} {a b : Attribute} {s t : Script} {o : Nat}

/-- The script of a context that has been read. -/
def script? (r : Reader) : ScriptContext → Option Script
  | .perModule => r.moduleScript
  | .perInstance => r.instanceScript

theorem Keeps.script? (h : r.Keeps r₁) (context : ScriptContext) : r₁.script? context = r.script? context := by
  cases context with
  | perModule => exact h.moduleScript
  | perInstance => exact h.instanceScript

theorem Takes.step_eq (h : r.Takes s) : r.step = r.readScript := step_of_script h.1 h.2.1

/-- The place of a script without a fault. -/
theorem Takes.covers (h : r.Takes s) (hclean : r.step.cursor.faults = [])
    (hcontent : s.contentSpan.stop < s.span.stop) :
    r.Covers s.contentSpan.start ∧ r.Covers s.contentSpan.stop := by
  obtain ⟨hstart, hle⟩ := h.le_content hclean
  have hstep := h.step.offset_le
  have hstop : s.span.stop ≤ r.step.cursor.offset := by
    obtain ⟨-, -, rfl⟩ := h
    exact hstep
  exact ⟨⟨hstart, by omega⟩, ⟨by omega, by omega⟩⟩

/-- A step that takes a script keeps it if there was none of its context. -/
theorem Takes.script? (h : r.Takes s) (context : ScriptContext) : r.step.script? context =
    (r.script? context).or (if s.context = context then some s else none) := by
  rw [h.step_eq]
  obtain ⟨-, -, rfl⟩ := h
  unfold readScript
  dsimp only
  cases hcontext : ((r.cursor.rawBlock "script".toList).script r.cursor.offset).context <;>
    cases context <;> cases hmodule : r.moduleScript <;> cases hinstance : r.instanceScript <;>
      simp [Reader.script?, hmodule, hinstance]

/-- Other steps leave the scripts as they are. -/
theorem script?_step (h : ∀ s, ¬ r.Takes s) (context : ScriptContext) :
    r.step.script? context = r.script? context := by
  cases hreads : r.readsNode with
  | true =>
    rw [step_of_readsNode hreads]
    exact (keeps_readNode r).script? context
  | false =>
    cases hframes : r.frames with
    | cons f frames =>
      have hends : r.cursor.endsFragment = true := by
        rw [readsNode, hframes] at hreads
        simpa using hreads
      have hstep : r.step = r.leave f frames := by
        rw [Reader.step, hframes]
        exact if_pos hends
      rw [hstep]
      exact (keeps_leave r f frames).script? context
    | nil =>
      have hstep : r.step = r.readTop := by rw [Reader.step, hframes]
      rw [hstep]
      cases takesTop hframes hreads with
      | script htag _ => exact absurd ⟨hframes, htag, rfl⟩ (h _)
      | style _ htop =>
        rw [htop, readStyle]
        split <;> cases context <;> rfl
      | closingTag _ htop =>
        rw [htop]
        cases context <;> rfl
      | blockTag htop =>
        rw [htop]
        cases context <;> rfl

/-- A script that has been read stays. -/
theorem Leads.script? {context : ScriptContext} (h : r.Leads r₁) (hs : r.script? context = some s) :
    r₁.script? context = some s := by
  induction h with
  | refl => exact hs
  | @tail r₁ r₂ _ hmove ih =>
    rw [hmove.2]
    by_cases htakes : ∃ s, r₁.Takes s
    · obtain ⟨s, htakes⟩ := htakes
      rw [htakes.script?, ih]
      rfl
    · rw [script?_step (not_exists.1 htakes), ih]

/-- Every script that has been read was taken by a step. -/
theorem Leads.exists_takes {context : ScriptContext} (h : r.Leads r₁) (hnone : r.script? context = none)
    (hs : r₁.script? context = some s) : ∃ r', r.Leads r' ∧ r'.isDone = false ∧ r'.Takes s ∧ s.context = context := by
  induction h with
  | refl =>
    rw [hnone] at hs
    cases hs
  | @tail r₁ r₂ hleads hmove ih =>
    rw [hmove.2] at hs
    by_cases htakes : ∃ s, r₁.Takes s
    · obtain ⟨t, htakes⟩ := htakes
      rw [htakes.script?] at hs
      cases hold : r₁.script? context with
      | some u =>
        rw [hold] at hs
        exact ih (hold.trans hs)
      | none =>
        rw [hold, Option.none_or] at hs
        split at hs
        · next hcontext =>
          cases hs
          exact ⟨r₁, hleads, hmove.1, htakes, hcontext⟩
        · cases hs
    · rw [script?_step (not_exists.1 htakes)] at hs
      exact ih hs

theorem Takes.isDone (h : r.Takes s) : r.isDone = false := by
  obtain ⟨rest, hrest, -⟩ := rest_of_atTag h.2.1
  exact isDone_of_rest (by simp [hrest])

end Reader

/-- Every script of a document was taken by a step. -/
theorem exists_takes {text : String} {context : ScriptContext} {s : Script}
    (h : (read text).document.script? context = some s) :
    ∃ r, (Reader.ofText text).Leads r ∧ r.Takes s ∧ s.context = context := by
  have hrun : (Reader.ofText text).run.script? context = some s := by
    cases context <;> exact h
  have hnone : (Reader.ofText text).script? context = none := by
    cases context <;> rfl
  obtain ⟨r, hleads, -, htakes, hcontext⟩ := (Reader.leads_to_run _).exists_takes hnone hrun
  exact ⟨r, hleads, htakes, hcontext⟩

section Clean

variable {text : String} {r : Reader} {s : Script}

theorem run_of_leads_step (hleads : (Reader.ofText text).Leads r) (hdone : r.isDone = false) :
    (Reader.ofText text).run = r.step.run := Reader.run_of_leads (hleads.trans (.of_step hdone (.refl _)))

/-- If a document has no fault, none of the steps finds one. -/
theorem clean_step (hclean : (read text).faults = []) (hleads : (Reader.ofText text).Leads r)
    (hdone : r.isDone = false) : r.step.cursor.faults = [] := by
  refine (Reader.leads_to_run r.step).reaches.clean ?_
  rw [← run_of_leads_step hleads hdone]
  exact List.reverse_eq_nil_iff.1 hclean

/-- Without a fault, a script that a step takes is in the document. -/
theorem script?_of_takes (hclean : (read text).faults = []) (hleads : (Reader.ofText text).Leads r)
    (h : r.Takes s) : (read text).document.script? s.context = some s := by
  have hclean := clean_step hclean hleads h.isDone
  have hnone : r.script? s.context = none := by
    rw [h.step_eq] at hclean
    obtain ⟨hmodule, hinstance⟩ := Reader.none_of_readScript hclean
    obtain ⟨-, -, rfl⟩ := h
    cases hcontext : ((r.cursor.rawBlock "script".toList).script r.cursor.offset).context with
    | perModule => exact hmodule hcontext
    | perInstance => exact hinstance hcontext
  have hstep : r.step.script? s.context = some s := by rw [h.script?, hnone, if_pos rfl, Option.none_or]
  have hlast := (Reader.leads_to_run r.step).script? hstep
  rw [← run_of_leads_step hleads h.isDone] at hlast
  cases hcontext : s.context <;> rw [hcontext] at hlast <;> exact hlast

end Clean

end Restyle.Markup
