import Restyle.Expansion.Session
import Restyle.Proofs.Expansion.Changes
import Restyle.Proofs.Splice.Runs

/-! The edits of an expansion. First all changes of attributes are made, then the scripts get their
texts; the changes lie apart and none of them touches a script, so no edit is ever refused. -/

namespace Restyle

open Markup Remarking

/-! ### The edits for scripts -/

/-- The edits that bring in the runtime and the hoisted definitions. -/
def scriptSplices (o : Options) (f : SourceFile) (d : Document) (ps : List ElementPlan) : List Splice :=
  (if ps.any ElementPlan.expands then [importSplice o d] else [])
    ++ if (ps.filterMap (ElementPlan.hoisted? f)).isEmpty then []
      else [hoistSplice o d (ps.filterMap (ElementPlan.hoisted? f))]

/-- The offsets at which a document takes in texts for its scripts. -/
theorem adds_scriptSplices {o : Options} {f : SourceFile} {d : Document} {ps : List ElementPlan}
    {b : SpliceBuffer} (hmodule : ∀ s ∈ d.moduleScript, b.Insertable s.contentSpan.stop)
    (hinstance : ∀ s ∈ d.instanceScript, b.Insertable s.contentSpan.start) :
    ∀ s ∈ scriptSplices o f d ps, b.Adds s := by
  have himport : b.Adds (importSplice o d) := by
    unfold importSplice
    split
    · next script hscript => exact .insert _ _ (hinstance script hscript)
    · exact .prepend _
  have hhoist : ∀ definitions, b.Adds (hoistSplice o d definitions) := by
    intro definitions
    unfold hoistSplice
    dsimp only
    split
    · next script hscript => exact .insert _ _ (hmodule script hscript)
    · exact .prepend _
  intro s hs
  unfold scriptSplices at hs
  rcases List.mem_append.1 hs with hs | hs
  · split at hs
    · rw [List.mem_singleton.1 hs]
      exact himport
    · cases hs
  · split at hs
    · cases hs
    · rw [List.mem_singleton.1 hs]
      exact hhoist _

/-- A span inside a node of a document and an offset at an end of the content of a script. -/
theorem outside_of_inside {cs : List Char} {P : Attribute → Prop} {d : Document} (hd : d.Sound cs P)
    {raw : Span × Span} (hraw : raw ∈ d.raws) {s : Span}
    (hs : ∃ n ∈ d.fragment.nodes, n.span.Encloses s) {offset : Nat}
    (hoffset : raw.1.start ≤ offset ∧ offset ≤ raw.1.stop) : ¬ (s.start < offset ∧ offset < s.stop) := by
  obtain ⟨n, hn, hin⟩ := hs
  have hapart := hd.raws_apart raw hraw n hn
  simp only [Span.Apart, Span.Encloses] at hapart hin
  omega

/-! ### The edits of a document -/

theorem makes_splices (p : ElementPlan) (call : String) :
    List.Forall₂ Splice.Makes (p.removals.map .remove ++ p.anchorSplices call) (p.changes call) := by
  have remove : ∀ spans : List Span,
      List.Forall₂ Splice.Makes (spans.map .remove) (spans.map (·, "")) := by
    intro spans
    induction spans with
    | nil => exact .nil
    | cons s spans ih => exact .cons (.remove s) ih
  refine List.rel_append (remove p.removals) ?_
  unfold ElementPlan.anchorSplices
  cases p.attrs with
  | none =>
    cases p.create with
    | none => exact .nil
    | some create => exact .cons (.update ..) .nil
  | some attrs =>
    cases p.create with
    | none => exact .cons (.update ..) .nil
    | some create => exact .cons (.update ..) (.cons (.remove _) .nil)

section Reading

variable [Script.ExpressionReader]

/-- The edits of some plans for a document. -/
def allSplices (o : Options) (f : SourceFile) (d : Document) (ps : List ElementPlan) : List Splice :=
  ps.flatMap (fun p => p.removals.map .remove ++ p.anchorSplices (p.callText o f))
    ++ scriptSplices o f d ps

theorem gives_mapM_splices {o : Options} {f : SourceFile} {ps : List ElementPlan} {elements : List (List Splice)}
    (h : (ps.mapM (ElementPlan.splices o f)).Gives elements) :
    elements = ps.map (fun p => p.removals.map .remove ++ p.anchorSplices (p.callText o f))
      ∧ ∀ p ∈ ps, ∀ attrs ∈ p.attrs, attrs.value.Sliced f := by
  have hgives := h.of_mapM
  clear h
  induction hgives with
  | nil => exact ⟨rfl, by simp⟩
  | cons hp _ ih =>
    obtain ⟨rfl, hsliced⟩ := ElementPlan.gives_splices hp
    rw [ih.1]
    exact ⟨rfl, List.forall_mem_cons.2 ⟨hsliced, ih.2⟩⟩

theorem gives_documentSplices {o : Options} {f : SourceFile} {d : Document} {ps : List ElementPlan}
    {edits : List Splice} (h : (documentSplices o f d ps).Gives edits) :
    edits = allSplices o f d ps ∧ ∀ p ∈ ps, ∀ attrs ∈ p.attrs, attrs.value.Sliced f := by
  obtain ⟨elements, helements, h⟩ := h.of_bind
  obtain ⟨rfl, hsliced⟩ := gives_mapM_splices helements
  refine ⟨?_, hsliced⟩
  rw [h.of_pure, allSplices, scriptSplices, List.flatMap_def, List.append_assoc]

/-- Only the values for the runtime are looked at. -/
theorem throws_documentSplices {o : Options} {f : SourceFile} {d : Document} {ps : List ElementPlan}
    {error : ExpansionError} (h : (documentSplices o f d ps).Throws error) :
    ∃ p ∈ ps, ∃ attrs ∈ p.attrs, f.Refuses attrs.name attrs.value error ∨ attrs.value.Traps f error := by
  rcases h.of_bind with h | ⟨_, -, h⟩
  · obtain ⟨p, hp, h⟩ := h.of_mapM
    rcases h.of_bind with h | ⟨_, -, h⟩
    · exact ⟨p, hp, ElementPlan.throws_givenArguments h⟩
    · exact (not_throws_pure h).elim
  · exact (not_throws_pure h).elim

/-- The edits of plans make their changes, one by one. -/
theorem makes_flatMap (o : Options) (f : SourceFile) (ps : List ElementPlan) :
    List.Forall₂ Splice.Makes
      (ps.flatMap fun p => p.removals.map .remove ++ p.anchorSplices (p.callText o f))
      (ps.flatMap fun p => p.changes (p.callText o f)) := by
  induction ps with
  | nil => exact .nil
  | cons p ps ih => exact List.rel_append (makes_splices p _) ih

/-! ### No edit is refused -/

/-- The plans for the elements of a file. -/
def SourceFile.plans (o : Options) (f : SourceFile) : List ElementPlan :=
  ((read f.text).document.fragment.elements.map (.of o)).filter ElementPlan.edits

/-- All edits of a file are taken. -/
theorem spliced_allSplices (o : Options) (f : SourceFile) :
    ∃ x, f.spliced (allSplices o f (read f.text).document (f.plans o)) = .ok x := by
  have hd := sound_read_cuts f.text
  have hplaced := placed_changes o f
  have hapart := pairwise_changes hd.fragment o f
  have hmakes := makes_flatMap o f (f.plans o)
  rw [SourceFile.plans, flatMap_changes_filter] at hmakes
  have hempty : ∀ span, (SpliceBuffer.ofSource f.text).Free span := by
    intro span o r hr
    cases hr
  obtain ⟨b, hrun, hb, hsource, hfree⟩ := SpliceBuffer.foldlM_makes hmakes
    (SpliceBuffer.sound_ofSource f.text) rfl
    (fun c hc => ⟨(hplaced c hc).1, (hplaced c hc).2.1⟩) hapart fun c _ => hempty c.1
  -- an end of the content of a script is not inside a changed span, so it can take a text
  have hinsertable : ∀ raw ∈ (read f.text).document.raws, ∀ offset,
      Text.isBoundary f.text.toList offset = true → raw.1.start ≤ offset ∧ offset ≤ raw.1.stop →
      b.Insertable offset := by
    intro raw hraw offset hcut hoffset
    have hpoint := hfree (.point offset) (hempty _) fun c hc => by
      have := outside_of_inside hd hraw (hplaced c hc).2.2 hoffset
      simp only [Span.Apart, Span.point]
      omega
    refine ⟨by rw [SpliceBuffer.CutsSource, hsource]; exact hcut, fun o r hr => ?_⟩
    have := hpoint o r hr
    simp only [Span.Apart, Span.point] at this
    omega
  have hscript : ∀ s ∈ (read f.text).document.moduleScript.toList
      ++ (read f.text).document.instanceScript.toList,
      b.Insertable s.contentSpan.start ∧ b.Insertable s.contentSpan.stop := by
    intro s hs
    have hraw : (s.span, s.contentSpan) ∈ (read f.text).document.raws :=
      List.mem_append_left _ (List.mem_map_of_mem (f := fun s : Script => (s.span, s.contentSpan)) hs)
    have hsound := hd.raws_sound _ hraw
    have hle := hsound.content_cuts.le
    obtain ⟨hlo, hhi⟩ := hsound.inside
    exact ⟨hinsertable _ hraw _ hsound.content_cuts.start ⟨hlo, Nat.le_trans hle hhi⟩,
      hinsertable _ hraw _ hsound.content_cuts.stop ⟨Nat.le_trans hlo hle, hhi⟩⟩
  have hadds : ∀ s ∈ scriptSplices o f (read f.text).document (f.plans o), b.Adds s :=
    adds_scriptSplices (fun s hs => (hscript s (List.mem_append_left _ (Option.mem_toList.2 hs))).2)
    (fun s hs => (hscript s (List.mem_append_right _ (Option.mem_toList.2 hs))).1)
  obtain ⟨b', hrun'⟩ := SpliceBuffer.foldlM_adds hb hadds
  refine ⟨⟨b'.code, b'.map⟩, ?_⟩
  rw [SourceFile.spliced, allSplices, List.foldlM_append, SourceFile.plans, hrun]
  show (List.foldlM _ b _ >>= _) = _
  rw [← SourceFile.plans, hrun']
  rfl

/-! ### Expansions -/

/-- What an expansion can give: nothing for a file that has none of the names in it or elements with which nothing
is to be done, or else the file after its edits, where every item of an array has a text. -/
theorem cases_of_gives {o : Options} {f : SourceFile} {result : Option Expanded} (h : (expansion o f).Gives result) :
    (result = none ∧ (o.mentionedIn f.text = false ∨ f.plans o = []))
      ∨ ∃ x, result = some x ∧ (read f.text).faults = []
        ∧ f.spliced (allSplices o f (read f.text).document (f.plans o)) = .ok x
        ∧ ∀ p ∈ f.plans o, ∀ attrs ∈ p.attrs, attrs.value.Sliced f := by
  unfold expansion at h
  split at h
  · next hmention =>
    obtain ⟨-, -, h⟩ := h.of_bind
    exact .inl ⟨h.of_pure, .inl (by simpa using hmention)⟩
  · dsimp only at h
    split at h
    · exact (not_gives_throw h).elim
    · next hfaults =>
      obtain ⟨ps, hps, h⟩ := h.of_bind
      have hps : ps = f.plans o := ElementPlan.gives_ofElements hps
      split at h
      · next hempty =>
        obtain ⟨-, -, h⟩ := h.of_bind
        exact .inl ⟨h.of_pure, .inr (hps ▸ List.isEmpty_iff.1 hempty)⟩
      · obtain ⟨edits, hedits, h⟩ := h.of_bind
        obtain ⟨hedits, hsliced⟩ := gives_documentSplices hedits
        rw [hps] at hedits hsliced
        split at h
        · next x hspliced => exact .inr ⟨x, h.of_pure, hfaults, hedits ▸ hspliced, hsliced⟩
        · exact (not_gives_throw h).elim

/-- A file that was expanded is the file after its edits. -/
theorem gives_expansion {o : Options} {f : SourceFile} {x : Expanded}
    (h : (expansion o f).Gives (some x)) :
    (read f.text).faults = [] ∧ f.spliced (allSplices o f (read f.text).document (f.plans o)) = .ok x
      ∧ ∀ p ∈ f.plans o, ∀ attrs ∈ p.attrs, attrs.value.Sliced f := by
  rcases cases_of_gives h with ⟨hnone, -⟩ | ⟨y, hsome, hexpanded⟩
  · cases hnone
  · cases hsome
    exact hexpanded

/-- A file without faults in which no attribute has a meaning is left as it is. -/
theorem expand_of_conventions {o : Options} {f : SourceFile} (hclean : (read f.text).faults = [])
    (hnone : ∀ e ∈ (read f.text).document.fragment.elements, o.conventions e.attributes = []) (j : Journal) :
    (j.expand o f).1 = .ok none := by
  show (expansion o f).outcome.1 = .ok none
  unfold expansion
  split
  · rfl
  · simp only [hclean, ElementPlan.ofElements_of_conventions hnone, pure_bind]
    rfl

/-- Why an expansion fails: its markup is faulty, a value that is looked at is no expression, the program stops at
an item of an array, or an edit is refused. -/
inductive Fails (o : Options) (f : SourceFile) : ExpansionError → Prop where
  | markup {first : Markup.Fault} {others : List Markup.Fault} : (read f.text).faults = first :: others →
    Fails o f (.markup f.shownName (f.location first.span.start) first.kind others.length)
  | position {e : ElementView} {name : String} {span : Span} {value : Expression} {error : ExpansionError} :
    e ∈ (read f.text).document.fragment.elements → .position name span (some value) ∈ o.conventions e.attributes →
      f.Refuses name value error → Fails o f error
  | attrs {p : ElementPlan} {attrs : Anchor} {error : ExpansionError} : p ∈ f.plans o → p.attrs = some attrs →
    f.Refuses attrs.name attrs.value error → Fails o f error
  | trap {p : ElementPlan} {attrs : Anchor} {error : ExpansionError} : p ∈ f.plans o → p.attrs = some attrs →
    attrs.value.Traps f error → Fails o f error
  | splice {error : SpliceError} : f.spliced (allSplices o f (read f.text).document (f.plans o)) = .error error →
    Fails o f (.splice error)

theorem fails_of_throws {o : Options} {f : SourceFile} {error : ExpansionError} (h : (expansion o f).Throws error) :
    Fails o f error := by
  unfold expansion at h
  split at h
  · rcases h.of_bind with h | ⟨_, -, h⟩
    · exact (not_throws_remark h).elim
    · exact (not_throws_pure h).elim
  · dsimp only at h
    split at h
    · next hfaults =>
      rw [h.of_throw]
      exact .markup hfaults
    · rcases h.of_bind with h | ⟨ps, hps, h⟩
      · obtain ⟨e, he, name, span, value, hmem, hrefuses⟩ := ElementPlan.throws_ofElements h
        exact .position he hmem hrefuses
      · have hps : ps = f.plans o := ElementPlan.gives_ofElements hps
        split at h
        · rcases h.of_bind with h | ⟨_, -, h⟩
          · exact (not_throws_remark h).elim
          · exact (not_throws_pure h).elim
        · rcases h.of_bind with h | ⟨edits, hedits, h⟩
          · obtain ⟨p, hp, attrs, hattrs, hrefuses | htraps⟩ := throws_documentSplices h
            · exact .attrs (hps ▸ hp) hattrs hrefuses
            · exact .trap (hps ▸ hp) hattrs htraps
          · obtain ⟨hedits, -⟩ := gives_documentSplices hedits
            rw [hps] at hedits
            split at h
            · exact (not_throws_pure h).elim
            · next hspliced =>
              rw [h.of_throw]
              exact .splice (hedits ▸ hspliced)

/-- An expansion fails by an edit only if the edits of the file are refused. -/
theorem throws_expansion {o : Options} {f : SourceFile} {e : SpliceError}
    (h : (expansion o f).Throws (.splice e)) :
    f.spliced (allSplices o f (read f.text).document (f.plans o)) = .error e := by
  cases fails_of_throws h with
  | position _ _ hrefuses => cases hrefuses
  | attrs _ _ hrefuses => cases hrefuses
  | trap _ _ htraps => cases htraps
  | splice hspliced => exact hspliced

/-- An expansion never fails because of an edit: whatever the source, the options, the names in them and
the session, every edit that it issues is taken. -/
theorem expand_ne_splice (j : Journal) (o : Options) (f : SourceFile) (e : SpliceError) :
    (j.expand o f).1 ≠ .error (.splice e) := by
  intro h
  have hrefused := throws_expansion (throws_of_outcome h)
  obtain ⟨x, hx⟩ := spliced_allSplices o f
  rw [hx] at hrefused
  cases hrefused

end Reading

/-- A file of which something is known after its expansion has one. -/
theorem exists_expanded {α : Type} {result : Except ExpansionError (Option Expanded)} {g : Expanded → α} {y : α}
    (h : result.toOption.join.map g = some y) : ∃ x, result = .ok (some x) ∧ g x = y := by
  obtain ⟨x, hx, hy⟩ := Option.map_eq_some_iff.1 h
  cases result with
  | error e => cases hx
  | ok r => exact ⟨x, congrArg Except.ok hx, hy⟩

end Restyle
