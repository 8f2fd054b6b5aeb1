import Mathlib.Data.List.Perm.Subperm
import Mathlib.Data.List.ReduceOption
import Restyle.Proofs.Expansion.Plan
import Restyle.Proofs.Markup.Walk

/-! The spans that plans change. Each is the span of one attribute, and no attribute is changed twice, so
what is known of the attributes of a document is known of its changes. -/

namespace Restyle

open Markup Remarking

/-! ### Changes of a plan -/

namespace ElementPlan

/-- The spans that the plan changes, with their new texts. The call replaces the value for the runtime,
or the definition if there is none; the other attributes are dropped. -/
def changes (p : ElementPlan) (call : String) : List (Span × String) :=
  p.removals.map (·, "") ++
    match p.attrs, p.create with
    | some attrs, create => (attrs.span, call) :: create.toList.map (·.span, "")
    | none, some create => [(create.span, call)]
    | none, none => []

theorem changes_of_edits {p : ElementPlan} (h : p.edits = false) (call : String) :
    p.changes call = [] ∧ p.attrs = none ∧ p.create = none := by
  simp only [edits, expands, Bool.or_eq_false_iff, Option.isSome_eq_false_iff, Option.isNone_iff_eq_none,
    Bool.not_eq_false', List.isEmpty_iff] at h
  obtain ⟨⟨hattrs, hcreate⟩, hremovals⟩ := h
  exact ⟨by simp [changes, hattrs, hcreate, hremovals], hattrs, hcreate⟩

theorem map_fst_changes (p : ElementPlan) (call : String) :
    (p.changes call).map Prod.fst =
      p.removals ++ (p.attrs.toList.map Anchor.span ++ p.create.toList.map Anchor.span) := by
  cases hattrs : p.attrs <;> cases hcreate : p.create <;>
    simp [changes, hattrs, hcreate, Function.comp_def]

end ElementPlan

/-! ### Changed attributes -/

def Convention.span : Convention → Span
  | .attrs _ span _ | .create _ span _ | .position _ span _ => span

theorem Options.span_convention? {o : Options} {a : Attribute} {c : Convention}
    (h : o.convention? a = some c) : c.span = a.span := by
  unfold convention? at h
  split at h
  · split at h
    · obtain ⟨e, -, rfl⟩ := Option.map_eq_some_iff.1 h
      rfl
    · split at h
      · obtain ⟨e, -, rfl⟩ := Option.map_eq_some_iff.1 h
        rfl
      · split at h <;> cases h
        rfl
  · split at h <;> cases h
    rfl
  · split at h <;> cases h
    rfl
  · cases h
  · cases h

/-- The spans of the meanings are those of the attributes that have one. -/
theorem Options.map_span_conventions (o : Options) (attrs : List Attribute) :
    (o.conventions attrs).map Convention.span =
      (attrs.filter fun a => (o.convention? a).isSome).map Attribute.span := by
  induction attrs with
  | nil => rfl
  | cons a attrs ih =>
    unfold conventions at ih ⊢
    cases h : o.convention? a with
    | none => rw [List.filterMap_cons_none h, ih, List.filter_cons_of_neg (by simp [h])]
    | some c =>
      rw [List.filterMap_cons_some h, List.map_cons, ih, span_convention? h, List.filter_cons_of_pos (by simp [h]),
        List.map_cons]

theorem Options.span_conventions (o : Options) (attrs : List Attribute) :
    ((o.conventions attrs).map Convention.span).Sublist (attrs.map Attribute.span) := by
  rw [o.map_span_conventions attrs]
  exact List.filter_sublist.map _

section Reading

variable [Script.ExpressionReader]

/-- An attribute has one meaning, so the changes of a plan are changes of different attributes. -/
theorem subperm_changes_planOf (tag : String) (meanings : List Convention) (call : String) :
    (((planOf tag meanings).changes call).map Prod.fst).Subperm (meanings.map Convention.span) := by
  have hall : (meanings.filterMap Convention.dropped?
      ++ ((meanings.filterMap Convention.attrs?).map Anchor.span
        ++ (meanings.filterMap Convention.create?).map Anchor.span)).Perm
      (meanings.map Convention.span) := by
    induction meanings with
    | nil => exact List.Perm.refl _
    | cons c meanings ih =>
      cases c with
      | attrs name span value =>
        exact List.perm_middle.trans (ih.cons span)
      | create name span value =>
        rw [← List.append_assoc] at ih ⊢
        exact List.perm_middle.trans (ih.cons span)
      | position name span value => exact ih.cons span
  have hlast : ∀ anchors : List Anchor,
      (anchors.getLast?.toList.map Anchor.span).Sublist (anchors.map Anchor.span) := by
    intro anchors
    refine List.Sublist.map _ ?_
    cases h : anchors.getLast? with
    | none => exact List.nil_sublist _
    | some a => exact List.singleton_sublist.2 (List.mem_of_getLast? h)
  rw [ElementPlan.map_fst_changes]
  exact (((hlast _).append (hlast _)).append_left _).subperm.trans hall.subperm

/-! ### Arguments -/

namespace Markup.Expression

variable {f : SourceFile} {value : Expression} {items : List (Option Span)}

/-- The arguments that a value for the runtime gives: the texts of the items of an array without the holes, or
the value itself. -/
def arguments (f : SourceFile) (value : Expression) : List String :=
  match Script.Shape.ofText? value.text with
  | .ok (.array items) => items.reduceOption.filterMap fun item => (item.shifted value.span.start).slice? f.text
  | _ => [value.text]

/-- No item of an array is without a text. -/
def Sliced (f : SourceFile) (value : Expression) : Prop :=
  ∀ items, Script.Shape.ofText? value.text = .ok (.array items) →
    items.reduceOption.map (fun item => (item.shifted value.span.start).slice? f.text) =
      (value.arguments f).map some

/-- The program stops at an item of an array that has no text. -/
inductive Traps (f : SourceFile) (value : Expression) : ExpansionError → Prop where
  | mk {items : List (Option Span)} {item : Span} : Script.Shape.ofText? value.text = .ok (.array items) →
    some item ∈ items → (item.shifted value.span.start).slice? f.text = none →
    Traps f value (.trap (item.shifted value.span.start))

theorem arguments_of_array (h : Script.Shape.ofText? value.text = .ok (.array items)) :
    value.arguments f = items.reduceOption.filterMap fun item => (item.shifted value.span.start).slice? f.text := by
  rw [arguments, h]

theorem arguments_of_ne (h : ∀ items, Script.Shape.ofText? value.text ≠ .ok (.array items)) :
    value.arguments f = [value.text] := by
  unfold arguments
  split
  · next items hitems => exact absurd hitems (h items)
  · rfl

/-- Texts that the items of an array have one by one are its arguments. -/
theorem sliced_of_map {texts : List String} (h : Script.Shape.ofText? value.text = .ok (.array items))
    (htexts : items.reduceOption.map (fun item => (item.shifted value.span.start).slice? f.text) = texts.map some) :
    texts = value.arguments f ∧ value.Sliced f := by
  have hargs : texts = value.arguments f := by
    have hjoined := congrArg (List.filterMap id) htexts
    rw [List.filterMap_map, List.filterMap_map, Function.id_comp, Function.id_comp, List.filterMap_some] at hjoined
    rw [arguments_of_array h, hjoined]
  refine ⟨hargs, fun items' hitems => ?_⟩
  rw [h] at hitems
  cases hitems
  rw [← hargs, htexts]

end Markup.Expression

namespace ElementPlan

/-- The arguments that the attributes give, told without the remarks. -/
def arguments (f : SourceFile) (p : ElementPlan) : List String :=
  (p.attrs.map (·.value.arguments f)).getD []

/-- The call that the element gets. -/
def callText (o : Options) (f : SourceFile) (p : ElementPlan) : String :=
  o.call (p.placeReference o f (p.arguments f))

theorem gives_givenArguments {f : SourceFile} {p : ElementPlan} {args : List String}
    (h : (p.givenArguments f).Gives args) : args = p.arguments f ∧ ∀ attrs ∈ p.attrs, attrs.value.Sliced f := by
  unfold givenArguments at h
  unfold arguments
  cases hattrs : p.attrs with
  | none =>
    rw [hattrs] at h
    exact ⟨h.of_pure, by simp⟩
  | some attrs =>
    rw [hattrs] at h
    obtain ⟨shape, hshape, h⟩ := h.of_bind
    have hshape := SourceFile.gives_shape hshape
    simp only [Option.map_some, Option.getD_some, Option.mem_def, Option.some.injEq, forall_eq']
    have other (hother : ∀ items, shape ≠ .array items) (hargs : args = [attrs.value.text]) :
        args = attrs.value.arguments f ∧ attrs.value.Sliced f := by
      have hne : ∀ items, Script.Shape.ofText? attrs.value.text ≠ .ok (.array items) := fun items hitems =>
        hother items (Except.ok.inj (hshape.symm.trans hitems))
      exact ⟨hargs.trans (Expression.arguments_of_ne hne).symm, fun items hitems => absurd hitems (hne items)⟩
    cases shape with
    | array items => exact Expression.sliced_of_map hshape (SourceFile.gives_mapM_textIn h)
    | identifier name => exact other nofun h.of_pure
    | number value => exact other nofun h.of_pure
    | other => exact other nofun h.of_pure

theorem throws_givenArguments {f : SourceFile} {p : ElementPlan} {error : ExpansionError}
    (h : (p.givenArguments f).Throws error) :
    ∃ attrs ∈ p.attrs, f.Refuses attrs.name attrs.value error ∨ attrs.value.Traps f error := by
  unfold givenArguments at h
  split at h
  · exact (not_throws_pure h).elim
  · next attrs hattrs =>
    refine ⟨attrs, hattrs, ?_⟩
    rcases h.of_bind with h | ⟨shape, hshape, h⟩
    · exact .inl (SourceFile.throws_shape h)
    · cases shape with
      | array items =>
        obtain ⟨item, hitem, h⟩ := h.of_mapM
        obtain ⟨hslice, rfl⟩ := SourceFile.throws_textIn h
        exact .inr (.mk (SourceFile.gives_shape hshape) (List.reduceOption_mem_iff.1 hitem) hslice)
      | _ => exact (not_throws_pure h).elim

/-- The edits of an element make the changes of its plan. -/
theorem gives_splices {o : Options} {f : SourceFile} {p : ElementPlan} {edits : List Splice}
    (h : (p.splices o f).Gives edits) :
    edits = p.removals.map .remove ++ p.anchorSplices (p.callText o f) ∧ ∀ attrs ∈ p.attrs, attrs.value.Sliced f := by
  obtain ⟨args, hargs, h⟩ := h.of_bind
  obtain ⟨rfl, hsliced⟩ := gives_givenArguments hargs
  exact ⟨h.of_pure, hsliced⟩

end ElementPlan

/-! ### Changes of a document -/

/-- What the plans for elements change. -/
def changes (o : Options) (f : SourceFile) (es : List ElementView) : List (Span × String) :=
  (es.map (ElementPlan.of o)).flatMap fun p => p.changes (p.callText o f)

theorem subperm_changes (o : Options) (f : SourceFile) (es : List ElementView) :
    ((changes o f es).map Prod.fst).Subperm ((allAttributes es).map Attribute.span) := by
  induction es with
  | nil => exact List.Subperm.refl _
  | cons e es ih =>
    have hfirst := (subperm_changes_planOf e.name (o.conventions e.attributes)
      ((ElementPlan.of o e).callText o f)).trans (o.span_conventions e.attributes).subperm
    have happend : (changes o f (e :: es)).map Prod.fst =
        ((ElementPlan.of o e).changes ((ElementPlan.of o e).callText o f)).map Prod.fst
          ++ (changes o f es).map Prod.fst := by
      simp [changes]
    have hattributes : (allAttributes (e :: es)).map Attribute.span =
        e.attributes.map Attribute.span ++ (allAttributes es).map Attribute.span := by
      simp [allAttributes]
    rw [happend, hattributes]
    exact List.Subperm.append hfirst ih

/-- Plans that change nothing can be left out. -/
theorem flatMap_changes_filter (o : Options) (f : SourceFile) (ps : List ElementPlan) :
    (ps.filter ElementPlan.edits).flatMap (fun p => p.changes (p.callText o f)) =
      ps.flatMap fun p => p.changes (p.callText o f) := by
  induction ps with
  | nil => rfl
  | cons p ps ih =>
    cases h : p.edits with
    | true => rw [List.filter_cons_of_pos h, List.flatMap_cons, List.flatMap_cons, ih]
    | false =>
      have hnone := (ElementPlan.changes_of_edits h (p.callText o f)).1
      rw [List.filter_cons_of_neg (by simp [h]), List.flatMap_cons, hnone, ih]
      rfl

/-- Every change is one of an attribute, so it has the property of all attributes, is not empty and is
inside a node. -/
theorem shown_changes {cs : List Char} {P : Attribute → Prop} {content : Fragment}
    (h : content.Sound cs P) (o : Options) (f : SourceFile) :
    ∀ c ∈ changes o f content.elements, ∃ a, a.span = c.1 ∧ Shown P content.nodes a := by
  intro c hc
  have hmem := (subperm_changes o f content.elements).subset (List.mem_map_of_mem hc)
  obtain ⟨a, ha, hspan⟩ := List.mem_map.1 hmem
  exact ⟨a, hspan, h.shown a ha⟩

/-- No two changes share a byte. -/
theorem pairwise_changes {cs : List Char} {P : Attribute → Prop} {content : Fragment}
    (h : content.Sound cs P) (o : Options) (f : SourceFile) :
    ((changes o f content.elements).map Prod.fst).Pairwise Span.Apart := by
  obtain ⟨spans, hperm, hsublist⟩ := subperm_changes o f content.elements
  exact (hperm.pairwise_iff fun h => Span.Apart.symm h).1 (h.attributes_apart.sublist hsublist)

/-- The changes of a document that was read lie well in its text: each span ends on boundaries, is not
empty, and is inside a node. -/
theorem placed_changes (o : Options) (f : SourceFile) :
    ∀ c ∈ changes o f (read f.text).document.fragment.elements, c.1.Cuts f.text.toList
      ∧ c.1.start < c.1.stop ∧ ∃ n ∈ (read f.text).document.fragment.nodes, n.span.Encloses c.1 := by
  intro c hc
  obtain ⟨a, hspan, ha⟩ := shown_changes (sound_read_cuts f.text).fragment o f c hc
  rw [← hspan]
  exact ⟨ha.holds, ha.nonempty, ha.inside⟩

end Reading

end Restyle
