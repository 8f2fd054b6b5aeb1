import Mathlib.Data.List.Basic
import Restyle.Proofs.Expansion.Remarking

/-! Plans without their remarks. What is to be done with an element follows from the meanings of its
attributes: the last value for the runtime, the last definition and the last position count, and all
positions are dropped. -/

namespace Restyle

open Markup Remarking

/-! ### Where meanings come from -/

/-- The word that tells what an attribute means: its name, or the text that is spread or is its own name. -/
def Markup.Attribute.word? : Attribute → Option String
  | .normal _ name _ => some name
  | .spread _ value | .shorthand _ value => some value.text
  | .directive .. | .attach .. => none

theorem Options.mem_attributeNames_of_isAttrsName {o : Options} {name : String} (h : o.isAttrsName name = true) :
    name ∈ o.attributeNames := by
  simp only [isAttrsName, Bool.or_eq_true, decide_eq_true_eq] at h
  rcases h with rfl | h
  · exact List.mem_cons_self ..
  · simp [attributeNames, h]

/-- An attribute with a meaning has a name that is looked for. -/
theorem Options.exists_word_of_convention? {o : Options} {a : Attribute} {c : Convention}
    (h : o.convention? a = some c) : ∃ word ∈ a.word?, word ∈ o.attributeNames := by
  have binding : ∀ {text : String}, o.isAttrsBinding text = true → text ∈ o.attributeNames := fun hbinding =>
    mem_attributeNames_of_isAttrsName (Bool.and_eq_true_iff.1 hbinding).2
  unfold convention? at h
  split at h
  · next span name value =>
    refine ⟨name, rfl, ?_⟩
    split at h
    · next hattrs => exact mem_attributeNames_of_isAttrsName hattrs
    · split at h
      · next hcreate => simp [attributeNames, hcreate]
      · split at h
        · next hposition => simp [attributeNames, hposition]
        · cases h
  · split at h
    · next hbinding => exact ⟨_, rfl, binding hbinding⟩
    · cases h
  · split at h
    · next hbinding => exact ⟨_, rfl, binding hbinding⟩
    · cases h
  · cases h
  · cases h

/-! ### The plan of an element -/

namespace Convention

def attrs? : Convention → Option Anchor
  | .attrs name span value => some ⟨name, span, value⟩
  | .create .. | .position .. => none

def create? : Convention → Option Anchor
  | .create name span value => some ⟨name, span, value⟩
  | .attrs .. | .position .. => none

/-- The span of an attribute that is dropped. -/
def dropped? : Convention → Option Span
  | .position _ span _ => some span
  | .attrs .. | .create .. => none

/-- The position that the value names. -/
def position? [Script.ExpressionReader] : Convention → Option ArgumentPosition
  | .position _ _ (some e) => (Script.Shape.ofText? e.text).toOption.bind ArgumentPosition.ofShape?
  | .position _ _ none | .attrs .. | .create .. => none

end Convention

theorem SourceFile.gives_textIn {f : SourceFile} {start : Nat} {part : Span} {text : String}
    (h : (f.textIn start part).Gives text) : (part.shifted start).slice? f.text = some text := by
  unfold SourceFile.textIn at h
  split at h
  · next hslice => rw [hslice, h.of_pure]
  · exact (not_gives_throw h).elim

/-- Texts that are given one by one are those of the parts. -/
theorem SourceFile.gives_mapM_textIn {f : SourceFile} {start : Nat} {parts : List Span} {texts : List String}
    (h : (parts.mapM (f.textIn start)).Gives texts) :
    parts.map (fun part => (part.shifted start).slice? f.text) = texts.map some := by
  have hgives := h.of_mapM
  clear h
  induction hgives with
  | nil => rfl
  | cons hpart _ ih => rw [List.map_cons, List.map_cons, gives_textIn hpart, ih]

/-- The program stops where the text is taken of a part that has none. -/
theorem SourceFile.throws_textIn {f : SourceFile} {start : Nat} {part : Span} {error : ExpansionError}
    (h : (f.textIn start part).Throws error) :
    (part.shifted start).slice? f.text = none ∧ error = .trap (part.shifted start) := by
  unfold SourceFile.textIn at h
  split at h
  · exact (not_throws_pure h).elim
  · next hslice => exact ⟨hslice, h.of_throw⟩

section Reading

variable [Script.ExpressionReader]

/-- What is to be done with an element that has attributes of the given meanings. -/
def planOf (tag : String) (meanings : List Convention) : ElementPlan where
  tag := tag
  attrs := (meanings.filterMap Convention.attrs?).getLast?
  create := (meanings.filterMap Convention.create?).getLast?
  position := (meanings.filterMap Convention.position?).getLast?
  removals := meanings.filterMap Convention.dropped?

/-- What is to be done with an element. -/
def ElementPlan.of (o : Options) (e : ElementView) : ElementPlan :=
  planOf e.name (o.conventions e.attributes)

theorem SourceFile.gives_shape {f : SourceFile} {attr : String} {e : Expression} {shape : Script.Shape}
    (h : (f.shape attr e).Gives shape) : Script.Shape.ofText? e.text = .ok shape := by
  unfold SourceFile.shape at h
  split at h
  · next shape' hshape => rw [hshape, h.of_pure]
  · exact (not_gives_throw h).elim

/-- The error says that the value of an attribute is no expression, and where it stops to be one. -/
inductive SourceFile.Refuses (f : SourceFile) (attr : String) (e : Expression) : ExpansionError → Prop where
  | mk {fault : Script.Fault} : Script.Shape.ofText? e.text = .error fault → f.Refuses attr e
    (.expression f.shownName (f.location (e.span.start + fault.offset)) attr fault.kind)

theorem SourceFile.throws_shape {f : SourceFile} {attr : String} {e : Expression} {error : ExpansionError}
    (h : (f.shape attr e).Throws error) : f.Refuses attr e error := by
  unfold SourceFile.shape at h
  split at h
  · exact (not_throws_pure h).elim
  · next fault hfault =>
    rw [h.of_throw]
    exact .mk hfault

namespace ElementPlan

/-- One more meaning. -/
theorem gives_add {f : SourceFile} {tag : String} {meanings : List Convention} {c : Convention}
    {p : ElementPlan} (h : (add f (planOf tag meanings) c).Gives p) : p = planOf tag (meanings ++ [c]) := by
  cases c with
  | attrs name span value =>
    rw [h.of_pure]
    simp [planOf, Convention.attrs?, Convention.create?, Convention.dropped?, Convention.position?]
  | create name span value =>
    obtain ⟨_, -, h⟩ := h.of_bind
    rw [h.of_pure]
    simp [planOf, Convention.attrs?, Convention.create?, Convention.dropped?, Convention.position?]
  | position name span value =>
    obtain ⟨_, -, h⟩ := h.of_bind
    cases value with
    | none =>
      rw [h.of_pure]
      simp [planOf, Convention.attrs?, Convention.create?, Convention.dropped?, Convention.position?]
    | some e =>
      obtain ⟨shape, hshape, h⟩ := h.of_bind
      have hshape := SourceFile.gives_shape hshape
      rw [h.of_pure]
      cases hposition : ArgumentPosition.ofShape? shape <;>
        simp [planOf, Convention.attrs?, Convention.create?, Convention.dropped?, Convention.position?,
          hshape, hposition, Except.toOption]

/-- Only the value of a position is looked at. -/
theorem throws_add {f : SourceFile} {p : ElementPlan} {c : Convention} {error : ExpansionError}
    (h : (add f p c).Throws error) :
    ∃ name span value, c = .position name span (some value) ∧ f.Refuses name value error := by
  cases c with
  | attrs name span value => exact (not_throws_pure h).elim
  | create name span value =>
    rcases h.of_bind with h | ⟨_, -, h⟩
    · exact (not_throws_remark h).elim
    · exact (not_throws_pure h).elim
  | position name span value =>
    cases value with
    | none =>
      rcases h.of_bind with h | ⟨_, -, h⟩
      · exact (not_throws_remark h).elim
      · exact (not_throws_pure h).elim
    | some e =>
      rcases h.of_bind with h | ⟨_, -, h⟩
      · exact (not_throws_remark h).elim
      · rcases h.of_bind with h | ⟨_, -, h⟩
        · exact ⟨name, span, e, rfl, SourceFile.throws_shape h⟩
        · exact (not_throws_pure h).elim

/-- The plan for an element follows from the meanings of its attributes. -/
theorem gives_ofElement {o : Options} {f : SourceFile} {e : ElementView} {p : ElementPlan}
    (h : (ofElement o f e).Gives p) : p = .of o e := by
  have fold : ∀ rest before, (rest.foldlM (add f) (planOf e.name before)).Gives p →
      p = planOf e.name (before ++ rest) := by
    intro rest
    induction rest with
    | nil =>
      intro before h
      rw [List.append_nil]
      exact h.of_pure
    | cons c rest ih =>
      intro before h
      rw [List.foldlM_cons] at h
      obtain ⟨q, hq, h⟩ := h.of_bind
      rw [gives_add hq] at h
      simpa using ih _ h
  exact fold _ [] h

theorem throws_ofElement {o : Options} {f : SourceFile} {e : ElementView} {error : ExpansionError}
    (h : (ofElement o f e).Throws error) :
    ∃ name span value, .position name span (some value) ∈ o.conventions e.attributes ∧ f.Refuses name value error := by
  have fold : ∀ (rest : List Convention) (p : ElementPlan), (rest.foldlM (add f) p).Throws error →
      ∃ name span value, .position name span (some value) ∈ rest ∧ f.Refuses name value error := by
    intro rest
    induction rest with
    | nil => exact fun p h => (not_throws_pure h).elim
    | cons c rest ih =>
      intro p h
      rw [List.foldlM_cons] at h
      rcases h.of_bind with h | ⟨q, -, h⟩
      · obtain ⟨name, span, value, rfl, hrefuses⟩ := throws_add h
        exact ⟨name, span, value, List.mem_cons_self .., hrefuses⟩
      · obtain ⟨name, span, value, hmem, hrefuses⟩ := ih q h
        exact ⟨name, span, value, List.mem_cons_of_mem _ hmem, hrefuses⟩
  exact fold _ _ h

/-- The plans are those of the elements, without the ones that change nothing. -/
theorem gives_ofElements {o : Options} {f : SourceFile} {es : List ElementView} {ps : List ElementPlan}
    (h : (ofElements o f es).Gives ps) : ps = (es.map (.of o)).filter edits := by
  induction es generalizing ps with
  | nil => exact h.of_pure
  | cons e es ih =>
    obtain ⟨p, hp, h⟩ := h.of_bind
    rw [gives_ofElement hp] at h
    split at h
    · next hedits =>
      obtain ⟨_, -, h⟩ := h.of_bind
      obtain ⟨rest, hrest, h⟩ := h.of_bind
      rw [h.of_pure, ih hrest, List.map_cons, List.filter_cons_of_pos hedits]
    · next hedits =>
      rw [ih h, List.map_cons, List.filter_cons_of_neg hedits]

/-- Elements whose attributes have no meaning have no plans, and nothing is said about them. -/
theorem ofElements_of_conventions {o : Options} {f : SourceFile} {es : List ElementView}
    (h : ∀ e ∈ es, o.conventions e.attributes = []) : ofElements o f es = pure [] := by
  induction es with
  | nil => rfl
  | cons e es ih =>
    obtain ⟨he, hes⟩ := List.forall_mem_cons.1 h
    have hplan : ofElement o f e = pure { tag := e.name } := by
      rw [ofElement, he]
      rfl
    rw [ofElements, hplan, pure_bind, if_neg (by simp [edits, expands])]
    exact ih hes

theorem throws_ofElements {o : Options} {f : SourceFile} {es : List ElementView} {error : ExpansionError}
    (h : (ofElements o f es).Throws error) : ∃ e ∈ es, ∃ name span value,
      .position name span (some value) ∈ o.conventions e.attributes ∧ f.Refuses name value error := by
  induction es with
  | nil => exact (not_throws_pure h).elim
  | cons e es ih =>
    have below : (ofElements o f es).Throws error → ∃ e' ∈ e :: es, ∃ name span value,
        .position name span (some value) ∈ o.conventions e'.attributes ∧ f.Refuses name value error := by
      intro h
      obtain ⟨e', he', hposition⟩ := ih h
      exact ⟨e', List.mem_cons_of_mem e he', hposition⟩
    rcases h.of_bind with h | ⟨p, -, h⟩
    · exact ⟨e, List.mem_cons_self .., throws_ofElement h⟩
    · split at h
      · rcases h.of_bind with h | ⟨_, -, h⟩
        · exact (not_throws_remark h).elim
        · rcases h.of_bind with h | ⟨rest, -, h⟩
          · exact below h
          · exact (not_throws_pure h).elim
      · exact below h

end ElementPlan

end Reading

end Restyle
