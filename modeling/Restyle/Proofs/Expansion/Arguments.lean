import Mathlib.Data.ENat.Lattice
import Mathlib.Data.List.ReduceOption
import Restyle.Proofs.Expansion.Amending
import Restyle.Proofs.Script.Trailing

/-! The arguments of a call, told from the attributes of the element. The last attribute for the runtime gives
them, the items of an array one by one; the reference to the last definition stands among them, with as many
of them in front of it as the last position says that says a number. -/

namespace Restyle

open Markup Text

/-! ### What attributes say -/

/-- The place in a list of a length that a number stands for. The number is held in 64 bits: one that is too great
is the greatest of them. -/
def placeIn (length : Nat) (rank : ℕ∞) : Nat :=
  if rank = ⊤ then length else min (min rank.toNat (2 ^ 64 - 1)) length

namespace Options

/-- The value of an attribute for the runtime: the one expression of an attribute with a name for it, or such a
name that is spread or stands alone. -/
def given? (o : Options) : Attribute → Option Expression
  | .normal _ name value => if o.isAttrsName name then value.single? else none
  | .spread _ value | .shorthand _ value => if o.isAttrsBinding value.text then some value else none
  | .directive .. | .attach .. => none

/-- The definition in an attribute. -/
def defined? (o : Options) : Attribute → Option Expression
  | .normal _ name value =>
    if o.isAttrsName name then none else if name = o.createAttribute then value.single? else none
  | .spread .. | .shorthand .. | .directive .. | .attach .. => none

end Options

namespace Markup.ElementView

/-- What the last attribute says that says something. -/
def last? {β : Type} (e : ElementView) (meaning : Attribute → Option β) : Option β :=
  (e.attributes.filterMap meaning).getLast?

/-- The reference to a definition that is moved out of the element. -/
def reference (o : Options) (f : SourceFile) (e : ElementView) (definition : Expression) : String :=
  o.hoistVariable ++ "." ++ Hoisted.nameOf f e.name definition

end Markup.ElementView

/-! ### Attributes and meanings -/

variable {o : Options} {f : SourceFile} {e : ElementView}

theorem getLast?_conventions {β γ : Type} {meaning : Convention → Option β} {of : β → γ}
    {said : Attribute → Option γ} (h : ∀ a, ((o.convention? a).bind meaning).map of = said a) :
    ((o.conventions e.attributes).filterMap meaning).getLast?.map of = e.last? said := by
  rw [Options.conventions, List.filterMap_filterMap, ← List.getLast?_map, List.map_filterMap, ElementView.last?]
  simp only [h]

theorem map_attrs? (a : Attribute) :
    ((o.convention? a).bind Convention.attrs?).map (fun anchor => (anchor.span, anchor.value)) =
      (o.given? a).map (a.span, ·) := by
  unfold Options.convention? Options.given?
  cases a with
  | normal span name value =>
    dsimp only
    split_ifs <;> cases value.single? <;> rfl
  | spread span value => dsimp only; split <;> rfl
  | shorthand span value => dsimp only; split <;> rfl
  | directive => rfl
  | attach => rfl

theorem map_create? (a : Attribute) :
    ((o.convention? a).bind Convention.create?).map (fun anchor => (anchor.span, anchor.value)) =
      (o.defined? a).map (a.span, ·) := by
  unfold Options.convention? Options.defined?
  cases a with
  | normal span name value =>
    dsimp only
    split_ifs <;> cases value.single? <;> rfl
  | spread span value => dsimp only; split <;> rfl
  | shorthand span value => dsimp only; split <;> rfl
  | directive => rfl
  | attach => rfl

theorem last?_map {β γ : Type} (of : β → γ) (meaning : Attribute → Option β) :
    e.last? (fun a => (meaning a).map of) = (e.last? meaning).map of := by
  rw [ElementView.last?, ElementView.last?, ← List.getLast?_map, List.map_filterMap]

/-- What is said together with the place of the attribute. -/
theorem last?_snd {β : Type} (meaning : Attribute → Option β) :
    (e.last? fun a => (meaning a).map (a.span, ·)).map Prod.snd = e.last? meaning := by
  rw [← last?_map]
  exact congrArg e.last? (funext fun a => by rw [Option.map_map]; exact Option.map_id' ..)

/-- A list that 64 bits can count is not too short for any number. -/
theorem placeIn_eq {length : Nat} (h : length < 2 ^ 64) (rank : ℕ∞) : placeIn length rank = (min rank length).toNat := by
  cases rank with
  | top => simp [placeIn]
  | coe n =>
    have hmin : min (n : ℕ∞) length = ((min n length : ℕ) : ℕ∞) := by
      rcases Nat.le_total n length with hle | hle <;> simp [hle]
    rw [placeIn, if_neg (ENat.natCast_ne_top n), hmin, ENat.toNat_natCast, ENat.toNat_natCast]
    omega

/-- The attribute that gives way to the call of an element: the last one for the runtime, or the last definition if
there is none. -/
def Markup.ElementView.anchor? (o : Options) (e : ElementView) : Option Span :=
  (e.last? fun a => (o.given? a).map fun _ => a.span) <|> e.last? fun a => (o.defined? a).map fun _ => a.span

theorem placed_given? {source : String} {a : Attribute} {value : Expression} (ha : a.Placed source)
    (h : o.given? a = some value) : value.Placed source := by
  have hinside := ha.inside
  unfold Options.given? at h
  cases a with
  | normal span name v =>
    dsimp only at h
    split at h
    · exact hinside.single h
    · cases h
  | spread span v =>
    obtain ⟨-, rfl⟩ := Option.ite_some_none_eq_some.1 h
    exact hinside
  | shorthand span v =>
    obtain ⟨-, rfl⟩ := Option.ite_some_none_eq_some.1 h
    exact hinside
  | directive => cases h
  | attach => cases h

/-- The value that gives the arguments of an element stands in the source. -/
theorem placed_last? (he : e ∈ (read f.text).document.fragment.elements)
    {value : Expression} (h : e.last? o.given? = some value) : value.Placed f.text := by
  obtain ⟨a, ha, hvalue⟩ := List.mem_filterMap.1 (List.mem_of_getLast? h)
  exact placed_given? ((sound_read_braced f.text).fragment.shown a (List.mem_flatMap.2 ⟨e, he, ha⟩)).holds.1 hvalue

section Reading

variable [Script.ExpressionReader]

/-- The number of arguments that should stand in front of the definition: that of a number literal without its
fraction, or any number for infinity. -/
def Markup.Expression.rank? (value : Expression) : Option ℕ∞ :=
  match Script.Shape.ofText? value.text with
  | .ok (.identifier "Infinity") => some ⊤
  | .ok (.number (some number)) => some number.floor
  | _ => none

/-- The number that a position says. -/
def Options.ranked? (o : Options) : Attribute → Option ℕ∞
  | .normal _ name value =>
    if o.isAttrsName name then none
    else if name = o.createAttribute then none
    else if name = o.positionAttribute then value.single?.bind Expression.rank? else none
  | .spread .. | .shorthand .. | .directive .. | .attach .. => none

namespace Markup.ElementView

/-- The arguments without the definition. -/
def given (o : Options) (f : SourceFile) (e : ElementView) : List String :=
  ((e.last? o.given?).map (·.arguments f)).getD []

/-- The place of the definition among the arguments. -/
def index (o : Options) (f : SourceFile) (e : ElementView) : Nat :=
  placeIn (e.given o f).length ((e.last? o.ranked?).getD 0)

/-- The arguments of the call that the element gets. -/
def callArguments (o : Options) (f : SourceFile) (e : ElementView) : List String :=
  match e.last? o.defined? with
  | none => e.given o f
  | some definition => (e.given o f).insertIdx (e.index o f) (e.reference o f definition)

end Markup.ElementView

/-! ### What the plan says -/

theorem resolve_ofShape? (length : Nat) (value : Expression) :
    ((Script.Shape.ofText? value.text).toOption.bind ArgumentPosition.ofShape?).map (ArgumentPosition.resolve length) =
      value.rank?.map (placeIn length) := by
  unfold Expression.rank?
  cases Script.Shape.ofText? value.text with
  | error fault => rfl
  | ok shape =>
    cases shape with
    | identifier name =>
      simp only [Except.toOption, Option.bind_some]
      by_cases hname : name = "Infinity"
      · rw [hname]
        exact congrArg some (if_pos rfl).symm
      · simp [ArgumentPosition.ofShape?, hname]
    | number number =>
      cases number with
      | none => rfl
      | some number => exact congrArg some (if_neg (ENat.natCast_ne_top number.floor)).symm
    | array items => rfl
    | other => rfl

theorem resolve_position? (length : Nat) (a : Attribute) :
    ((o.convention? a).bind Convention.position?).map (ArgumentPosition.resolve length) =
      (o.ranked? a).map (placeIn length) := by
  unfold Options.convention? Options.ranked?
  cases a with
  | normal span name value =>
    dsimp only
    split_ifs
    · cases value.single? <;> rfl
    · cases value.single? <;> rfl
    · cases value.single? with
      | none => rfl
      | some e => exact resolve_ofShape? length e
    · rfl
  | spread span value => dsimp only; split <;> rfl
  | shorthand span value => dsimp only; split <;> rfl
  | directive => rfl
  | attach => rfl

theorem attrs_of (o : Options) (e : ElementView) :
    (ElementPlan.of o e).attrs.map (fun anchor => (anchor.span, anchor.value)) =
      e.last? fun a => (o.given? a).map (a.span, ·) := getLast?_conventions map_attrs?

theorem create_of (o : Options) (e : ElementView) :
    (ElementPlan.of o e).create.map (fun anchor => (anchor.span, anchor.value)) =
      e.last? fun a => (o.defined? a).map (a.span, ·) := getLast?_conventions map_create?

theorem value_attrs_of (o : Options) (e : ElementView) : (ElementPlan.of o e).attrs.map Anchor.value = e.last? o.given? := by
  rw [← last?_snd, ← attrs_of, Option.map_map]
  rfl

theorem value_create_of (o : Options) (e : ElementView) :
    (ElementPlan.of o e).create.map Anchor.value = e.last? o.defined? := by
  rw [← last?_snd, ← create_of, Option.map_map]
  rfl

theorem arguments_of (o : Options) (f : SourceFile) (e : ElementView) : (ElementPlan.of o e).arguments f = e.given o f := by
  rw [ElementPlan.arguments, ElementView.given, ← value_attrs_of, Option.map_map]
  rfl

theorem index_of (o : Options) (f : SourceFile) (e : ElementView) :
    ((ElementPlan.of o e).position.getD (.index 0)).resolve (e.given o f).length = e.index o f := by
  let length := (e.given o f).length
  have hlast : (ElementPlan.of o e).position.map (ArgumentPosition.resolve length) =
      (e.last? o.ranked?).map (placeIn length) :=
    (getLast?_conventions (resolve_position? length)).trans (last?_map _ _)
  have hzero : placeIn length 0 = ArgumentPosition.resolve length (.index 0) := by
    rw [placeIn, if_neg ENat.zero_ne_top]
    rfl
  rw [ElementView.index, ← Option.getD_map (placeIn length), ← hlast, hzero, Option.getD_map]

theorem callText_of (o : Options) (f : SourceFile) (e : ElementView) :
    (ElementPlan.of o e).callText o f = o.call (e.callArguments o f) := by
  unfold ElementPlan.callText ElementPlan.placeReference ElementPlan.hoisted? ElementView.callArguments
  rw [arguments_of, ← value_create_of]
  cases (ElementPlan.of o e).create with
  | none => rfl
  | some create =>
    simp only [Option.map_some]
    rw [index_of]
    rfl

theorem given_of_last? {value : Expression} (h : e.last? o.given? = some value) : e.given o f = value.arguments f := by
  rw [ElementView.given, h]
  rfl

/-- The reference has a place among the arguments. -/
theorem index_le (o : Options) (f : SourceFile) (e : ElementView) : e.index o f ≤ (e.given o f).length := by
  rw [ElementView.index, placeIn]
  split
  · exact Nat.le_refl _
  · exact Nat.min_le_right ..

/-- Without the reference the arguments are those that the value for the runtime gives. -/
theorem eraseIdx_callArguments {definition : Expression} (h : e.last? o.defined? = some definition) :
    (e.callArguments o f).eraseIdx (e.index o f) = e.given o f := by
  rw [ElementView.callArguments, h]
  exact List.eraseIdx_insertIdx_self _

/-- Among the arguments the reference has its place. -/
theorem getElem?_callArguments {definition : Expression} (h : e.last? o.defined? = some definition) :
    (e.callArguments o f)[e.index o f]? = some (e.reference o f definition) := by
  rw [ElementView.callArguments, h]
  dsimp only
  rw [List.getElem?_insertIdx_self, if_pos (index_le o f e)]

/-! ### The items of an array -/

/-- The items of an array without a mark of its byte order are parts of its text, and none of them is empty. -/
theorem slices_arguments [Script.ExpressionReader.Lawful] {value : Expression} (hplaced : value.Placed f.text)
    (hmark : value.text.toList.head? ≠ some '\ufeff') {items : List (Option Span)}
    (h : Script.Shape.ofText? value.text = .ok (.array items)) :
    items.reduceOption.map (fun item => item.slice? value.text) = (value.arguments f).map some
      ∧ "" ∉ value.arguments f := by
  have hslice : ∀ item ∈ items.reduceOption, ∃ piece ≠ "", item.slice? value.text = some piece
      ∧ (item.shifted value.span.start).slice? f.text = some piece := by
    intro item hitem
    obtain ⟨piece, hne, hpiece⟩ := Script.exists_slice_of_ofText?_array hmark h (List.reduceOption_mem_iff.1 hitem)
    obtain ⟨hstands, hstop⟩ := Span.stands_of_slice? hpiece
    have hsource := (Span.stands_of_slice? hplaced.slice).1.trans hstands
    refine ⟨piece, hne, hpiece, ?_⟩
    rw [Span.slice?_of_stands hsource (by rw [Span.shifted, hstop, Nat.add_assoc]), String.ofList_toList]
  have hgiven : value.arguments f = items.reduceOption.map fun item => (item.slice? value.text).getD "" := by
    rw [Expression.arguments_of_array h]
    refine List.filterMap_eq_map_iff_forall_eq_some.2 fun item hitem => ?_
    obtain ⟨piece, -, hpiece, hshifted⟩ := hslice item hitem
    rw [hshifted, hpiece, Option.getD_some]
  rw [hgiven, List.map_map]
  refine ⟨List.map_congr_left fun item hitem => ?_, fun hmem => ?_⟩
  · obtain ⟨piece, -, hpiece, -⟩ := hslice item hitem
    simp [hpiece]
  · obtain ⟨item, hitem, hempty⟩ := List.mem_map.1 hmem
    obtain ⟨piece, hne, hpiece, -⟩ := hslice item hitem
    rw [hpiece] at hempty
    exact hne hempty

/-- What the value of an element for the runtime gives is made of parts of the value. -/
theorem slices_given [Script.ExpressionReader.Lawful] (he : e ∈ (read f.text).document.fragment.elements)
    {value : Expression} (hvalue : e.last? o.given? = some value) (hmark : value.text.toList.head? ≠ some '\ufeff')
    {items : List (Option Span)} (h : Script.Shape.ofText? value.text = .ok (.array items)) :
    items.reduceOption.map (fun item => item.slice? value.text) = (e.given o f).map some ∧ "" ∉ e.given o f := by
  rw [given_of_last? hvalue]
  exact slices_arguments (placed_last? he hvalue) hmark h

/-! ### Calls in an expanded file -/

/-- What comes before an offset of a file when the file is expanded. -/
def codeBefore (o : Options) (f : SourceFile) (offset : Nat) : List UInt8 :=
  let d := (read f.text).document
  bytes (newScripts o f d).toList ++ (List.range offset).flatMap (expandedAt o f d)
    ++ bytes (scriptText o f d offset).toList

variable {j : Journal} {x : Expanded} {span : Span}

theorem mem_changes_of_anchor? (he : e ∈ (read f.text).document.fragment.elements) (h : e.anchor? o = some span) :
    (span, o.call (e.callArguments o f)) ∈ changes o f (read f.text).document.fragment.elements := by
  have hspan {β : Type} (meaning : Attribute → Option β) :
      (e.last? fun a => (meaning a).map (a.span, ·)).map Prod.fst = e.last? fun a => (meaning a).map fun _ => a.span := by
    rw [← last?_map]
    exact congrArg e.last? (funext fun a => by rw [Option.map_map]; rfl)
  have hattrs : (ElementPlan.of o e).attrs.map Anchor.span = e.last? fun a => (o.given? a).map fun _ => a.span := by
    rw [← hspan, ← attrs_of, Option.map_map]
    rfl
  have hcreate : (ElementPlan.of o e).create.map Anchor.span = e.last? fun a => (o.defined? a).map fun _ => a.span := by
    rw [← hspan, ← create_of, Option.map_map]
    rfl
  rw [ElementView.anchor?, ← hattrs, ← hcreate] at h
  refine List.mem_flatMap.2 ⟨_, List.mem_map_of_mem he, List.mem_append_right _ ?_⟩
  rw [callText_of]
  cases ha : (ElementPlan.of o e).attrs with
  | some anchor =>
    rw [ha] at h
    cases h
    exact List.mem_cons_self ..
  | none =>
    cases hc : (ElementPlan.of o e).create with
    | some anchor =>
      rw [ha, hc] at h
      cases h
      exact List.mem_singleton_self _
    | none =>
      rw [ha, hc] at h
      cases h

/-- The new text of a change stands behind what comes before the changed span. -/
theorem codeBefore_append (h : (j.expand o f).1 = .ok (some x)) {c : Span × String}
    (hc : c ∈ changes o f (read f.text).document.fragment.elements) :
    codeBefore o f c.1.start ++ bytes c.2.toList <+: bytes x.code.toList := by
  have hnonempty : ∀ c ∈ changes o f (read f.text).document.fragment.elements, c.1.start < c.1.stop :=
    fun c hc => (placed_changes o f c hc).2.1
  have hapart := pairwise_changes (sound_read_cuts f.text).fragment o f
  have hlt : c.1.start < c.1.stop := hnonempty c hc
  have hstop : c.1.stop ≤ width f.text.toList := le_width_of_isBoundary (placed_changes o f c hc).1.stop
  have hchanged : (changes o f (read f.text).document.fragment.elements).any (·.1.contains c.1.start) = true :=
    List.any_eq_true.2 ⟨c, hc, Span.contains_iff.2 ⟨Nat.le_refl _, hlt⟩⟩
  have hat : expandedAt o f (read f.text).document c.1.start =
      bytes (scriptText o f (read f.text).document c.1.start).toList ++ bytes c.2.toList := by
    rw [expandedAt, changedText_of_mem hapart hnonempty hc, if_pos hchanged, List.append_nil,
      String.toList_append, bytes_append]
  have hrange : List.range (width f.text.toList + 1) =
      List.range c.1.start ++ c.1.start :: List.range' (c.1.start + 1) (width f.text.toList - c.1.start) := by
    have hsplit : width f.text.toList + 1 = c.1.start + (width f.text.toList - c.1.start + 1) := by omega
    conv_lhs => rw [hsplit, List.range_eq_range', ← List.range'_append_1, Nat.zero_add, List.range'_succ]
    rw [List.range_eq_range']
  rw [bytes_code h, hrange, List.flatMap_append, List.flatMap_cons, hat, codeBefore]
  exact ⟨_, by simp only [List.append_assoc]; rfl⟩

/-- In an expanded file every item of an array has a text. -/
theorem sliced_last? (h : (j.expand o f).1 = .ok (some x)) (he : e ∈ (read f.text).document.fragment.elements)
    {value : Expression} (hvalue : e.last? o.given? = some value) : value.Sliced f := by
  obtain ⟨-, -, hsliced⟩ := gives_expansion (Remarking.gives_of_outcome h)
  obtain ⟨attrs, hattrs, rfl⟩ := Option.map_eq_some_iff.1 ((value_attrs_of o e).trans hvalue)
  have hedits : (ElementPlan.of o e).edits = true := by simp [ElementPlan.edits, ElementPlan.expands, hattrs]
  exact hsliced _ (List.mem_filter.2 ⟨List.mem_map_of_mem he, hedits⟩) attrs hattrs

/-- The calls of an expanded file. Where an attribute for the runtime or a definition gives way to a call, the runtime
is spread with the arguments that the attributes of the element say, with commas between them: those that the last
value for the runtime gives, and among them the reference to the last definition, if there is one, behind as many of
them as the last position says that says a number. An array gives the texts that stand where its items are counted
from the start of the value, any other value its whole text, and no value nothing. Without the reference the arguments
are what the value gives. -/
theorem call_expand (h : (j.expand o f).1 = .ok (some x)) (he : e ∈ (read f.text).document.fragment.elements) :
    (∀ span, e.anchor? o = some span →
      codeBefore o f span.start ++ bytes ("\x7b..." ++ o.runtimeAlias ++ ".attrs("
        ++ String.intercalate ", " (e.callArguments o f) ++ ")\x7d").toList <+: bytes x.code.toList) ∧
    (e.last? o.given? = none → e.given o f = []) ∧
    (∀ value, e.last? o.given? = some value →
      (∀ items, Script.Shape.ofText? value.text = .ok (.array items) →
        items.reduceOption.map (fun item => (item.shifted value.span.start).slice? f.text) = (e.given o f).map some) ∧
      ((∀ items, Script.Shape.ofText? value.text ≠ .ok (.array items)) → e.given o f = [value.text])) ∧
    ((e.given o f).length < 2 ^ 64 →
      e.index o f = (min ((e.last? o.ranked?).getD 0) (e.given o f).length).toNat) ∧
    (e.last? o.defined? = none → e.callArguments o f = e.given o f) ∧
    ∀ definition, e.last? o.defined? = some definition → e.index o f ≤ (e.given o f).length ∧
      (e.callArguments o f)[e.index o f]? = some (e.reference o f definition) ∧
      (e.callArguments o f).eraseIdx (e.index o f) = e.given o f := by
  refine ⟨fun span hspan => ?_, fun hnone => ?_, fun value hvalue => ⟨fun items hitems => ?_, fun hother => ?_⟩,
    fun hlength => placeIn_eq hlength _, fun hnone => ?_, fun definition hdefinition =>
    ⟨index_le o f e, getElem?_callArguments hdefinition, eraseIdx_callArguments hdefinition⟩⟩
  · rw [← Options.call_eq]
    exact codeBefore_append (c := (span, o.call (e.callArguments o f))) h (mem_changes_of_anchor? he hspan)
  · rw [ElementView.given, hnone]
    rfl
  · rw [given_of_last? hvalue]
    exact sliced_last? h he hvalue items hitems
  · rw [given_of_last? hvalue]
    exact Expression.arguments_of_ne hother
  · rw [ElementView.callArguments, hnone]

end Reading

/-- A file with an array, a definition, and two positions of which the last one says no number. -/
def placedFile : SourceFile :=
  ⟨none, "<p stylex=\x7b([a, , ...b])\x7d stylex-create=\x7bs\x7d stylex-create-at=\x7b1.7\x7d stylex-create-at=\x7b-1\x7d/>"⟩

/-- What the file becomes. -/
def placedCode : String :=
  "<script module>const __styles = __stylex.create(\x7b\"p$1_41\": s\x7d);</script>"
    ++ "<script>import * as __stylex from \"@stylexjs/stylex\";</script>"
    ++ "<p \x7b...__stylex.attrs(a, __styles.p$1_41, ...b)\x7d   />"

theorem call_expand_placedFile : ∃ x e, (({} : Journal).expand {} placedFile).1 = .ok (some x) ∧ x.code = placedCode ∧
    e ∈ (read placedFile.text).document.fragment.elements ∧ e.anchor? {} = some ⟨3, 25⟩ ∧
    codeBefore {} placedFile 3 ++ bytes ("\x7b...__stylex.attrs("
      ++ String.intercalate ", " ["a", "__styles.p$1_41", "...b"] ++ ")\x7d").toList <+: bytes x.code.toList := by
  have hcode : (({} : Journal).expand {} placedFile).1.toOption.join.map Expanded.code = some placedCode := by
    decide +kernel
  obtain ⟨x, hx, hcode⟩ := exists_expanded hcode
  have helements : (read placedFile.text).document.fragment.elements.map
      (fun e => (e.anchor? {}, e.callArguments {} placedFile)) = [(some ⟨3, 25⟩, ["a", "__styles.p$1_41", "...b"])] := by
    decide +kernel
  obtain ⟨e, he, heq⟩ := List.mem_map.1 (helements ▸ List.mem_singleton_self _)
  obtain ⟨hanchor, harguments⟩ := Prod.mk.inj heq
  exact ⟨x, e, hx, hcode, he, hanchor, harguments ▸ (call_expand hx he).1 _ hanchor⟩

/-- A file with an array behind a mark of its byte order. -/
def markedFile : SourceFile := ⟨none, "<p stylex=\x7b\ufeff[  a,é ]\x7d/>"⟩

/-- The items of an array are counted from behind a mark of its byte order, their texts are taken from the start of the
mark on. So what the call gets begins the length of the mark before each item. -/
theorem expand_markedFile : ∃ x value items, (({} : Journal).expand {} markedFile).1 = .ok (some x) ∧
    (∃ e ∈ (read markedFile.text).document.fragment.elements, e.last? ({} : Options).given? = some value) ∧
    Script.Shape.ofText? value.text = .ok (.array items) ∧
    items.map (fun item => item.bind fun s => s.slice? "[  a,é ]") = [some "a", some "é"] ∧
    value.text = "\ufeff[  a,é ]" ∧
    x.code = "<script>import * as __stylex from \"@stylexjs/stylex\";</script><p \x7b...__stylex.attrs([,  a)\x7d/>" := by
  have hcode : (({} : Journal).expand {} markedFile).1.toOption.join.map Expanded.code =
      some "<script>import * as __stylex from \"@stylexjs/stylex\";</script><p \x7b...__stylex.attrs([,  a)\x7d/>" := by
    decide +kernel
  obtain ⟨x, hx, hcode⟩ := exists_expanded hcode
  have helements : (read markedFile.text).document.fragment.elements.map (·.last? ({} : Options).given?) =
      [some ⟨⟨11, 23⟩, "\ufeff[  a,é ]"⟩] := by decide +kernel
  obtain ⟨e, he, hvalue⟩ := List.mem_map.1 (helements ▸ List.mem_singleton_self _)
  have hitems : Script.Shape.ofText? "\ufeff[  a,é ]" = .ok (.array [some ⟨3, 4⟩, some ⟨5, 7⟩]) := by decide +kernel
  exact ⟨x, _, _, hx, ⟨e, he, hvalue⟩, hitems, by decide +kernel, rfl, hcode⟩

end Restyle
