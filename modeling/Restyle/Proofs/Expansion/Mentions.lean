import Restyle.Proofs.Expansion.Code
import Restyle.Proofs.Markup.Slices
import Restyle.Proofs.Markup.Tags
import Restyle.Proofs.Text.Search

/-! What a source must have in it for its expansion to change something. A name that tells the meaning of an
attribute was read from the source as it stands there, so a source without all the names has no attribute with
a meaning, and need not be read. A source without faults is left as it is if and only if none of its attributes
has one; and with nothing but positions in it, it only loses these. -/

namespace Restyle

open Markup Remarking Text

/-! ### Words in a source -/

namespace Markup

variable {source : String}

theorem Expression.Placed.infix {e : Expression} (h : e.Placed source) : e.text.toList <:+: source.toList := by
  obtain ⟨before, after, hcs, -⟩ := (Span.stands_of_slice? h.slice).1
  exact ⟨before, after, by rw [hcs, List.append_assoc]⟩

namespace Cursor

variable {c : Cursor}

/-- The word of an attribute stands in the source. -/
theorem On.infix_attribute? (h : c.On source.toList) {a : Attribute} (ha : c.attribute?.1 = some a) :
    ∀ word ∈ a.word?, word.toList <:+: source.toList := by
  have hplaced := h.placed_attribute? ha
  rintro word hword
  cases a with
  | normal span name value =>
    cases hword
    obtain ⟨before, hcs, -⟩ := h
    have hrest := (rest_of_breakWhere c endsName).1
    rw [(written_of_attribute? ha).toList_name.2]
    exact ⟨before, (c.breakWhere endsName).2.rest, by rw [hcs, hrest, List.append_assoc]⟩
  | spread span value =>
    cases hword
    exact hplaced.inside.infix
  | shorthand span value =>
    cases hword
    exact hplaced.inside.infix
  | directive => cases hword
  | attach => cases hword

theorem On.infix_attributes (h : c.On source.toList) :
    ∀ a ∈ c.attributes.1, ∀ word ∈ a.word?, word.toList <:+: source.toList := by
  fun_induction Cursor.attributes c with
  | case1 c _ => simp
  | case2 c hend first more ih =>
    have hblanks := h.reaches (reaches_skipBlanks c)
    intro a ha
    rcases List.mem_append.1 ha with ha | ha
    · exact hblanks.infix_attribute? (Option.mem_toList.1 ha)
    · exact ih (hblanks.reaches (reaches_attribute? c.skipBlanks)) a ha

end Cursor

/-- The word of every attribute of an element stands in the source. -/
theorem infix_of_mem_elements {e : ElementView} (he : e ∈ (read source).document.fragment.elements) {a : Attribute}
    (ha : a ∈ e.attributes) : ∀ word ∈ a.word?, word.toList <:+: source.toList := by
  have hsound := sound_read source (P := fun a => ∀ word ∈ a.word?, word.toList <:+: source.toList)
    fun r hr _ _ => (((Cursor.on_ofText _).reaches hr.reaches).reaches
      ((reaches_moved_take r.cursor 1).trans (Cursor.reaches_takeWhile _ _))).infix_attributes
  exact (hsound.fragment.shown a (List.mem_flatMap.2 ⟨e, he, ha⟩)).holds

end Markup

variable {o : Options} {f : SourceFile}

/-- In a source that does not have one of the names in it no attribute has a meaning. -/
theorem conventions_of_not_mentionedIn (h : o.mentionedIn f.text = false) :
    ∀ e ∈ (read f.text).document.fragment.elements, o.conventions e.attributes = [] := by
  intro e he
  refine List.filterMap_eq_nil_iff.2 fun a ha => Option.eq_none_iff_forall_not_mem.2 fun c hc => ?_
  obtain ⟨word, hword, hmem⟩ := Options.exists_word_of_convention? hc
  have hcontains := contains_iff.2 (infix_of_mem_elements he ha word hword)
  rw [Options.mentionedIn, List.any_eq_false] at h
  exact h word hmem hcontains

/-! ### Attributes that ask for something -/

/-- The attribute asks for something, as its name and the form of its value tell. A position asks whatever its value
is, but only if no other option has its name. -/
inductive Markup.Attribute.Asks (o : Options) : Attribute → Prop where
  | attrs {span : Span} {name : String} {value : AttributeValue} {e : Expression} :
    o.isAttrsName name = true → value.single? = some e → Asks o (.normal span name value)
  | create {span : Span} {value : AttributeValue} {e : Expression} :
    value.single? = some e → Asks o (.normal span o.createAttribute value)
  | position {span : Span} {value : AttributeValue} : o.isAttrsName o.positionAttribute = false →
    o.positionAttribute ≠ o.createAttribute → Asks o (.normal span o.positionAttribute value)
  | spread {span : Span} {value : Expression} : o.isAttrsBinding value.text = true → Asks o (.spread span value)
  | shorthand {span : Span} {value : Expression} : o.isAttrsBinding value.text = true → Asks o (.shorthand span value)

/-- The attributes that ask for something are those with a meaning. -/
theorem Options.isSome_convention? (o : Options) (a : Attribute) : (o.convention? a).isSome = true ↔ a.Asks o := by
  constructor
  · intro h
    unfold convention? at h
    split at h
    · next span name value =>
      split at h
      · next hattrs =>
        obtain ⟨e, he⟩ := Option.isSome_iff_exists.1 (Option.isSome_map ▸ h)
        exact .attrs hattrs he
      · next hattrs =>
        split at h
        · next hcreate =>
          obtain ⟨e, he⟩ := Option.isSome_iff_exists.1 (Option.isSome_map ▸ h)
          exact hcreate ▸ .create he
        · next hcreate =>
          split at h
          · next hposition =>
            subst hposition
            exact .position (Bool.eq_false_iff.2 hattrs) hcreate
          · cases h
    · split at h
      · next hbinding => exact .spread hbinding
      · cases h
    · split at h
      · next hbinding => exact .shorthand hbinding
      · cases h
    · cases h
    · cases h
  · rintro (⟨hattrs, he⟩ | he | ⟨hattrs, hcreate⟩ | hbinding | hbinding)
    · simp [convention?, hattrs, he]
    · by_cases hattrs : o.isAttrsName o.createAttribute = true <;> simp [convention?, hattrs, he]
    · simp [convention?, hattrs, hcreate]
    · simp [convention?, hbinding]
    · simp [convention?, hbinding]

instance (o : Options) (a : Attribute) : Decidable (a.Asks o) := decidable_of_iff _ (o.isSome_convention? a)

theorem Options.conventions_eq_nil_iff {attrs : List Attribute} :
    o.conventions attrs = [] ↔ ∀ a ∈ attrs, ¬ a.Asks o := by
  simp only [conventions, List.filterMap_eq_nil_iff, ← o.isSome_convention?, Option.not_isSome_iff_eq_none]

section Reading

variable [Script.ExpressionReader]

/-- Nothing is to be done with an element if its attributes have no meaning, and only then. -/
theorem ElementPlan.edits_of_eq_false_iff {e : ElementView} :
    (ElementPlan.of o e).edits = false ↔ o.conventions e.attributes = [] := by
  constructor
  · intro h
    obtain ⟨hchanges, hattrs, hcreate⟩ := changes_of_edits h ""
    have hremovals : (ElementPlan.of o e).removals = [] := by
      have := congrArg (List.map Prod.fst) hchanges
      rw [map_fst_changes] at this
      exact (List.append_eq_nil_iff.1 this).1
    rw [ElementPlan.of, planOf] at hattrs hcreate hremovals
    refine List.eq_nil_iff_forall_not_mem.2 fun c hc => ?_
    cases c with
    | attrs => cases List.filterMap_eq_nil_iff.1 (List.getLast?_eq_none_iff.1 hattrs) _ hc
    | create => cases List.filterMap_eq_nil_iff.1 (List.getLast?_eq_none_iff.1 hcreate) _ hc
    | position => cases List.filterMap_eq_nil_iff.1 hremovals _ hc
  · intro h
    rw [ElementPlan.of, h]
    rfl

/-- A file without faults is left as it is if none of its attributes asks for something, and only then. -/
theorem expand_eq_none_iff (hclean : (read f.text).faults = []) (j : Journal) :
    (j.expand o f).1 = .ok none ↔ ∀ a ∈ allAttributes (read f.text).document.fragment.elements, ¬ a.Asks o := by
  have hall : (∀ a ∈ allAttributes (read f.text).document.fragment.elements, ¬ a.Asks o) ↔
      ∀ e ∈ (read f.text).document.fragment.elements, o.conventions e.attributes = [] := by
    simp only [allAttributes, List.forall_mem_flatMap, Options.conventions_eq_nil_iff]
  rw [hall]
  refine ⟨fun h => ?_, fun h => expand_of_conventions hclean h j⟩
  rcases cases_of_gives (gives_of_outcome h) with ⟨-, hmention | hplans⟩ | ⟨x, hsome, -⟩
  · exact conventions_of_not_mentionedIn hmention
  · intro e he
    have hedits := List.filter_eq_nil_iff.1 hplans _ (List.mem_map_of_mem (f := ElementPlan.of o) he)
    exact ElementPlan.edits_of_eq_false_iff.1 (Bool.eq_false_iff.2 hedits)
  · cases hsome

/-! ### Positions alone -/

/-- The attribute only says where a definition goes, and its value, if it is one expression, is well formed. -/
inductive Markup.Attribute.Places (o : Options) : Attribute → Prop where
  | position {span : Span} {value : AttributeValue} : o.isAttrsName o.positionAttribute = false →
    o.positionAttribute ≠ o.createAttribute →
    (∀ e ∈ value.single?, ∃ shape, Script.Shape.ofText? e.text = .ok shape) →
    Places o (.normal span o.positionAttribute value)

/-- The meaning is a position whose value, if it is one expression, is well formed. -/
inductive Convention.Places : Convention → Prop where
  | position {name : String} {span : Span} {value : Option Expression} :
    (∀ e ∈ value, ∃ shape, Script.Shape.ofText? e.text = .ok shape) → Places (.position name span value)

theorem Options.places_conventions {attrs : List Attribute} (h : ∀ a ∈ attrs, a.Asks o → a.Places o) :
    ∀ c ∈ o.conventions attrs, c.Places := by
  intro c hc
  obtain ⟨a, ha, hmeaning⟩ := List.mem_filterMap.1 hc
  obtain ⟨hattrs, hcreate, hvalue⟩ := h a ha ((o.isSome_convention? a).1 (hmeaning ▸ rfl))
  rw [convention?, if_neg (by simp [hattrs]), if_neg hcreate, if_pos rfl] at hmeaning
  cases hmeaning
  exact .position hvalue

/-- With positions alone an element gets no call and no definition, and loses the positions. -/
theorem planOf_of_places {meanings : List Convention} (h : ∀ c ∈ meanings, c.Places) (tag : String) :
    (planOf tag meanings).attrs = none ∧ (planOf tag meanings).create = none
      ∧ (planOf tag meanings).removals = meanings.map Convention.span := by
  induction meanings with
  | nil => exact ⟨rfl, rfl, rfl⟩
  | cons c meanings ih =>
    obtain ⟨hc, hmeanings⟩ := List.forall_mem_cons.1 h
    obtain ⟨hattrs, hcreate, hremovals⟩ := ih hmeanings
    cases hc
    exact ⟨hattrs, hcreate, congrArg _ hremovals⟩

/-- The spans of the attributes that ask for something. -/
def askingSpans (o : Options) (es : List ElementView) : List Span :=
  ((allAttributes es).filter fun a => a.Asks o).map Attribute.span

/-- The bytes of a text that are in none of the spans. -/
def bytesOutside (spans : List Span) (cs : List Char) : List UInt8 :=
  (List.range (width cs)).flatMap fun offset =>
    if spans.any (·.contains offset) then [] else (bytes cs)[offset]?.toList

/-- All attributes of the elements that ask for something are well-formed positions. -/
def PlacesOnly (o : Options) (es : List ElementView) : Prop := ∀ a ∈ allAttributes es, a.Asks o → a.Places o

namespace PlacesOnly

variable {es : List ElementView}

theorem places_conventions (h : PlacesOnly o es) {e : ElementView} (he : e ∈ es) :
    ∀ c ∈ o.conventions e.attributes, c.Places :=
  Options.places_conventions fun a ha => h a (List.mem_flatMap.2 ⟨e, he, ha⟩)

theorem plan (h : PlacesOnly o es) : ∀ p ∈ es.map (ElementPlan.of o), p.attrs = none ∧ p.create = none := by
  intro p hp
  obtain ⟨e, he, rfl⟩ := List.mem_map.1 hp
  obtain ⟨hattrs, hcreate, -⟩ := planOf_of_places (h.places_conventions he) e.name
  exact ⟨hattrs, hcreate⟩

/-- The changes are that the positions are dropped. -/
theorem changes_eq (h : PlacesOnly o es) (f : SourceFile) : changes o f es = (askingSpans o es).map (·, "") := by
  induction es with
  | nil => rfl
  | cons e es ih =>
    have htail : PlacesOnly o es := by
      intro a ha
      obtain ⟨e', he', hmem⟩ := List.mem_flatMap.1 ha
      exact h a (List.mem_flatMap.2 ⟨e', List.mem_cons_of_mem e he', hmem⟩)
    obtain ⟨hattrs, hcreate, hremovals⟩ := planOf_of_places (h.places_conventions (List.mem_cons_self ..)) e.name
    have hspans : askingSpans o (e :: es) = (o.conventions e.attributes).map Convention.span ++ askingSpans o es := by
      simp [askingSpans, allAttributes, o.map_span_conventions, ← o.isSome_convention?]
    have hfirst : (ElementPlan.of o e).changes ((ElementPlan.of o e).callText o f) =
        ((o.conventions e.attributes).map Convention.span).map (·, "") := by
      rw [ElementPlan.changes, ElementPlan.of, hattrs, hcreate, hremovals, List.append_nil]
    rw [hspans, List.map_append, ← ih htail, ← hfirst]
    rfl

theorem needsRuntime {d : Document} (h : PlacesOnly o d.fragment.elements) : needsRuntime o d = false := by
  refine List.any_eq_false.2 fun p hp => ?_
  obtain ⟨hattrs, hcreate⟩ := h.plan p hp
  simp [ElementPlan.expands, hattrs, hcreate]

theorem hoists {d : Document} (h : PlacesOnly o d.fragment.elements) (f : SourceFile) : hoists o f d = [] := by
  refine List.filterMap_eq_nil_iff.2 fun p hp => ?_
  rw [ElementPlan.hoisted?, (h.plan p hp).2]
  rfl

/-- A file with nothing but positions in it is never refused. -/
theorem not_throws (h : PlacesOnly o (read f.text).document.fragment.elements) (hclean : (read f.text).faults = [])
    (error : ExpansionError) : ¬ (expansion o f).Throws error := by
  intro hthrows
  cases fails_of_throws hthrows with
  | markup hfaults => cases hclean.symm.trans hfaults
  | position he hmem hrefuses =>
    obtain ⟨hvalue⟩ := h.places_conventions he _ hmem
    obtain ⟨shape, hshape⟩ := hvalue _ rfl
    obtain ⟨hfault⟩ := hrefuses
    cases hshape.symm.trans hfault
  | attrs hp hattrs _ => cases hattrs.symm.trans (h.plan _ (List.mem_filter.1 hp).1).1
  | trap hp hattrs _ => cases hattrs.symm.trans (h.plan _ (List.mem_filter.1 hp).1).1
  | splice hrefused =>
    obtain ⟨x, hx⟩ := spliced_allSplices o f
    cases hx.symm.trans hrefused

/-- An expanded file with nothing but positions in it has lost these. -/
theorem bytes_expand (h : PlacesOnly o (read f.text).document.fragment.elements) {j : Journal} {x : Expanded}
    (hx : (j.expand o f).1 = .ok (some x)) :
    bytes x.code.toList = bytesOutside (askingSpans o (read f.text).document.fragment.elements) f.text.toList := by
  have hnew : newScripts o f (read f.text).document = "" := by
    simp [newScripts, h.needsRuntime, h.hoists f]
  have hat : expandedAt o f (read f.text).document = fun offset =>
      if (askingSpans o (read f.text).document.fragment.elements).any (·.contains offset) then []
      else (bytes f.text.toList)[offset]?.toList := by
    funext offset
    have hscript : scriptText o f (read f.text).document offset = "" := by
      simp [scriptText, h.needsRuntime, h.hoists f]
    have hchanged : ∀ spans : List Span, changedText (spans.map (·, "")) offset = "" := by
      intro spans
      rw [changedText]
      cases hfind : (spans.map (·, "")).find? (·.1.start = offset) with
      | none => rfl
      | some c =>
        obtain ⟨span, -, rfl⟩ := List.mem_map.1 (List.mem_of_find?_eq_some hfind)
        rfl
    rw [expandedAt, hscript, h.changes_eq f, hchanged, List.any_map]
    rfl
  rw [bytes_code hx, hnew, hat, List.range_succ, List.flatMap_append, bytesOutside]
  simp [length_bytes]

end PlacesOnly

/-- The search for the names and the reading agree. In a source without the names no element gets a plan, and
nothing is remarked. A file without faults is left as it is if and only if none of its attributes asks for
something, and with nothing but positions in it, it becomes its own text without these. -/
theorem expand_as_asked (o : Options) (f : SourceFile) :
    let es := (read f.text).document.fragment.elements
    (o.mentionedIn f.text = false → (ElementPlan.ofElements o f es).outcome = (.ok [], []))
      ∧ ((read f.text).faults = [] → ∀ j : Journal,
        ((j.expand o f).1 = .ok none ↔ ∀ a ∈ allAttributes es, ¬ a.Asks o)
          ∧ ((∃ a ∈ allAttributes es, a.Asks o) → PlacesOnly o es → ∃ x, (j.expand o f).1 = .ok (some x)
            ∧ bytes x.code.toList = bytesOutside (askingSpans o es) f.text.toList)) := by
  intro es
  refine ⟨fun hmention => ?_, fun hclean j => ⟨expand_eq_none_iff hclean j, fun hasks hplaces => ?_⟩⟩
  · rw [ElementPlan.ofElements_of_conventions (conventions_of_not_mentionedIn hmention)]
    rfl
  · obtain ⟨a, ha, hask⟩ := hasks
    rcases hresult : (j.expand o f).1 with error | _ | x
    · exact (hplaces.not_throws hclean error (throws_of_outcome hresult)).elim
    · exact ((expand_eq_none_iff hclean j).1 hresult a ha hask).elim
    · exact ⟨x, rfl, hplaces.bytes_expand hresult⟩

end Reading

/-- A file with a position in it and nothing that is placed there. -/
def lonePositionFile : SourceFile := ⟨none, "<section><div stylex-create-at=\x7b1\x7d>x</div></section>"⟩

theorem expand_as_asked_lonePositionFile :
    (ElementPlan.ofElements {} ⟨none, "<i/>"⟩ (read "<i/>").document.fragment.elements).outcome = (.ok [], [])
      ∧ (({} : Journal).expand {} lonePositionFile).1 ≠ .ok none
      ∧ ∃ x, (({} : Journal).expand {} lonePositionFile).1 = .ok (some x)
        ∧ bytes x.code.toList = bytes "<section><div >x</div></section>".toList := by
  have hattributes : allAttributes (read lonePositionFile.text).document.fragment.elements =
      [.normal ⟨14, 34⟩ "stylex-create-at" (.expression ⟨31, 34⟩ ⟨⟨32, 33⟩, "1"⟩)] := by decide +kernel
  have hasks : ∃ a ∈ allAttributes (read lonePositionFile.text).document.fragment.elements,
      a.Asks ({} : Options) := by decide +kernel
  have hplaces : PlacesOnly {} (read lonePositionFile.text).document.fragment.elements := by
    intro a ha _
    rw [hattributes, List.mem_singleton] at ha
    subst ha
    refine .position (by decide) (by decide) fun e he => ?_
    cases he
    have hok : (Script.Shape.ofText? "1").isOk = true := by decide +kernel
    cases hshape : Script.Shape.ofText? "1" with
    | ok shape => exact ⟨shape, rfl⟩
    | error fault =>
      rw [hshape] at hok
      cases hok
  obtain ⟨hnone, hlost⟩ := (expand_as_asked {} lonePositionFile).2 (by decide +kernel) {}
  obtain ⟨x, hx, hbytes⟩ := hlost hasks hplaces
  refine ⟨(expand_as_asked {} ⟨none, "<i/>"⟩).1 (by decide +kernel), fun h => ?_, x, hx, hbytes.trans ?_⟩
  · obtain ⟨a, ha, hask⟩ := hasks
    exact hnone.1 h a ha hask
  · decide +kernel

/-- Options with one name for the value for the runtime and for the position. -/
def sharedNameOptions : Options := { attrsAttribute := "x", positionAttribute := "x" }

def sharedNameFile : SourceFile := ⟨none, "<div x></div>"⟩

/-- The name has its first meaning, and without an expression it has none. So a file is left as it is although an
attribute of it is named after the position. -/
theorem expand_sharedNameFile :
    sharedNameOptions.invalid? = none ∧ sharedNameOptions.mentionedIn sharedNameFile.text = true
      ∧ (read sharedNameFile.text).faults = []
      ∧ (∃ a ∈ allAttributes (read sharedNameFile.text).document.fragment.elements, ∃ span value,
        a = .normal span sharedNameOptions.positionAttribute value)
      ∧ (({} : Journal).expand sharedNameOptions sharedNameFile).1 = .ok none := by
  have hclean : (read sharedNameFile.text).faults = [] := by decide +kernel
  have hattributes : allAttributes (read sharedNameFile.text).document.fragment.elements =
      [.normal ⟨5, 6⟩ "x" .absent] := by decide +kernel
  refine ⟨by decide, by decide +kernel, hclean, ?_, (expand_eq_none_iff hclean _).2 (by decide +kernel)⟩
  rw [hattributes]
  exact ⟨_, List.mem_singleton_self _, ⟨5, 6⟩, .absent, rfl⟩

end Restyle
