import Restyle.Proofs.Expansion.Statements

/-! The expansion of a file as a weave. What an expansion does to its file, it does to attributes and at the ends of
scripts only; so the file amends the document, and what comes of it is read as an amended one. -/

namespace Restyle

open Markup Remarking Text

variable {o : Options} {f : SourceFile} {x : Expanded}

/-! ### Changes and scripts -/

theorem changedText_eq_empty {cs : List (Span × String)} {offset : Nat} (h : ∀ c ∈ cs, c.1.start ≠ offset) :
    changedText cs offset = "" := by
  rw [changedText, List.find?_eq_none.2 (by simpa using h)]
  rfl

/-- The text of a change is put where the change starts. -/
theorem changedText_of_mem {cs : List (Span × String)} (hapart : (cs.map Prod.fst).Pairwise Span.Apart)
    (hne : ∀ c ∈ cs, c.1.start < c.1.stop) {c : Span × String} (hc : c ∈ cs) :
    changedText cs c.1.start = c.2 := by
  have hin : ∀ c ∈ cs, c.1.contains c.1.start = true := fun c hc => Span.contains_iff.2 ⟨Nat.le_refl _, hne c hc⟩
  cases hfind : cs.find? (·.1.start = c.1.start) with
  | none => simpa using List.find?_eq_none.1 hfind c hc
  | some c' =>
    have hc' := List.mem_of_find?_eq_some hfind
    have hstart : c'.1.start = c.1.start := by simpa using List.find?_some hfind
    have hsame : c' = c := Span.eq_of_contains hapart hc' hc (hin c' hc') (hstart ▸ hin c hc)
    rw [changedText, hfind, hsame]
    rfl

/-- A script of the file takes in its statement at a boundary. -/
theorem isBoundary_intake {context : ScriptContext} {s : Script}
    (hs : (read f.text).document.script? context = some s) : isBoundary f.text.toList (s.intake context) = true := by
  have hcuts : ∀ s ∈ (read f.text).document.moduleScript.toList ++ (read f.text).document.instanceScript.toList,
      s.contentSpan.Cuts f.text.toList := by
    intro s hs
    have hraw : (s.span, s.contentSpan) ∈ (read f.text).document.raws :=
      List.mem_append_left _ (List.mem_map_of_mem (f := fun s : Script => (s.span, s.contentSpan)) hs)
    exact ((sound_read_cuts f.text).raws_sound _ hraw).content_cuts
  cases context with
  | perModule => exact (hcuts s (List.mem_append_left _ (Option.mem_toList.2 hs))).stop
  | perInstance => exact (hcuts s (List.mem_append_right _ (Option.mem_toList.2 hs))).start

/-- An attribute with a meaning is written with a name that is looked for, or is a spread or a shorthand. -/
theorem named_of_convention? (hnames : ∀ name ∈ o.attributeNames, name.toList.head? ≠ some '/') {a : Attribute}
    {m : Convention} (h : o.convention? a = some m) : a.Expandable ∧ (m.attrs? = none → a.Named) := by
  obtain ⟨word, hword, hmem⟩ := Options.exists_word_of_convention? h
  cases a with
  | normal span name value =>
    cases hword
    exact ⟨hnames _ hmem, fun _ => hnames _ hmem⟩
  | spread span value =>
    refine ⟨trivial, fun hnone => ?_⟩
    simp only [Options.convention?] at h
    split at h
    · cases h
      cases hnone
    · cases h
  | shorthand span value =>
    refine ⟨trivial, fun hnone => ?_⟩
    simp only [Options.convention?] at h
    split at h
    · cases h
      cases hnone
    · cases h
  | directive span kind name modifiers value => cases h
  | attach span value => cases h

/-! ### Calls -/

namespace Options

/-- A call spreads what the runtime makes of the arguments, which commas separate. -/
theorem call_eq (o : Options) (args : List String) :
    o.call args = "\x7b..." ++ o.runtimeAlias ++ ".attrs(" ++ String.intercalate ", " args ++ ")\x7d" := rfl

/-- What is spread in a call. -/
def spreadText (o : Options) (args : List String) : List Char :=
  (o.runtimeAlias ++ ".attrs(" ++ String.intercalate ", " args ++ ")").toList

theorem toList_call (o : Options) (args : List String) :
    (o.call args).toList = '\x7b' :: (('.' :: '.' :: '.' :: o.spreadText args) ++ ['\x7d']) := by
  simp [call_eq, spreadText]

theorem trim_call (o : Options) (args : List String) :
    trim ('.' :: '.' :: '.' :: o.spreadText args) = ['.', '.', '.'] ++ o.spreadText args := by
  refine trim_eq_self_iff.2 ⟨?_, ?_⟩
  · rintro c ⟨⟩
    decide
  · intro c hc
    have hlast : ('.' :: '.' :: '.' :: o.spreadText args).getLast? = some ')' := by
      simp [spreadText, List.getLast?_cons]
    rw [hlast] at hc
    cases hc
    decide

end Options

section Reading

variable [Script.ExpressionReader]

/-! ### The weave -/

/-- What the expansion of a file puts at its offsets, and the characters that it leaves out. -/
def SourceFile.weave (o : Options) (f : SourceFile) : Weave where
  put offset := (scriptText o f (read f.text).document offset
    ++ changedText (changes o f (read f.text).document.fragment.elements) offset).toList
  drops offset := (changes o f (read f.text).document.fragment.elements).any (·.1.contains offset)

theorem scriptText_of_not_boundary {offset : Nat} (h : isBoundary f.text.toList offset = false) :
    scriptText o f (read f.text).document offset = "" := by
  have hnone : ∀ context, ((read f.text).document.script? context).any (·.intake context = offset) = false := by
    intro context
    cases hs : (read f.text).document.script? context with
    | none => rfl
    | some s =>
      refine decide_eq_false fun hoffset => ?_
      rw [← hoffset, isBoundary_intake hs] at h
      cases h
  rw [scriptText_eq, takenText, takenText, hnone, hnone]
  rfl

/-- Changes and texts for scripts stand at boundaries of the file. -/
theorem respects_weave (o : Options) (f : SourceFile) : (f.weave o).Respects f.text.toList := by
  have hcuts := placed_changes o f
  refine ⟨fun offset hoffset => ?_, fun before c after hcs offset hlo hhi => ?_⟩
  · have hchanged : changedText (changes o f (read f.text).document.fragment.elements) offset = "" := by
      refine changedText_eq_empty fun c hc hstart => ?_
      rw [← hstart, (hcuts c hc).1.start] at hoffset
      cases hoffset
    show (scriptText o f (read f.text).document offset ++ _).toList = []
    rw [scriptText_of_not_boundary hoffset, hchanged]
    rfl
  · rw [Bool.eq_iff_iff]
    simp only [SourceFile.weave, List.any_eq_true]
    refine exists_congr fun change => and_congr_right fun hchange => ?_
    -- neither end of the span is inside the character
    have hend : ∀ {n}, isBoundary f.text.toList n = true → (n ≤ offset ↔ n ≤ width before) := by
      intro n hn
      constructor
      · intro hle
        by_contra hnot
        rw [hcs, Weave.isBoundary_inside (by omega) (by omega)] at hn
        cases hn
      · intro hle
        omega
    have hstart := hend (hcuts change hchange).1.start
    have hstop := hend (hcuts change hchange).1.stop
    simp only [Span.contains_iff]
    omega

/-- What the script of a context takes in is put where it takes it in. -/
theorem takenText_infix_put (o : Options) (f : SourceFile) (offset : Nat) (context : ScriptContext) :
    (takenText o f (read f.text).document offset context).toList <:+: (f.weave o).put offset := by
  have hput : (f.weave o).put offset = ((takenText o f (read f.text).document offset .perModule).toList
      ++ (takenText o f (read f.text).document offset .perInstance).toList)
      ++ (changedText (changes o f (read f.text).document.fragment.elements) offset).toList := by
    rw [← String.toList_append, ← String.toList_append, ← scriptText_eq]
    rfl
  rw [hput]
  refine List.IsInfix.trans ?_ (List.prefix_append ..).isInfix
  cases context with
  | perModule => exact (List.prefix_append ..).isInfix
  | perInstance => exact (List.suffix_append ..).isInfix

/-- An expanded file is what becomes of its source, behind the scripts that are made for it. -/
theorem toList_code {j : Journal} (h : (j.expand o f).1 = .ok (some x)) :
    x.code.toList = (newScripts o f (read f.text).document).toList ++ (f.weave o).text 0 f.text.toList := by
  apply bytes_injective
  have hrespects : (f.weave o).Respects ([] ++ f.text.toList) := respects_weave o f
  rw [bytes_append, bytes_code h, List.range_eq_range']
  exact congrArg (_ ++ ·) (Weave.bytes_text hrespects).symm

/-! ### Where changes come from -/

/-- A change of a plan is one of an attribute with a meaning. It is dropped, or it gives way to the call. -/
theorem origin_of_planOf {tag : String} {meanings : List Convention} {call : String} {c : Span × String}
    (hc : c ∈ (planOf tag meanings).changes call) : ∃ m ∈ meanings, m.span = c.1
      ∧ ((c.2 = "" ∧ m.attrs? = none) ∨ (c.2 = call ∧ (planOf tag meanings).expands = true)) := by
  have hattrs : ∀ anchor ∈ (planOf tag meanings).attrs, ∃ m ∈ meanings, m.span = anchor.span := by
    intro anchor hanchor
    obtain ⟨m, hm, hmeaning⟩ := List.mem_filterMap.1 (List.mem_of_getLast? hanchor)
    cases m <;> cases hmeaning
    exact ⟨_, hm, rfl⟩
  have hcreate : ∀ anchor ∈ (planOf tag meanings).create, ∃ m ∈ meanings, m.span = anchor.span ∧ m.attrs? = none := by
    intro anchor hanchor
    obtain ⟨m, hm, hmeaning⟩ := List.mem_filterMap.1 (List.mem_of_getLast? hanchor)
    cases m <;> cases hmeaning
    exact ⟨_, hm, rfl, rfl⟩
  rw [ElementPlan.changes, List.mem_append] at hc
  rcases hc with hc | hc
  · obtain ⟨span, hspan, rfl⟩ := List.mem_map.1 hc
    obtain ⟨m, hm, hmeaning⟩ := List.mem_filterMap.1 hspan
    cases m <;> cases hmeaning
    exact ⟨_, hm, rfl, .inl ⟨rfl, rfl⟩⟩
  · cases ha : (planOf tag meanings).attrs with
    | some anchor =>
      rw [ha] at hc
      rcases List.mem_cons.1 hc with rfl | hc
      · obtain ⟨m, hm, hspan⟩ := hattrs anchor ha
        exact ⟨m, hm, hspan, .inr ⟨rfl, by simp [ElementPlan.expands, ha]⟩⟩
      · obtain ⟨create, hmem, rfl⟩ := List.mem_map.1 hc
        obtain ⟨m, hm, hspan, hnone⟩ := hcreate create (Option.mem_toList.1 hmem)
        exact ⟨m, hm, hspan, .inl ⟨rfl, hnone⟩⟩
    | none =>
      rw [ha] at hc
      cases hb : (planOf tag meanings).create with
      | none =>
        rw [hb] at hc
        cases hc
      | some create =>
        rw [hb] at hc
        rw [List.mem_singleton.1 hc]
        obtain ⟨m, hm, hspan, -⟩ := hcreate create hb
        exact ⟨m, hm, hspan, .inr ⟨rfl, by simp [ElementPlan.expands, hb]⟩⟩

theorem origin_of_changes {es : List ElementView} {c : Span × String} (hc : c ∈ changes o f es) :
    ∃ e ∈ es, ∃ a ∈ e.attributes, a.span = c.1 ∧ ∃ m, o.convention? a = some m
      ∧ ((c.2 = "" ∧ m.attrs? = none)
        ∨ (c.2 = (ElementPlan.of o e).callText o f ∧ (ElementPlan.of o e).expands = true)) := by
  obtain ⟨p, hp, hc⟩ := List.mem_flatMap.1 hc
  obtain ⟨e, he, rfl⟩ := List.mem_map.1 hp
  obtain ⟨m, hm, hspan, hkind⟩ := origin_of_planOf hc
  obtain ⟨a, ha, hmeaning⟩ := List.mem_filterMap.1 hm
  exact ⟨e, he, a, ha, by rw [← hspan, Options.span_convention? hmeaning], m, hmeaning, hkind⟩

/-! ### Files that are amended -/

/-- What the options and a file must be like for the expansion to be read as it is meant. -/
structure Orderly (o : Options) (f : SourceFile) : Prop where
  /-- No name that is looked for can be taken for the end of a tag. -/
  names : ∀ name ∈ o.attributeNames, name.toList.head? ≠ some '/'
  /-- A call ends at its last brace: nothing in it, as a comment up to the end of a line, goes on behind it. -/
  calls : ∀ e ∈ (read f.text).document.fragment.elements, (ElementPlan.of o e).expands = true →
    ∃ raw, ((ElementPlan.of o e).callText o f).toList = '{' :: (raw ++ ['}']) ∧ Embedded.Closed raw
  /-- A script that takes in a statement is not closed in its opening tag. -/
  scripts : ∀ context s, (read f.text).document.script? context = some s →
    statement? o f (read f.text).document context ≠ none → s.contentSpan.stop < s.span.stop
  /-- The name of the module of the runtime and the definitions do not close a script. -/
  source : StaysInside o.importSource
  definitions : ∀ h ∈ hoists o f (read f.text).document, StaysInside h.text

section Amends

variable {e : ElementView} {a : Attribute} {s : Script} {context : ScriptContext} {offset : Nat} {c : Span × String}

theorem Orderly.statements (h : Orderly o f) (ho : o.invalid? = none) (context : ScriptContext) :
    ∀ statement ∈ statement? o f (read f.text).document context, StaysInside statement := fun _ hstatement =>
  staysInside_of_statement? ho h.source h.definitions hstatement

/-- A script takes something in only at an end of its content. -/
theorem Orderly.takenText_eq (h : Orderly o f) (hscripts : ∀ s, (read f.text).document.script? context = some s →
      s.contentSpan.stop < s.span.stop → offset ≠ s.contentSpan.start ∧ offset ≠ s.contentSpan.stop) :
    takenText o f (read f.text).document offset context = "" := by
  rw [takenText]
  split
  · next hany =>
    obtain ⟨s, hs, hintake⟩ := (Option.any_eq_true _ _).1 hany
    cases hstatement : statement? o f (read f.text).document context with
    | none => rfl
    | some statement =>
      have hcontent := h.scripts context s hs (by simp [hstatement])
      obtain ⟨hstart, hstop⟩ := hscripts s hs hcontent
      cases context with
      | perModule => exact absurd (of_decide_eq_true hintake).symm hstop
      | perInstance => exact absurd (of_decide_eq_true hintake).symm hstart
  · rfl

theorem Orderly.scriptText_eq (h : Orderly o f) (hscripts : ∀ context s, (read f.text).document.script? context = some s →
      s.contentSpan.stop < s.span.stop → offset ≠ s.contentSpan.start ∧ offset ≠ s.contentSpan.stop) :
    scriptText o f (read f.text).document offset = "" := by
  rw [Restyle.scriptText_eq, h.takenText_eq (hscripts _), h.takenText_eq (hscripts _)]
  rfl

/-- Nothing is put for a script where an attribute is. -/
theorem Orderly.scriptText_of_contains (h : Orderly o f) (hclean : (read f.text).faults = [])
    (he : e ∈ (read f.text).document.fragment.elements) (ha : a ∈ e.attributes) (ho : a.span.contains offset = true) :
    scriptText o f (read f.text).document offset = "" := by
  refine h.scriptText_eq fun context s hs hcontent => ?_
  rw [← not_or]
  intro hend
  rw [not_contains_of_script? hclean he ha hs hcontent hend] at ho
  cases ho

/-- A change that has a byte of an attribute is one of this attribute. -/
theorem change_of_contains (he : e ∈ (read f.text).document.fragment.elements) (ha : a ∈ e.attributes)
    (hc : c ∈ changes o f (read f.text).document.fragment.elements) (hoa : a.span.contains offset = true)
    (hoc : c.1.contains offset = true) : c.1 = a.span ∧ ∃ m, o.convention? a = some m
      ∧ ((c.2 = "" ∧ m.attrs? = none) ∨ ∃ e' ∈ (read f.text).document.fragment.elements,
        c.2 = (ElementPlan.of o e').callText o f ∧ (ElementPlan.of o e').expands = true) := by
  obtain ⟨e', he', a', ha', hspan, m, hmeaning, hkind⟩ := origin_of_changes hc
  have hsame : a' = a := Span.eq_of_contains (sound_read_cuts f.text).fragment.attributes_apart
    (List.mem_flatMap.2 ⟨e', he', ha'⟩) (List.mem_flatMap.2 ⟨e, he, ha⟩) (hspan ▸ hoc) hoa
  rw [hsame] at hspan hmeaning
  exact ⟨hspan.symm, m, hmeaning, hkind.imp_right fun hcall => ⟨e', he', hcall⟩⟩

/-- Where no change is, nothing is put for one. -/
theorem changes_of_not_contains
    (hnone : ∀ c ∈ changes o f (read f.text).document.fragment.elements, c.1.contains offset = false) :
    changedText (changes o f (read f.text).document.fragment.elements) offset = ""
      ∧ (f.weave o).drops offset = false := by
  refine ⟨changedText_eq_empty fun c hc hstart => ?_, List.any_eq_false.2 fun c hc => by simp [hnone c hc]⟩
  have hlt := (placed_changes o f c hc).2.1
  rcases Span.contains_eq_false_iff.1 (hnone c hc) with h | h <;> omega

/-- Where no attribute of an element is, no change is. -/
theorem not_contains_of_attributes
    (hnone : ∀ e ∈ (read f.text).document.fragment.elements, ∀ a ∈ e.attributes, a.span.contains offset = false) :
    ∀ c ∈ changes o f (read f.text).document.fragment.elements, c.1.contains offset = false := by
  intro c hc
  obtain ⟨e, he, a, ha, hspan, -⟩ := origin_of_changes hc
  exact hspan ▸ hnone e he a ha

/-- A changed attribute gives way to the text of the change. -/
theorem Orderly.replaces (h : Orderly o f) (hclean : (read f.text).faults = [])
    (hc : c ∈ changes o f (read f.text).document.fragment.elements) : (f.weave o).Replaces c.1 c.2.toList := by
  have hne : ∀ c ∈ changes o f (read f.text).document.fragment.elements, c.1.start < c.1.stop := fun c hc =>
    (placed_changes o f c hc).2.1
  have hapart := pairwise_changes (sound_read_cuts f.text).fragment o f
  obtain ⟨e, he, a, ha, hspan, -⟩ := origin_of_changes hc
  have hscript : ∀ offset, c.1.contains offset = true → scriptText o f (read f.text).document offset = "" :=
    fun offset ho => h.scriptText_of_contains hclean he ha (hspan ▸ ho)
  refine ⟨?_, fun offset hlo hhi => ?_, fun offset hlo hhi =>
    List.any_eq_true.2 ⟨c, hc, Span.contains_iff.2 ⟨hlo, hhi⟩⟩⟩
  · show (scriptText o f (read f.text).document c.1.start ++ _).toList = _
    rw [hscript _ (Span.contains_iff.2 ⟨Nat.le_refl _, hne c hc⟩), changedText_of_mem hapart hne hc]
    simp
  · have hin : c.1.contains offset = true := Span.contains_iff.2 ⟨Nat.le_of_lt hlo, hhi⟩
    show (scriptText o f (read f.text).document offset ++ _).toList = _
    rw [hscript _ hin, changedText_eq_empty fun c' hc' hstart => ?_]
    · rfl
    · -- a change that starts here would be the same change
      have hin' : c'.1.contains offset = true := Span.contains_iff.2 ⟨Nat.le_of_eq hstart, hstart ▸ hne c' hc'⟩
      rw [Span.eq_of_contains hapart hc' hc hin' hin] at hstart
      omega

/-- What becomes of an attribute of an element. -/
theorem Orderly.edits (h : Orderly o f) (hclean : (read f.text).faults = [])
    (he : e ∈ (read f.text).document.fragment.elements) (ha : a ∈ e.attributes) : Edits (f.weave o) a := by
  have hstart : a.span.contains a.span.start = true :=
    Span.contains_iff.2 ⟨Nat.le_refl _, (exists_shows he ha).1⟩
  by_cases hchanged : ∃ c ∈ changes o f (read f.text).document.fragment.elements, c.1 = a.span
  · obtain ⟨c, hc, hspan⟩ := hchanged
    obtain ⟨-, m, hmeaning, hkind⟩ := change_of_contains he ha hc hstart (hspan ▸ hstart)
    obtain ⟨hexpandable, hnamed⟩ := named_of_convention? h.names hmeaning
    have hreplaces := h.replaces hclean hc
    rw [hspan] at hreplaces
    rcases hkind with ⟨hdrop, hnone⟩ | ⟨e', he', hcall, hexpands⟩
    · rw [hdrop] at hreplaces
      exact .drop hreplaces (hnamed hnone)
    · obtain ⟨raw, hraw, hclosed⟩ := h.calls e' he' hexpands
      obtain ⟨args, hbody⟩ : ∃ args, raw = '.' :: '.' :: '.' :: o.spreadText args := by
        rw [ElementPlan.callText, Options.toList_call] at hraw
        exact ⟨_, (List.append_cancel_right (List.cons.inj hraw).2).symm⟩
      rw [hcall, hraw] at hreplaces
      refine .spread raw hreplaces hclosed ?_ hexpandable
      rw [hbody, Options.trim_call]
      exact List.prefix_append _ _
  · refine .keep fun offset hlo hhi => ?_
    have hin : a.span.contains offset = true := Span.contains_iff.2 ⟨hlo, hhi⟩
    have hnone : ∀ c ∈ changes o f (read f.text).document.fragment.elements, c.1.contains offset = false := by
      intro c hc
      rw [← Bool.not_eq_true]
      exact fun hoc => hchanged ⟨c, hc, (change_of_contains he ha hc hin hoc).1⟩
    obtain ⟨htext, hdrops⟩ := changes_of_not_contains hnone
    refine ⟨?_, hdrops⟩
    show (scriptText o f (read f.text).document offset ++ _).toList = _
    rw [h.scriptText_of_contains hclean he ha hin, htext]
    rfl

/-- At the ends of the content of a script only what the script takes in is put. -/
theorem Orderly.put_end (h : Orderly o f) (hclean : (read f.text).faults = [])
    (hs : (read f.text).document.script? context = some s) (hcontent : s.contentSpan.stop < s.span.stop)
    (hend : offset = s.contentSpan.start ∨ offset = s.contentSpan.stop) :
    (f.weave o).put offset = (takenText o f (read f.text).document offset context).toList := by
  have hchanged := (changes_of_not_contains (not_contains_of_attributes (o := o) fun e he a ha =>
    not_contains_of_script? hclean he ha hs hcontent hend)).1
  have hothers : ∀ context', context' ≠ context → takenText o f (read f.text).document offset context' = "" := by
    intro context' hne
    refine h.takenText_eq fun t ht htcontent => ?_
    rw [← not_or]
    exact fun htend => hne (context_eq_of_script? hclean ht htcontent htend hs hcontent hend)
  show (scriptText o f (read f.text).document offset ++ _).toList = _
  rw [hchanged, Restyle.scriptText_eq]
  cases context with
  | perModule => simp [hothers .perInstance (by decide)]
  | perInstance => simp [hothers .perModule (by decide)]

theorem takenText_of_script? (hs : (read f.text).document.script? context = some s) :
    takenText o f (read f.text).document offset context = if s.intake context = offset then
      (statement? o f (read f.text).document context).elim "" (statementText · context) else "" := by
  simp [takenText, hs]

/-- A script with its statement. -/
theorem Orderly.filled_eq (h : Orderly o f) (hclean : (read f.text).faults = [])
    (hs : (read f.text).document.script? context = some s) (hcontent : s.contentSpan.stop < s.span.stop) :
    (f.weave o).filled s.contentSpan.start s.content.toList =
      withStatement s.content.toList (statement? o f (read f.text).document context) context := by
  obtain ⟨hwidth, -⟩ := content_of_script? hclean hs hcontent
  rw [Weave.filled, ← hwidth, h.put_end hclean hs hcontent (.inl rfl), h.put_end hclean hs hcontent (.inr rfl),
    takenText_of_script? hs, takenText_of_script? hs]
  by_cases hnil : s.content.toList = []
  · have hsame : s.contentSpan.stop = s.contentSpan.start := by rw [hwidth, hnil]; rfl
    cases context <;> simp [hnil, withStatement, Script.intake, hsame]
  · have hne : s.contentSpan.stop ≠ s.contentSpan.start := by
      intro hsame
      exact hnil (width_eq_zero (by omega))
    cases context <;> simp [hnil, withStatement, Script.intake, hne, hne.symm]

/-- The expansion of an orderly file amends its document. -/
theorem Orderly.amends (h : Orderly o f) (ho : o.invalid? = none) (hclean : (read f.text).faults = []) :
    Amends (f.weave o) (read f.text).document where
  put offset hnone hscripts := by
    show (scriptText o f (read f.text).document offset ++ _).toList = []
    rw [h.scriptText_eq hscripts, (changes_of_not_contains (not_contains_of_attributes hnone)).1]
    rfl
  drops offset hnone := (changes_of_not_contains (not_contains_of_attributes hnone)).2
  edits e he a ha := h.edits hclean he ha
  free context s hs hcontent := by
    obtain ⟨-, hfree⟩ := content_of_script? hclean hs hcontent
    rw [h.filled_eq hclean hs hcontent]
    exact (free_iff (by decide)).2
      (staysInside_withStatement context ((free_iff (by decide)).1 hfree) (h.statements ho context))

end Amends

/-! ### Expanded files -/

/-- An expanded file is read as the amended document, behind the scripts that are made for it. -/
theorem Orderly.amended_expand {j : Journal} (h : Orderly o f) (ho : o.invalid? = none)
    (hx : (j.expand o f).1 = .ok (some x)) : ∃ first, Amended (f.weave o) first (read f.text).document (read x.code)
      ∧ ∀ context, (first.script? context).map Script.unplaced =
        (newScript? o f (read f.text).document context).map Script.unplaced := by
  obtain ⟨hclean, -⟩ := gives_expansion (gives_of_outcome hx)
  obtain ⟨first, hleads, hbefore, hscripts⟩ := exists_before (h.statements ho) (toList_code hx)
  refine ⟨first, (h.amends ho hclean).amended hclean (fun context hsome => ?_) hleads hbefore, hscripts⟩
  have hnone : newScript? o f (read f.text).document context = none :=
    if_pos (Option.isSome_iff_ne_none.2 hsome)
  have hmap := hscripts context
  rw [hnone] at hmap
  simpa using hmap

end Reading

end Restyle
