import Restyle.Proofs.Expansion.Amending
import Restyle.Proofs.Expansion.Leftovers

/-! Expanded files that are read again. The expansion of an orderly file has no fault. The statements stand in the
scripts in which they are executed. If no attribute of an element is superseded by a later one, none with a
meaning is left, and a second expansion finds nothing to do. -/

namespace Restyle

open Markup Remarking Text

variable {o : Options} {f : SourceFile} {x : Expanded} {j : Journal}

/-- A statement stands where it is executed: at the start of the script of an instance, or in that of a module. -/
def Markup.Script.Holds (s : Script) (statement : String) : ScriptContext → Prop
  | .perModule => statement.toList <:+: s.content.toList
  | .perInstance => statement.toList <+: s.content.toList

/-! ### Meanings -/

/-- No attribute of an element takes the place of an earlier one. -/
def Unrivalled (o : Options) (f : SourceFile) : Prop :=
  ∀ e ∈ (read f.text).document.fragment.elements, (o.conventions e.attributes).Pairwise fun m m' => ¬ m.Rivals m'

theorem single?_unplaced (v : AttributeValue) : v.unplaced.single? = v.single?.map Expression.unplaced := by
  cases v with
  | absent => rfl
  | expression => rfl
  | parts ps =>
    cases ps with
    | nil => rfl
    | cons p ps => cases p <;> cases ps <;> rfl

/-- Whether an attribute has a meaning does not depend on places. -/
theorem isSome_convention?_unplaced (o : Options) (a : Attribute) :
    (o.convention? a.unplaced).isSome = (o.convention? a).isSome := by
  cases a with
  | normal span name value =>
    simp only [Attribute.unplaced, Options.convention?, single?_unplaced]
    split_ifs <;> simp
  | spread span e =>
    simp only [Attribute.unplaced, Options.convention?, Expression.unplaced]
    split_ifs <;> rfl
  | shorthand span e =>
    simp only [Attribute.unplaced, Options.convention?, Expression.unplaced]
    split_ifs <;> rfl
  | directive => rfl
  | attach => rfl

/-- A call is no value for the runtime. -/
theorem isAttrsBinding_spreadText (ho : o.invalid? = none) (args : List String) :
    o.isAttrsBinding (Expression.ofRaw 0 (o.spreadText args)).text = false := by
  have halias := isPlainIdentifier_of_valid ho (n := .runtimeAlias) (by decide) rfl
  have hhead : ∀ c ∈ (o.spreadText args).head?, isSpace c = false := by
    intro c hc
    cases hlist : o.runtimeAlias.toList with
    | nil =>
      rw [hlist] at halias
      cases halias
    | cons d u =>
      have hd : d = c := by simpa [Options.spreadText, hlist] using hc
      exact isSpace_of_plain (isPlainIdentifier_cases halias c (by rw [hlist, hd]; exact List.mem_cons_self ..))
  have hlast : ∀ c ∈ (o.spreadText args).getLast?, isSpace c = false := by
    intro c hc
    have hlist : o.spreadText args = (o.runtimeAlias ++ ".attrs(" ++ String.intercalate ", " args).toList ++ [')'] := by
      simp [Options.spreadText]
    rw [hlist, List.getLast?_concat] at hc
    cases hc
    decide
  have hplain : isPlainIdentifier (o.spreadText args) = false := by
    rw [← Bool.not_eq_true]
    intro hplain
    have hmem : '(' ∈ o.spreadText args := by simp [Options.spreadText]
    rcases isPlainIdentifier_cases hplain _ hmem with h | h | h <;> cases h
  have htext : (Expression.ofRaw 0 (o.spreadText args)).text.toList = o.spreadText args := by
    show (String.ofList (trim (o.spreadText args))).toList = _
    rw [trim_eq_self_iff.2 ⟨hhead, hlast⟩, String.toList_ofList]
  rw [Options.isAttrsBinding, htext, hplain]
  rfl

theorem getLast?_of_pairwise_false {α : Type} {xs : List α} (h : xs.Pairwise fun _ _ => False) {y : α} (hy : y ∈ xs) :
    xs.getLast? = some y := by
  cases xs with
  | nil => cases hy
  | cons z xs =>
    cases xs with
    | nil =>
      rw [List.mem_singleton.1 hy]
      rfl
    | cons z' xs => exact ((List.pairwise_cons.1 h).1 z' (List.mem_cons_self ..)).elim

theorem exists_of_forall₂ {α β : Type} {R : α → β → Prop} {xs : List α} {ys : List β}
    (h : List.Forall₂ R xs ys) {y : β} (hy : y ∈ ys) : ∃ x ∈ xs, R x y := by
  induction h with
  | nil => cases hy
  | @cons x z xs zs hfirst _ ih =>
    rcases List.mem_cons.1 hy with rfl | hy
    · exact ⟨x, List.mem_cons_self .., hfirst⟩
    · obtain ⟨x', hx', hmore⟩ := ih hy
      exact ⟨x', List.mem_cons_of_mem x hx', hmore⟩

section Reading

variable [Script.ExpressionReader]

/-- The expansion of an orderly file can be read. -/
theorem faults_read_expand (h : Orderly o f) (ho : o.invalid? = none) (hx : (j.expand o f).1 = .ok (some x)) :
    (read x.code).faults = [] := by
  obtain ⟨first, hamended, -⟩ := h.amended_expand ho hx
  exact hamended.faults

/-! ### Statements in their scripts -/

/-- What is generated stands in a script of the expanded file. A script that there was has all of its content, and
one that is made has nothing else. -/
theorem script?_read_expand (h : Orderly o f) (ho : o.invalid? = none) (hx : (j.expand o f).1 = .ok (some x))
    {context : ScriptContext} {statement : String}
    (hstatement : statement? o f (read f.text).document context = some statement) :
    ∃ s, (read x.code).document.script? context = some s ∧ s.content.toList =
      ((read f.text).document.script? context).elim statement.toList
        fun old => withStatement old.content.toList (some statement) context := by
  obtain ⟨hclean, -⟩ := gives_expansion (gives_of_outcome hx)
  obtain ⟨first, hamended, hfirst⟩ := h.amended_expand ho hx
  have hscript := hamended.scripts context
  cases hold : (read f.text).document.script? context with
  | none =>
    rw [hold] at hscript
    have hnew : newScript? o f (read f.text).document context = some (scriptOf statement context) := by
      rw [newScript?, hold, hstatement]
      rfl
    have hmap := hfirst context
    rw [hnew, Option.map_some] at hmap
    obtain ⟨s, hs, hsame⟩ := Option.map_eq_some_iff.1 hmap
    refine ⟨s, Eq.trans hscript hs, ?_⟩
    have hcontent : s.unplaced.content = (scriptOf statement context).unplaced.content := congrArg Script.content hsame
    cases context <;> exact congrArg String.toList hcontent
  | some old =>
    rw [hold] at hscript
    obtain ⟨s, hs, -, hcontent⟩ := hscript
    have hinside := h.scripts context old hold (by simp [hstatement])
    refine ⟨s, hs, ?_⟩
    rw [hcontent, refill, if_pos hinside, h.filled_eq hclean hold hinside, hstatement]
    rfl

theorem holds_read_expand (h : Orderly o f) (ho : o.invalid? = none) (hx : (j.expand o f).1 = .ok (some x))
    {context : ScriptContext} {statement : String}
    (hstatement : statement? o f (read f.text).document context = some statement) :
    ∃ s, (read x.code).document.script? context = some s ∧ s.Holds statement context := by
  obtain ⟨s, hs, hcontent⟩ := script?_read_expand h ho hx hstatement
  refine ⟨s, hs, ?_⟩
  cases hold : (read f.text).document.script? context with
  | none =>
    rw [hold] at hcontent
    cases context with
    | perModule =>
      rw [Script.Holds, hcontent]
      exact List.infix_refl _
    | perInstance =>
      rw [Script.Holds, hcontent]
      exact List.prefix_refl _
  | some old =>
    rw [hold] at hcontent
    cases context with
    | perModule =>
      refine ⟨old.content.toList ++ ['\n'], ['\n'], ?_⟩
      rw [hcontent]
      simp [withStatement, statementText]
    | perInstance =>
      refine ⟨'\n' :: old.content.toList, ?_⟩
      rw [hcontent]
      simp [withStatement, statementText]

/-! ### Attributes that are left -/

/-- Without rivals every attribute with a meaning is changed. -/
theorem mem_changes_planOf {meanings : List Convention} (h : meanings.Pairwise fun m m' => ¬ m.Rivals m')
    {m : Convention} (hm : m ∈ meanings) (tag call : String) :
    m.span ∈ ((planOf tag meanings).changes call).map Prod.fst := by
  rw [ElementPlan.map_fst_changes]
  cases m with
  | attrs name span value =>
    have hmem : (⟨name, span, value⟩ : Anchor) ∈ meanings.filterMap Convention.attrs? :=
      List.mem_filterMap.2 ⟨_, hm, rfl⟩
    have honly : (meanings.filterMap Convention.attrs?).Pairwise fun _ _ => False :=
      List.pairwise_filterMap.2 (h.imp fun hnot b hb b' hb' => hnot (.inl ⟨⟨b, hb⟩, b', hb'⟩))
    have hlast : (planOf tag meanings).attrs = some ⟨name, span, value⟩ := getLast?_of_pairwise_false honly hmem
    rw [hlast]
    exact List.mem_append_right _ (List.mem_append_left _ (List.mem_cons_self ..))
  | create name span value =>
    have hmem : (⟨name, span, value⟩ : Anchor) ∈ meanings.filterMap Convention.create? :=
      List.mem_filterMap.2 ⟨_, hm, rfl⟩
    have honly : (meanings.filterMap Convention.create?).Pairwise fun _ _ => False :=
      List.pairwise_filterMap.2 (h.imp fun hnot b hb b' hb' => hnot (.inr ⟨⟨b, hb⟩, b', hb'⟩))
    have hlast : (planOf tag meanings).create = some ⟨name, span, value⟩ := getLast?_of_pairwise_false honly hmem
    rw [hlast]
    exact List.mem_append_right _ (List.mem_append_right _ (List.mem_cons_self ..))
  | position name span value =>
    exact List.mem_append_left _ (List.mem_filterMap.2 ⟨_, hm, rfl⟩)

/-- An attribute to which nothing happens has no meaning. -/
theorem convention?_of_quiet (h : Orderly o f) (hunrivalled : Unrivalled o f) (hclean : (read f.text).faults = [])
    {e : ElementView} (he : e ∈ (read f.text).document.fragment.elements) {a : Attribute} (ha : a ∈ e.attributes)
    (hquiet : (f.weave o).Quiet a.span.start a.span.stop) : o.convention? a = none := by
  cases hmeaning : o.convention? a with
  | none => rfl
  | some m =>
    have hmem : m ∈ o.conventions e.attributes := List.mem_filterMap.2 ⟨a, ha, hmeaning⟩
    have hchange := mem_changes_planOf (hunrivalled e he) hmem e.name ((ElementPlan.of o e).callText o f)
    obtain ⟨c, hc, hspan⟩ := List.mem_map.1 hchange
    rw [Options.span_convention? hmeaning] at hspan
    have hall : c ∈ changes o f (read f.text).document.fragment.elements :=
      List.mem_flatMap.2 ⟨_, List.mem_map_of_mem he, hc⟩
    have hlt := (placed_changes o f c hall).2.1
    rw [← hspan] at hquiet
    exact absurd hquiet ((h.replaces hclean hall).not_quiet hlt (Nat.le_refl _) hlt)

/-- What takes the place of an attribute is a call. -/
theorem exists_call_of_replaces (h : Orderly o f) (hclean : (read f.text).faults = [])
    {e : ElementView} (he : e ∈ (read f.text).document.fragment.elements) {a : Attribute} (ha : a ∈ e.attributes)
    {new : List Char} (hreplaces : (f.weave o).Replaces a.span new) (hnew : new ≠ []) :
    ∃ args, new = (o.call args).toList := by
  have hlt := (exists_shows he ha).1
  have hput : (scriptText o f (read f.text).document a.span.start
      ++ changedText (changes o f (read f.text).document.fragment.elements) a.span.start).toList = new := hreplaces.put
  rw [h.scriptText_of_contains hclean he ha (Span.contains_iff.2 ⟨Nat.le_refl _, hlt⟩)] at hput
  unfold changedText at hput
  cases hfind : (changes o f (read f.text).document.fragment.elements).find? (·.1.start = a.span.start) with
  | none =>
    rw [hfind] at hput
    exact absurd hput.symm hnew
  | some c =>
    rw [hfind, String.empty_append] at hput
    have hput : c.2.toList = new := hput
    obtain ⟨e', -, a', -, -, m, -, hkind⟩ := origin_of_changes (List.mem_of_find?_eq_some hfind)
    rcases hkind with ⟨hdrop, -⟩ | ⟨hcall, -⟩
    · rw [hdrop] at hput
      exact absurd hput.symm hnew
    · rw [hcall] at hput
      exact ⟨_, hput.symm⟩

/-- Of an element whose attributes are rewoven, no attribute with a meaning is left. -/
theorem conventions_of_rewoven (h : Orderly o f) (ho : o.invalid? = none) (hunrivalled : Unrivalled o f)
    (hclean : (read f.text).faults = []) {e : ElementView} (he : e ∈ (read f.text).document.fragment.elements)
    {as as' : List Attribute} (has : ∀ a ∈ as, a ∈ e.attributes) (hrewoven : Rewoven (f.weave o) as as') :
    o.conventions as' = [] := by
  have none_of : ∀ {a a' : Attribute}, a'.unplaced = a.unplaced → o.convention? a = none → o.convention? a' = none := by
    intro a a' hsame hnone
    rw [← Option.not_isSome_iff_eq_none, ← isSome_convention?_unplaced, hsame, isSome_convention?_unplaced, hnone]
    exact Bool.false_ne_true
  induction hrewoven with
  | nil => rfl
  | @keep a a' as as' hquiet hsame _ ih =>
    have hmore := ih fun b hb => has b (List.mem_cons_of_mem a hb)
    have hnone := none_of hsame (convention?_of_quiet h hunrivalled hclean he (has a (List.mem_cons_self ..)) hquiet)
    rw [Options.conventions, List.filterMap_cons_none hnone]
    exact hmore
  | @spread a a' as as' raw rest hreplaces hraw hsame _ ih =>
    have hmore := ih fun b hb => has b (List.mem_cons_of_mem a hb)
    obtain ⟨args, hcall⟩ := exists_call_of_replaces h hclean he (has a (List.mem_cons_self ..)) hreplaces (by simp)
    rw [Options.toList_call] at hcall
    have hbody := List.append_cancel_right (List.cons.inj hcall).2
    rw [hbody, Options.trim_call] at hraw
    have hrest : o.spreadText args = rest := List.append_cancel_left hraw
    have hnone : o.convention? (Attribute.spread (.point 0) (.ofRaw 0 rest)) = none := by
      rw [← hrest, Options.convention?, isAttrsBinding_spreadText ho]
      rfl
    rw [Options.conventions, List.filterMap_cons_none (none_of hsame hnone)]
    exact hmore
  | @drop a as as' _ _ ih => exact ih fun b hb => has b (List.mem_cons_of_mem a hb)

/-- Without rivals no attribute with a meaning is left in an expanded file. -/
theorem conventions_read_expand (h : Orderly o f) (ho : o.invalid? = none) (hunrivalled : Unrivalled o f)
    (hx : (j.expand o f).1 = .ok (some x)) :
    ∀ e ∈ (read x.code).document.fragment.elements, o.conventions e.attributes = [] := by
  obtain ⟨hclean, -⟩ := gives_expansion (gives_of_outcome hx)
  obtain ⟨first, hamended, -⟩ := h.amended_expand ho hx
  intro e' he'
  obtain ⟨e, he, -, hrewoven⟩ := exists_of_forall₂ hamended.elements he'
  exact conventions_of_rewoven h ho hunrivalled hclean he (fun a ha => ha) hrewoven

/-! ### A second expansion -/

/-- A second expansion of an expanded file finds nothing to do. -/
theorem expand_expand (h : Orderly o f) (ho : o.invalid? = none) (hunrivalled : Unrivalled o f)
    (hx : (j.expand o f).1 = .ok (some x)) (j' : Journal) (name : Option String) :
    (j'.expand o ⟨name, x.code⟩).1 = .ok none :=
  expand_of_conventions (f := ⟨name, x.code⟩) (faults_read_expand h ho hx)
    (conventions_read_expand h ho hunrivalled hx) j'

end Reading

theorem orderly_mixedFile : Orderly {} mixedFile ∧ Unrivalled {} mixedFile := by
  have helements : (read mixedFile.text).document.fragment.elements = [⟨"p", ⟨0, 36⟩, [
      .normal ⟨3, 20⟩ "stylex-create" (.expression ⟨17, 20⟩ ⟨⟨18, 19⟩, "a"⟩),
      .normal ⟨21, 31⟩ "stylex" (.expression ⟨28, 31⟩ ⟨⟨29, 30⟩, "b"⟩)]⟩] := by decide +kernel
  have hnone : ∀ context, (read mixedFile.text).document.script? context = none := by
    have hmodule : (read mixedFile.text).document.moduleScript.isNone = true := by decide +kernel
    have hinstance : (read mixedFile.text).document.instanceScript.isNone = true := by decide +kernel
    intro context
    cases context with
    | perModule => exact Option.isNone_iff_eq_none.1 hmodule
    | perInstance => exact Option.isNone_iff_eq_none.1 hinstance
  refine ⟨⟨by decide, fun e he _ => ?_, fun context s hs => ?_, by decide, ?_⟩, fun e he => ?_⟩
  · rw [helements] at he
    rw [List.mem_singleton.1 he]
    exact ⟨"...__stylex.attrs(__styles.p$1_18, b)".toList, by decide +kernel, rfl⟩
  · rw [hnone] at hs
    cases hs
  · have hhoists : hoists {} mixedFile (read mixedFile.text).document = [⟨"p$1_18", "a"⟩] := by decide +kernel
    rw [hhoists]
    decide
  · rw [helements] at he
    rw [List.mem_singleton.1 he]
    decide

theorem expand_expand_mixedFile : ∃ x, (({} : Journal).expand {} mixedFile).1 = .ok (some x)
    ∧ x.code = mixedCode ∧ (({} : Journal).expand {} ⟨none, x.code⟩).1 = .ok none := by
  have hcode : (({} : Journal).expand {} mixedFile).1.toOption.join.map Expanded.code = some mixedCode := by
    decide +kernel
  obtain ⟨x, hx, hcode⟩ := exists_expanded hcode
  exact ⟨x, hx, hcode, expand_expand orderly_mixedFile.1 (by decide) orderly_mixedFile.2 hx {} none⟩

end Restyle
