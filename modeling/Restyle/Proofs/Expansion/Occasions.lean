import Restyle.Expansion.Session
import Restyle.Proofs.Expansion.Remarking
import Restyle.Proofs.Markup.Walk

/-! Occasions for advisories. A file gives them in the order of the walk, up to the first position that cannot be
read. The remarks of an expansion hold an advisory for each of them and no other, whatever becomes of the file
after the walk. -/

namespace Restyle

open Markup Remarking

/-! ### Occasions -/

/-- The attribute is an occasion for an advisory: it has an inline definition, or it says where one goes, whatever
it says. An attribute with a name for the runtime is neither, and one with both other names has a definition. -/
inductive Markup.Attribute.Occasions (o : Options) : Attribute → Notice → Prop where
  | create {span : Span} {value : AttributeValue} {e : Expression} : o.isAttrsName o.createAttribute = false →
    value.single? = some e → Occasions o (.normal span o.createAttribute value) .inlineCreate
  | position {span : Span} {value : AttributeValue} : o.isAttrsName o.positionAttribute = false →
    o.positionAttribute ≠ o.createAttribute → Occasions o (.normal span o.positionAttribute value) .createPosition

/-- An advisory with the attribute that occasioned it. -/
structure Advice where
  notice : Notice
  file : SourceFile
  cause : Attribute

namespace Advice

/-- The name of the attribute that an advisory is about. -/
def subject (o : Options) : Notice → String
  | .inlineCreate => o.createAttribute
  | .createPosition => o.positionAttribute

/-- The place that occasioned it. -/
def location (x : Advice) : Location := x.file.location x.cause.span.start

/-- Its line in the log. -/
def entry (o : Options) (x : Advice) : LogEntry :=
  ⟨.warn, x.notice.format (subject o x.notice) x.file.name x.location⟩

/-- What is remarked on the occasion. -/
def remark (o : Options) (x : Advice) : Remark := .advice x.notice (subject o x.notice) x.location

end Advice

/-! ### Meanings that are occasions -/

namespace Convention

def notice? : Convention → Option Notice
  | .attrs .. => none
  | .create .. => some .inlineCreate
  | .position .. => some .createPosition

end Convention

variable {o : Options} {f : SourceFile}

namespace Options

variable {a : Attribute} {name : String} {span : Span}

theorem eq_of_convention?_create {e : Expression} (h : o.convention? a = some (.create name span e)) :
    ∃ value, a = .normal span o.createAttribute value ∧ name = o.createAttribute
      ∧ o.isAttrsName o.createAttribute = false ∧ value.single? = some e := by
  unfold convention? at h
  split at h
  · next span' name' value =>
    split_ifs at h with hattrs hcreate
    · simp at h
    · subst hcreate
      obtain ⟨e', he, h⟩ := Option.map_eq_some_iff.1 h
      cases h
      exact ⟨value, rfl, rfl, Bool.eq_false_iff.2 hattrs, he⟩
    · cases h
  · split at h <;> cases h
  · split at h <;> cases h
  · cases h
  · cases h

theorem eq_of_convention?_position {given : Option Expression} (h : o.convention? a = some (.position name span given)) :
    ∃ value, a = .normal span o.positionAttribute value ∧ name = o.positionAttribute
      ∧ o.isAttrsName o.positionAttribute = false ∧ o.positionAttribute ≠ o.createAttribute ∧ value.single? = given := by
  unfold convention? at h
  split at h
  · next span' name' value =>
    split_ifs at h with hattrs hcreate hposition
    · simp at h
    · simp at h
    · subst hposition
      cases h
      exact ⟨value, rfl, rfl, Bool.eq_false_iff.2 hattrs, hcreate, rfl⟩
  · split at h <;> cases h
  · split at h <;> cases h
  · cases h
  · cases h

theorem occasions_iff {n : Notice} : a.Occasions o n ↔ (o.convention? a).bind Convention.notice? = some n := by
  constructor
  · rintro (⟨hattrs, hvalue⟩ | ⟨hattrs, hcreate⟩)
    · simp [convention?, hattrs, hvalue, Convention.notice?]
    · simp [convention?, hattrs, hcreate, Convention.notice?]
  · intro h
    obtain ⟨c, hc, hn⟩ := Option.bind_eq_some_iff.1 h
    cases c with
    | attrs => cases hn
    | create name span e =>
      obtain ⟨value, rfl, -, hattrs, hvalue⟩ := eq_of_convention?_create hc
      cases hn
      exact .create hattrs hvalue
    | position name span given =>
      obtain ⟨value, rfl, -, hattrs, hcreate, -⟩ := eq_of_convention?_position hc
      cases hn
      exact .position hattrs hcreate

end Options

/-- The advisory that an attribute of a file is an occasion for. -/
def SourceFile.advice? (o : Options) (f : SourceFile) (a : Attribute) : Option Advice :=
  ((o.convention? a).bind Convention.notice?).map (⟨·, f, a⟩)

theorem SourceFile.advice?_eq_some_iff {a : Attribute} {x : Advice} :
    f.advice? o a = some x ↔ x.file = f ∧ x.cause = a ∧ a.Occasions o x.notice := by
  rw [advice?, Option.map_eq_some_iff]
  constructor
  · rintro ⟨n, hn, rfl⟩
    exact ⟨rfl, rfl, Options.occasions_iff.2 hn⟩
  · rintro ⟨rfl, rfl, hoccasion⟩
    exact ⟨_, Options.occasions_iff.1 hoccasion, rfl⟩

/-! ### Computations without advisories -/

def Remark.isAdvice : Remark → Bool
  | .advice .. => true
  | .debug _ => false

/-- The computation gives no occasion for an advisory. -/
def Remarking.Unadvised {α : Type} (p : Remarking α) : Prop :=
  ∃ result made, p.Makes result made ∧ made.filter Remark.isAdvice = []

variable {α β : Type} {p : Remarking α}

namespace Remarking.Unadvised

theorem pure (x : α) : (Pure.pure x : Remarking α).Unadvised := ⟨_, _, makes_pure x, rfl⟩

theorem throw (e : ExpansionError) : (MonadExcept.throw e : Remarking α).Unadvised := ⟨_, _, makes_throw e, rfl⟩

theorem debug (text : String) : (remark (.debug text)).Unadvised := ⟨_, _, makes_remark _, rfl⟩

theorem bind {next : α → Remarking β} (h : p.Unadvised) (hnext : ∀ x, (next x).Unadvised) : (p >>= next).Unadvised := by
  obtain ⟨result, made, hp, hmade⟩ := h
  cases result with
  | error e => exact ⟨_, made, hp.bind_error next, hmade⟩
  | ok x =>
    obtain ⟨result, made', hp', hmade'⟩ := hnext x
    exact ⟨result, made ++ made', hp.bind hp', by rw [List.filter_append, hmade, hmade', List.append_nil]⟩

theorem mapM {g : β → Remarking α} (h : ∀ b, (g b).Unadvised) (bs : List β) : (bs.mapM g).Unadvised := by
  induction bs with
  | nil => exact pure []
  | cons b bs ih =>
    rw [List.mapM_cons]
    exact (h b).bind fun x => ih.bind fun xs => pure (x :: xs)

theorem textIn (start : Nat) (part : Span) : (f.textIn start part).Unadvised := by
  unfold SourceFile.textIn
  split
  · exact pure _
  · exact throw _

end Remarking.Unadvised

section Reading

variable [Script.ExpressionReader]

/-! ### Occasions of a file -/

/-- The attribute says where a definition goes, and its value is a single expression that cannot be read. -/
inductive Markup.Attribute.Breaks (o : Options) : Attribute → Prop where
  | position {span : Span} {value : AttributeValue} {e : Expression} {fault : Script.Fault} :
    o.isAttrsName o.positionAttribute = false → o.positionAttribute ≠ o.createAttribute →
    value.single? = some e → Script.Shape.ofText? e.text = .error fault →
    Breaks o (.normal span o.positionAttribute value)

/-- An expansion of the file comes to an attribute after some others, and the attribute is an occasion for an
advisory. The file has one of the names in it and no faults, and none of the attributes before ends the walk. -/
structure SourceFile.Occasions (o : Options) (f : SourceFile) (n : Notice) (before : List Attribute) (a : Attribute) :
    Prop where
  mentioned : o.mentionedIn f.text = true
  clean : (read f.text).faults = []
  walk : ∃ after, allAttributes (read f.text).document.fragment.elements = before ++ a :: after
  unbroken : ∀ b ∈ before, ¬ b.Breaks o
  occasion : a.Occasions o n

/-- A position that cannot be read. -/
def Convention.breaks : Convention → Bool
  | .position _ _ value => value.any fun e => (Script.Shape.ofText? e.text).toOption.isNone
  | .attrs .. | .create .. => false

theorem Options.breaks_iff {a : Attribute} : a.Breaks o ↔ (o.convention? a).any Convention.breaks = true := by
  constructor
  · rintro ⟨hattrs, hcreate, hvalue, hshape⟩
    simp [convention?, hattrs, hcreate, hvalue, Convention.breaks, hshape, Except.toOption]
  · intro h
    obtain ⟨c, hc, hbreaks⟩ := (Option.any_eq_true ..).1 h
    cases c with
    | attrs => cases hbreaks
    | create => cases hbreaks
    | position name span given =>
      obtain ⟨value, rfl, -, hattrs, hcreate, rfl⟩ := eq_of_convention?_position hc
      obtain ⟨e, hvalue, hnone⟩ := (Option.any_eq_true ..).1 hbreaks
      cases hshape : Script.Shape.ofText? e.text with
      | ok shape => simp [hshape, Except.toOption] at hnone
      | error fault => exact .position hattrs hcreate hvalue hshape

instance (a : Attribute) : Decidable (a.Breaks o) := decidable_of_iff _ Options.breaks_iff.symm

/-- The attributes up to the first position that cannot be read. -/
def Options.reached (o : Options) : List Attribute → List Attribute
  | [] => []
  | a :: rest => a :: if a.Breaks o then [] else o.reached rest

/-- The occasions that some attributes of a file are. -/
def SourceFile.occasionsAmong (o : Options) (f : SourceFile) (attrs : List Attribute) : List Advice :=
  (o.reached attrs).filterMap (f.advice? o)

/-- The occasions that a file gives. -/
def SourceFile.occasions (o : Options) (f : SourceFile) : List Advice :=
  if o.mentionedIn f.text ∧ (read f.text).faults = [] then
    f.occasionsAmong o (allAttributes (read f.text).document.fragment.elements)
  else []

namespace Options

theorem reached_append {as bs : List Attribute} (h : ∀ a ∈ as, ¬ a.Breaks o) :
    o.reached (as ++ bs) = as ++ o.reached bs := by
  induction as with
  | nil => rfl
  | cons a as ih =>
    obtain ⟨ha, has⟩ := List.forall_mem_cons.1 h
    rw [List.cons_append, reached, if_neg ha, ih has, List.cons_append]

theorem reached_eq_self {as : List Attribute} (h : ∀ a ∈ as, ¬ a.Breaks o) : o.reached as = as := by
  have happend : o.reached (as ++ []) = as ++ o.reached [] := reached_append h
  rwa [List.append_nil, reached, List.append_nil] at happend

theorem reached_append_of_breaks {as bs : List Attribute} (h : ∃ a ∈ as, a.Breaks o) :
    o.reached (as ++ bs) = o.reached as := by
  induction as with
  | nil => simp at h
  | cons a as ih =>
    by_cases ha : a.Breaks o
    · simp [reached, ha]
    · have has : ∃ a ∈ as, a.Breaks o := by simpa [ha] using h
      simp [reached, ha, ih has]

/-- What is reached stands behind attributes that can be read. -/
theorem reached_eq_iff {as before : List Attribute} {a : Attribute} :
    (∃ after, o.reached as = before ++ a :: after) ↔
      (∃ after, as = before ++ a :: after) ∧ ∀ b ∈ before, ¬ b.Breaks o := by
  constructor
  · rintro ⟨after, h⟩
    induction as generalizing before with
    | nil => simp [reached] at h
    | cons b as ih =>
      cases before with
      | nil =>
        obtain ⟨rfl, -⟩ := List.cons.inj h
        exact ⟨⟨as, rfl⟩, by simp⟩
      | cons c before =>
        obtain ⟨rfl, hrest⟩ := List.cons.inj h
        have hb : ¬ b.Breaks o := fun hb => by simp [hb] at hrest
        rw [if_neg hb] at hrest
        obtain ⟨⟨rest, rfl⟩, hbefore⟩ := ih hrest
        exact ⟨⟨rest, rfl⟩, List.forall_mem_cons.2 ⟨hb, hbefore⟩⟩
  · rintro ⟨⟨after, rfl⟩, hbefore⟩
    exact ⟨_, reached_append hbefore⟩

end Options

/-! ### What an expansion remarks -/

/-- The computation looks at the attributes: it gives the occasions among them, and fails if and only if one of them
cannot be read. -/
def Advises (o : Options) (f : SourceFile) {α : Type} (p : Remarking α) (attrs : List Attribute) : Prop :=
  ∃ result made, p.Makes result made ∧ made.filter Remark.isAdvice = (f.occasionsAmong o attrs).map (Advice.remark o)
    ∧ ((∃ e, result = .error e) ↔ ∃ a ∈ attrs, a.Breaks o)

theorem SourceFile.makes_shape {attr : String} {e : Expression} {shape : Script.Shape}
    (h : Script.Shape.ofText? e.text = .ok shape) : (f.shape attr e).Makes (.ok shape) [] := by
  unfold SourceFile.shape
  rw [h]
  exact makes_pure shape

theorem SourceFile.makes_shape_of_error {attr : String} {e : Expression} {fault : Script.Fault}
    (h : Script.Shape.ofText? e.text = .error fault) : (f.shape attr e).Makes
      (.error (.expression f.shownName (f.location (e.span.start + fault.offset)) attr fault.kind)) [] := by
  unfold SourceFile.shape
  rw [h]
  exact makes_throw _

namespace Advises

theorem pure (x : α) : Advises o f (pure x) [] := ⟨_, _, makes_pure x, rfl, by simp⟩

theorem debug (text : String) : Advises o f (Remarking.remark (.debug text)) [] := ⟨_, _, makes_remark _, rfl, by simp⟩

/-- After a failure nothing more is looked at. -/
theorem bind {next : α → Remarking β} {as bs : List Attribute} (h : Advises o f p as)
    (hnext : ∀ x, Advises o f (next x) bs) : Advises o f (p >>= next) (as ++ bs) := by
  obtain ⟨result, made, hp, hmade, hresult⟩ := h
  cases result with
  | error e =>
    have has : ∃ a ∈ as, a.Breaks o := hresult.1 ⟨e, rfl⟩
    refine ⟨.error e, made, hp.bind_error next, ?_, ?_⟩
    · rw [hmade, SourceFile.occasionsAmong, SourceFile.occasionsAmong, Options.reached_append_of_breaks has]
    · obtain ⟨a, ha, hbreaks⟩ := has
      exact ⟨fun _ => ⟨a, List.mem_append_left _ ha, hbreaks⟩, fun _ => ⟨e, rfl⟩⟩
  | ok x =>
    have has : ∀ a ∈ as, ¬ a.Breaks o := by simpa using hresult
    obtain ⟨result, made', hp', hmade', hresult'⟩ := hnext x
    refine ⟨result, made ++ made', hp.bind hp', ?_, ?_⟩
    · rw [List.filter_append, hmade, hmade', SourceFile.occasionsAmong, SourceFile.occasionsAmong,
        SourceFile.occasionsAmong, Options.reached_append has, Options.reached_eq_self has, List.filterMap_append,
        List.map_append]
    · rw [hresult']
      constructor
      · rintro ⟨b, hb, hbreaks⟩
        exact ⟨b, List.mem_append_right _ hb, hbreaks⟩
      · rintro ⟨b, hb, hbreaks⟩
        rcases List.mem_append.1 hb with hb | hb
        · exact (has b hb hbreaks).elim
        · exact ⟨b, hb, hbreaks⟩

/-- One attribute with a meaning. The advisory on a position comes before its value is looked at. -/
theorem add {a : Attribute} {c : Convention} (h : o.convention? a = some c) (p : ElementPlan) :
    Advises o f (p.add f c) [a] := by
  have hoccasions : f.occasionsAmong o [a] = (c.notice?.map (⟨·, f, a⟩)).toList := by
    have hreached : o.reached [a] = [a] := by simp [Options.reached]
    rw [SourceFile.occasionsAmong, hreached, List.filterMap_cons, SourceFile.advice?, h, Option.bind_some]
    cases c.notice? <;> rfl
  have hbreaks : (∃ b ∈ [a], b.Breaks o) ↔ c.breaks = true := by
    simp [Options.breaks_iff, h]
  unfold Advises
  rw [hoccasions, hbreaks]
  cases c with
  | attrs name span value => exact ⟨_, _, makes_pure _, rfl, by simp [Convention.breaks]⟩
  | create name span e =>
    obtain ⟨value, rfl, rfl, -⟩ := Options.eq_of_convention?_create h
    exact ⟨_, _, (makes_remark _).bind (makes_pure _), rfl, by simp [Convention.breaks]⟩
  | position name span given =>
    obtain ⟨value, rfl, rfl, -⟩ := Options.eq_of_convention?_position h
    cases given with
    | none => exact ⟨_, _, (makes_remark _).bind (makes_pure _), rfl, by simp [Convention.breaks]⟩
    | some e =>
      cases hshape : Script.Shape.ofText? e.text with
      | ok shape =>
        refine ⟨_, _, (makes_remark _).bind ((SourceFile.makes_shape hshape).bind (makes_pure _)), rfl, ?_⟩
        simp [Convention.breaks, hshape, Except.toOption]
      | error fault =>
        refine ⟨_, _, (makes_remark _).bind ((SourceFile.makes_shape_of_error hshape).bind_error _), rfl, ?_⟩
        simp [Convention.breaks, hshape, Except.toOption]

theorem foldlM (attrs : List Attribute) (p : ElementPlan) :
    Advises o f ((o.conventions attrs).foldlM (ElementPlan.add f) p) attrs := by
  induction attrs generalizing p with
  | nil => exact pure p
  | cons a attrs ih =>
    cases h : o.convention? a with
    | some c =>
      rw [Options.conventions, List.filterMap_cons_some h, List.foldlM_cons]
      exact (add h p).bind ih
    | none =>
      -- The walk comes to the attribute, and nothing is done.
      have hbreaks : ¬ a.Breaks o := by simp [Options.breaks_iff, h]
      obtain ⟨result, made, hp, hmade, hresult⟩ := ih p
      rw [Options.conventions, List.filterMap_cons_none h]
      refine ⟨result, made, hp, ?_, by simpa [hbreaks] using hresult⟩
      rw [hmade, SourceFile.occasionsAmong, SourceFile.occasionsAmong, Options.reached, if_neg hbreaks,
        List.filterMap_cons_none (by rw [SourceFile.advice?, h]; rfl)]

/-- The walk over the elements. -/
theorem ofElements (es : List ElementView) : Advises o f (ElementPlan.ofElements o f es) (allAttributes es) := by
  induction es with
  | nil => exact pure []
  | cons e es ih =>
    refine (foldlM e.attributes _).bind fun plan => ?_
    split
    · have hrest := ih.bind fun plans => pure (plan :: plans)
      rw [List.append_nil] at hrest
      exact (debug _).bind fun _ => hrest
    · exact ih

end Advises

namespace Remarking.Unadvised

theorem shape (attr : String) (e : Expression) : (f.shape attr e).Unadvised := by
  cases h : Script.Shape.ofText? e.text with
  | ok shape => exact ⟨_, _, SourceFile.makes_shape h, rfl⟩
  | error fault => exact ⟨_, _, SourceFile.makes_shape_of_error h, rfl⟩

theorem splices (p : ElementPlan) : (p.splices o f).Unadvised := by
  refine bind ?_ fun _ => pure _
  unfold ElementPlan.givenArguments
  cases p.attrs with
  | none => exact pure []
  | some attrs =>
    refine (shape attrs.name attrs.value).bind fun shape => ?_
    cases shape with
    | array items => exact mapM (textIn _) _
    | identifier name => exact pure _
    | number value => exact pure _
    | other => exact pure _

theorem documentSplices (d : Document) (plans : List ElementPlan) : (documentSplices o f d plans).Unadvised :=
  (mapM splices plans).bind fun _ => pure _

end Remarking.Unadvised

/-- What follows the walk gives no advisories, and takes none back. -/
theorem advice_outcome {next : α → Remarking β} {attrs : List Attribute} (h : Advises o f p attrs)
    (hnext : ∀ x, (next x).Unadvised) :
    (p >>= next).outcome.2.filter Remark.isAdvice = (f.occasionsAmong o attrs).map (Advice.remark o) := by
  obtain ⟨result, made, hp, hmade, -⟩ := h
  cases result with
  | error e => rw [(hp.bind_error next).outcome, hmade]
  | ok x =>
    obtain ⟨result, made', hp', hmade'⟩ := hnext x
    rw [(hp.bind hp').outcome, List.filter_append, hmade, hmade', List.append_nil]

/-- The advisories that a file asks for are those on its occasions. -/
theorem advice_expand (o : Options) (f : SourceFile) :
    (expand o f).2.filter Remark.isAdvice = (f.occasions o).map (Advice.remark o) := by
  unfold expand expansion SourceFile.occasions
  cases hmention : o.mentionedIn f.text with
  | false => rfl
  | true =>
    rw [if_neg (by simp)]
    dsimp only
    cases hfaults : (read f.text).faults with
    | cons first others => rfl
    | nil =>
      rw [if_pos ⟨rfl, rfl⟩]
      refine advice_outcome (.ofElements _) fun plans => ?_
      split
      · exact (Unadvised.debug _).bind fun _ => .pure none
      · refine (Unadvised.documentSplices _ plans).bind fun splices => ?_
        cases f.spliced splices with
        | ok expanded => exact .pure _
        | error e => exact .throw _

/-! ### The occasions of a file -/

theorem SourceFile.mem_occasions_iff {x : Advice} :
    x ∈ f.occasions o ↔ x.file = f ∧ ∃ before, f.Occasions o x.notice before x.cause := by
  unfold occasions occasionsAmong
  constructor
  · intro h
    split at h
    · next hread =>
      obtain ⟨a, ha, hadvice⟩ := List.mem_filterMap.1 h
      obtain ⟨hfile, rfl, hoccasion⟩ := advice?_eq_some_iff.1 hadvice
      obtain ⟨before, hafter⟩ := List.mem_iff_append.1 ha
      obtain ⟨hwalk, hunbroken⟩ := Options.reached_eq_iff.1 hafter
      exact ⟨hfile, before, hread.1, hread.2, hwalk, hunbroken, hoccasion⟩
    · cases h
  · rintro ⟨hfile, before, hmentioned, hclean, hwalk, hunbroken, hoccasion⟩
    rw [if_pos ⟨hmentioned, hclean⟩]
    have hreached := List.mem_iff_append.2 ⟨before, Options.reached_eq_iff.2 ⟨hwalk, hunbroken⟩⟩
    exact List.mem_filterMap.2 ⟨x.cause, hreached, advice?_eq_some_iff.2 ⟨hfile, rfl, hoccasion⟩⟩

/-- The first occasion for an advisory in a file. -/
theorem SourceFile.find?_occasions {n : Notice} {x : Advice} (h : (f.occasions o).find? (·.notice = n) = some x) :
    x.file = f ∧ ∃ before, f.Occasions o n before x.cause ∧ ∀ b ∈ before, ¬ b.Occasions o n := by
  unfold occasions occasionsAmong at h
  split at h
  · next hread =>
    rw [List.find?_filterMap] at h
    obtain ⟨a, hfind, hadvice⟩ := Option.bind_eq_some_iff.1 h
    obtain ⟨hfile, rfl, hoccasion⟩ := advice?_eq_some_iff.1 hadvice
    obtain ⟨hnotice, before, after, hreached, hbefore⟩ := List.find?_eq_some_iff_append.1 hfind
    obtain ⟨hwalk, hunbroken⟩ := Options.reached_eq_iff.1 ⟨after, hreached⟩
    have hn : x.notice = n := by simpa [hadvice] using hnotice
    refine ⟨hfile, before, ⟨hread.1, hread.2, hwalk, hunbroken, hn ▸ hoccasion⟩, fun b hb hearlier => ?_⟩
    have hadvice' : f.advice? o b = some ⟨n, f, b⟩ := advice?_eq_some_iff.2 ⟨rfl, rfl, hearlier⟩
    simpa [hadvice'] using hbefore b hb
  · cases h

end Reading

end Restyle
