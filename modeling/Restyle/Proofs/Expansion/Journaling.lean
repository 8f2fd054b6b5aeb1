import Restyle.Expansion.Session
import Restyle.Proofs.Expansion.Remarking

/-! Expansions that keep the journal themselves: advisories are given, and their flags are read and set, while
attributes are looked at, in the middle of everything else. `Journal.expand` puts the remarks into the journal
when all is done. Step by step the two do the same, and no result depends on the journal. -/

namespace Restyle

open Markup

/-- A computation that has the journal of its session and may fail. What it put into the journal before it failed
stays there. -/
abbrev Journaling (α : Type) := ExceptT ExpansionError (StateM Journal) α

namespace Journaling

/-! ### The program -/

/-- Gives an advisory unless the session has given it before, and tells whether it was given now. -/
def raise (n : Notice) (attr : String) (filename : Option String) (location : Location) : Journaling Bool := do
  if (← get).raised n then return false
  modify fun j => (j.mark n).log .warn (n.format attr filename location)
  return true

def debug (text : String) : Journaling Unit := modify (·.debug text)

/-- The text of a part of an expression. The program stops if it is not there. -/
def textIn (f : SourceFile) (start : Nat) (part : Span) : Journaling String :=
  match (part.shifted start).slice? f.text with
  | some text => pure text
  | none => throw (.trap (part.shifted start))

section Program

variable [Script.ExpressionReader]

/-- The shape of an expression in a file. -/
def shape (f : SourceFile) (attr : String) (e : Expression) : Journaling Script.Shape :=
  match Script.Shape.ofText? e.text with
  | .ok shape => pure shape
  | .error fault => throw (.expression f.shownName (f.location (e.span.start + fault.offset)) attr fault.kind)

/-- Adds a meaning to a plan. -/
def add (f : SourceFile) (p : ElementPlan) : Convention → Journaling ElementPlan
  | .attrs name span value => pure { p with attrs := some ⟨name, span, value⟩ }
  | .create name span value => do
    let _ ← raise .inlineCreate name f.name (f.location span.start)
    pure { p with create := some ⟨name, span, value⟩ }
  | .position name span value => do
    let _ ← raise .createPosition name f.name (f.location span.start)
    let p := { p with removals := p.removals ++ [span] }
    match value with
    | none => pure p
    | some e =>
      let position := ArgumentPosition.ofShape? (← shape f name e)
      pure { p with position := position <|> p.position }

/-- The plan for an element. -/
def ofElement (o : Options) (f : SourceFile) (e : ElementView) : Journaling ElementPlan :=
  (o.conventions e.attributes).foldlM (add f) { tag := e.name }

/-- The plans that are not empty, in the order of their elements. -/
def ofElements (o : Options) (f : SourceFile) : List ElementView → Journaling (List ElementPlan)
  | [] => pure []
  | e :: rest => do
    let plan ← ofElement o f e
    if plan.edits then
      debug (s!"{f.shownName}:{(f.location e.span.start).render}: " ++ plan.describe)
      return plan :: (← ofElements o f rest)
    ofElements o f rest

/-- The arguments that the attributes give. -/
def givenArguments (f : SourceFile) (p : ElementPlan) : Journaling (List String) := do
  match p.attrs with
  | none => return []
  | some attrs =>
    match ← shape f attrs.name attrs.value with
    | .array items => (items.filterMap id).mapM (textIn f attrs.value.span.start)
    | _ => return [attrs.value.text]

/-- The edits of an element. -/
def elementSplices (o : Options) (f : SourceFile) (p : ElementPlan) : Journaling (List Splice) := do
  let args ← givenArguments f p
  return p.removals.map .remove ++ p.anchorSplices (o.call (p.placeReference o f args))

/-- The edits of a document whose elements have plans. -/
def documentSplices (o : Options) (f : SourceFile) (d : Document) (plans : List ElementPlan) :
    Journaling (List Splice) := do
  let elements ← plans.mapM (elementSplices o f)
  let imports := if plans.any (·.expands) then [importSplice o d] else []
  let definitions := plans.filterMap (·.hoisted? f)
  let hoists := if definitions.isEmpty then [] else [hoistSplice o d definitions]
  return elements.flatten ++ imports ++ hoists

/-- The expansion of a file. -/
def expansion (o : Options) (f : SourceFile) : Journaling (Option Expanded) := do
  if !o.mentionedIn f.text then
    debug (f.shownName ++ ": no StyleX attributes, skipping")
    return none
  let reading := Markup.read f.text
  match reading.faults with
  | first :: others =>
    throw (.markup f.shownName (f.location first.span.start) first.kind others.length)
  | [] =>
    let plans ← ofElements o f reading.document.fragment.elements
    if plans.isEmpty then
      debug (f.shownName ++ ": nothing to rewrite")
      return none
    let splices ← documentSplices o f reading.document plans
    match f.spliced splices with
    | .ok expanded => return some expanded
    | .error e => throw (.splice e)

end Program

end Journaling

/-! ### Step by step -/

open Remarking

variable {α β : Type} {f : SourceFile} {p : Remarking α} {q : Journaling α}

/-- The computation with the journal ends as the one with remarks does, and does to any journal what the remarks
say. -/
def Journaling.Follows (f : SourceFile) (p : Remarking α) (q : Journaling α) : Prop :=
  ∃ result made, p.Makes result made ∧ ∀ j, q.run j = (result, j.recordAll f made)

namespace Journaling

theorem run_raise (n : Notice) (attr : String) (filename : Option String) (location : Location) (j : Journal) :
    (raise n attr filename location).run j = (.ok (!j.raised n), j.raise n attr filename location) := by
  have hget : (raise n attr filename location).run j = ((if j.raised n then pure false else do
      modify fun j => (j.mark n).log .warn (n.format attr filename location)
      return true : Journaling Bool)).run j := rfl
  rw [hget, Journal.raise]
  cases j.raised n <;> rfl

namespace Follows

theorem pure (x : α) : Follows f (Pure.pure x) (Pure.pure x) := ⟨_, _, makes_pure x, fun _ => rfl⟩

theorem throw (e : ExpansionError) : Follows f (throw e : Remarking α) (MonadExcept.throw e) :=
  ⟨_, _, makes_throw e, fun _ => rfl⟩

theorem debug (text : String) : Follows f (remark (.debug text)) (Journaling.debug text) :=
  ⟨_, _, makes_remark _, fun _ => rfl⟩

theorem bind {next : α → Remarking β} {next' : α → Journaling β} (h : Follows f p q)
    (hnext : ∀ x, Follows f (next x) (next' x)) : Follows f (p >>= next) (q >>= next') := by
  obtain ⟨result, made, hp, hq⟩ := h
  cases result with
  | error e =>
    refine ⟨.error e, made, hp.bind_error next, fun j => ?_⟩
    rw [run_bind, hq]
  | ok x =>
    obtain ⟨result, made', hp', hq'⟩ := hnext x
    refine ⟨result, made ++ made', hp.bind hp', fun j => ?_⟩
    rw [run_bind, hq, Journal.recordAll_append]
    exact hq' _

theorem raise (n : Notice) (attr : String) (location : Location) (h : Follows f p q) :
    Follows f (remark (.advice n attr location) >>= fun _ => p)
      (Journaling.raise n attr f.name location >>= fun _ => q) := by
  obtain ⟨result, made, hp, hq⟩ := h
  refine ⟨result, .advice n attr location :: made, (makes_remark _).bind hp, fun j => ?_⟩
  rw [run_bind, run_raise]
  exact hq _

theorem foldlM {γ : Type} {step : β → γ → Remarking β} {step' : β → γ → Journaling β}
    (h : ∀ b c, Follows f (step b c) (step' b c)) (cs : List γ) (b : β) :
    Follows f (cs.foldlM step b) (cs.foldlM step' b) := by
  induction cs generalizing b with
  | nil => exact pure b
  | cons c cs ih => exact (h b c).bind fun b' => ih b'

theorem mapM {γ : Type} {g : γ → Remarking β} {g' : γ → Journaling β} (h : ∀ c, Follows f (g c) (g' c))
    (cs : List γ) : Follows f (cs.mapM g) (cs.mapM g') := by
  induction cs with
  | nil => exact pure []
  | cons c cs ih =>
    rw [List.mapM_cons, List.mapM_cons]
    exact (h c).bind fun b => ih.bind fun bs => pure (b :: bs)

theorem textIn (start : Nat) (part : Span) : Follows f (f.textIn start part) (Journaling.textIn f start part) := by
  unfold SourceFile.textIn Journaling.textIn
  cases (part.shifted start).slice? f.text with
  | some text => exact pure text
  | none => exact throw _

section Program

variable [Script.ExpressionReader]

theorem shape (attr : String) (e : Expression) : Follows f (f.shape attr e) (Journaling.shape f attr e) := by
  unfold SourceFile.shape Journaling.shape
  cases Script.Shape.ofText? e.text with
  | ok shape => exact pure shape
  | error fault => exact throw _

/-- One more meaning: the flag is read and set before the value of a position is looked at. -/
theorem add (p : ElementPlan) (c : Convention) : Follows f (p.add f c) (Journaling.add f p c) := by
  cases c with
  | attrs name span value => exact pure _
  | create name span value => exact (pure _).raise _ _ _
  | position name span value =>
    refine raise _ _ _ ?_
    cases value with
    | none => exact pure _
    | some e => exact (shape name e).bind fun _ => pure _

theorem ofElement (o : Options) (e : ElementView) :
    Follows f (ElementPlan.ofElement o f e) (Journaling.ofElement o f e) := foldlM add _ _

/-- The walk over the elements. -/
theorem ofElements (o : Options) (es : List ElementView) :
    Follows f (ElementPlan.ofElements o f es) (Journaling.ofElements o f es) := by
  induction es with
  | nil => exact pure []
  | cons e es ih =>
    refine (ofElement o e).bind fun plan => ?_
    split
    · exact (debug _).bind fun _ => ih.bind fun plans => pure (plan :: plans)
    · exact ih

theorem givenArguments (p : ElementPlan) : Follows f (p.givenArguments f) (Journaling.givenArguments f p) := by
  unfold ElementPlan.givenArguments Journaling.givenArguments
  cases p.attrs with
  | none => exact pure []
  | some attrs =>
    refine (shape attrs.name attrs.value).bind fun shape => ?_
    cases shape with
    | array items => exact mapM (textIn attrs.value.span.start) _
    | _ => exact pure _

theorem documentSplices (o : Options) (d : Document) (plans : List ElementPlan) :
    Follows f (Restyle.documentSplices o f d plans) (Journaling.documentSplices o f d plans) := by
  have helement : ∀ p : ElementPlan, Follows f (p.splices o f) (elementSplices o f p) := fun p =>
    (givenArguments p).bind fun _ => pure _
  exact (mapM helement plans).bind fun _ => pure _

/-- A whole file: skipped, faulty, failed in the middle of the walk, or given its edits. -/
theorem expansion (o : Options) (f : SourceFile) : Follows f (Restyle.expansion o f) (Journaling.expansion o f) := by
  unfold Restyle.expansion Journaling.expansion
  split
  · exact (debug _).bind fun _ => pure none
  · dsimp only
    cases (Markup.read f.text).faults with
    | cons first others => exact throw _
    | nil =>
      refine (ofElements o _).bind fun plans => ?_
      split
      · exact (debug _).bind fun _ => pure none
      · refine (documentSplices o _ plans).bind fun splices => ?_
        cases f.spliced splices with
        | ok expanded => exact pure _
        | error e => exact throw _

end Program

end Follows

variable [Script.ExpressionReader]

end Journaling

/-! ### Sessions -/

variable [Script.ExpressionReader]

end Restyle
