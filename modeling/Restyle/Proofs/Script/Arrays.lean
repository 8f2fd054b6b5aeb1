import Restyle.Proofs.Script.Progress

/-! What is known of an array in a text. Each of its items has a part of the text as its slice, from the start
of the first token of the item up to the end of the last, and the part is not empty. -/

namespace Restyle.Script

open Text

/-- What stands between two commas of an array is a hole, or its span has a part of the text as its slice that
is not empty. -/
def Term.ItemOf (cs : List Char) (item : Option (Span × Term)) : Prop :=
  ∀ entry ∈ item, ∃ piece ≠ [], slice? cs entry.1.start entry.1.stop = some piece

/-- If the term is an array, be it in parentheses, its items are parts of the text. -/
def Term.Placed (cs : List Char) (t : Term) : Prop :=
  ∀ items, t.inner = .array items → ∀ item ∈ items, Term.ItemOf cs item

theorem Term.Placed.of_inner {cs : List Char} {t : Term} (h : ∀ items, t.inner ≠ .array items) : t.Placed cs :=
  fun items hitems => absurd hitems (h items)

/-- What stands between two commas in round brackets. -/
def Parse.BracketItem.Placed (cs : List Char) (item : BracketItem) : Prop :=
  ∀ t, item = .expression t → t.Placed cs

/-- A grammar whose expressions take some of a text and are placed in it. -/
structure Grammar.Sound (cs : List Char) (go : Grammar) : Prop where
  advances : go.Advances cs
  gives : ∀ goal, goal.isExpression = true → (go goal).Gives cs (Term.Placed cs)

namespace Parse

variable {cs : List Char} {c : Context} {s s' : State} {go : Grammar}

/-- What is read from a token on by a parser that takes some of the text is a part of the text. -/
theorem exists_slice (hs : s.In cs) (hreaches : s.Reaches s') (hlt : s.start < s'.lastStop) :
    ∃ piece ≠ [], slice? cs s.start s'.lastStop = some piece := by
  obtain ⟨piece, hne, hstands, hstop⟩ := hs.exists_piece hreaches hlt
  exact ⟨piece, hne, slice?_eq_some_iff.2 ⟨hstands, hstop⟩⟩

/-- A term that is no array, be it in parentheses. -/
theorem gives_other {t : Term} (h : ∀ items, t.inner ≠ .array items) : (pure t : Parse Term).Gives cs (Term.Placed cs) :=
  .pure (.of_inner h)

theorem gives_object : (object go).Gives cs (Term.Placed cs) :=
  .of_next fun _ => .of_next fun _ => .of_next fun _ => gives_other nofun

theorem gives_propertyOf (optional : Bool) (t : Term) : (propertyOf optional t).Gives cs (Term.Placed cs) := by
  unfold propertyOf
  split
  · exact .of_next fun _ => .ite (fun _ => .of_next fun _ => gives_other nofun) fun _ => gives_other nofun
  · exact .of_next fun _ => gives_failAt
  · exact .pure (by split <;> exact .of_inner nofun)

theorem gives_typedCall (calls : Bool) (t : Term) : (typedCall go calls t).Gives cs fun found => found.1.Placed cs := by
  have htyped {more : Bool} : (pure (t.typed, more) : Parse (Term × Bool)).Gives cs fun found => found.1.Placed cs :=
    .pure (.of_inner nofun)
  unfold typedCall
  refine .of_next fun _ => .of_next fun s => ?_
  split
  · extract_lets -underBinder rest
    have hrest (u : Unit) : (rest u).Gives cs fun found => found.1.Placed cs :=
      .of_next fun _ => .pure (by dsimp only; split <;> exact .of_inner nofun)
    exact .ite (fun _ => hrest ()) fun _ => .of_next hrest
  · exact .of_next fun _ => .pure (.of_inner nofun)
  · exact htyped
  · exact htyped
  · exact htyped
  · exact gives_fail

theorem gives_step (calls : Bool) {t : Term} (ht : t.Placed cs) :
    (step go calls t).Gives cs fun found => found.1.Placed cs := by
  unfold step
  refine .of_next fun c => ?_
  extract_lets -underBinder untyped
  have huntyped (u : Unit) : (untyped u).Gives cs fun found => found.1.Placed cs := by
    refine .of_next fun question => .of_next fun found => ?_
    extract_lets -underBinder optional asked
    have hasked (u : Unit) : (asked u).Gives cs fun found => found.1.Placed cs := by
      refine .of_next fun (after, _) => .of_next fun atIndex => .ite (fun _ => ?index) fun _ => ?_
      case index =>
        extract_lets -underBinder index
        have hindex (u : Unit) : (index u).Gives cs fun found => found.1.Placed cs :=
          .of_next fun _ => .of_next fun _ => .of_next fun _ => (gives_propertyOf optional t).bind fun _ h => .pure h
        exact .ite (fun _ => .of_next hindex) fun _ => hindex ()
      extract_lets -underBinder calledAfter
      refine .of_next fun _ => .ite (fun _ => ?call) fun _ => ?_
      case call =>
        extract_lets -underBinder called
        have hcalled (u : Unit) : (called u).Gives cs fun found => found.1.Placed cs := by
          refine .of_next fun _ => ?_
          extract_lets -underBinder applied
          have happlied (u : Unit) : (applied u).Gives cs fun found => found.1.Placed cs := by
            have hchain {b : Bool} : (if b = true then Term.chain else Term.other).Placed cs := by
              split <;> exact .of_inner nofun
            exact .of_next fun _ => .ite (fun _ => .of_next fun _ => .pure hchain) fun _ => .pure hchain
          exact .ite (fun _ => .of_next happlied) fun _ => happlied ()
        exact .ite (fun _ => .of_next hcalled) fun _ => hcalled ()
      refine .of_next fun _ => .ite (fun _ => ?member) fun _ => ?_
      case member =>
        refine .of_next fun _ => .of_next fun _ => ?_
        extract_lets -underBinder member
        have hmember (applied : Option Unit) : (member applied).Gives cs fun found => found.1.Placed cs := by
          refine (gives_propertyOf _ t).bind fun property hproperty => .pure ?_
          dsimp only
          split
          · exact .of_inner nofun
          · exact hproperty
        exact .ite (fun _ => .of_next hmember) fun _ => .of_next hmember
      extract_lets -underBinder template
      have htemplate (u : Unit) : (template u).Gives cs fun found => found.1.Placed cs :=
        .of_next fun _ => .ite (fun _ => .of_next fun _ => .pure (.of_inner nofun)) fun _ => .pure ht
      exact .ite (fun _ => .of_next htemplate) fun _ => htemplate ()
    exact .ite (fun _ => .of_next hasked) fun _ => hasked ()
  refine .ite (fun _ => .of_next fun _ => .of_next fun _ => .ite (fun _ => ?_) fun _ => ?_) fun _ => huntyped ()
  · exact .of_next fun _ => .pure (.of_inner nofun)
  · refine .of_next fun _ => .ite (fun _ => ?_) fun _ => huntyped ()
    refine (gives_typedCall calls t).attempt.bind fun found hfound => ?_
    split
    · next next => exact .pure (hfound next rfl)
    · exact huntyped ()

theorem gives_steps (calls : Bool) {t : Term} (ht : t.Placed cs) : (steps go calls t).Gives cs (Term.Placed cs) := by
  refine .of_next fun c => ?_
  generalize c.limit = n
  induction n generalizing t with
  | zero => exact gives_fail
  | succ n ih => exact (gives_step calls ht).bind fun found hfound => .ite (fun _ => ih hfound) fun _ => .pure hfound

theorem gives_importOperand (calls : Bool) : (importOperand go calls).Gives cs (Term.Placed cs) := by
  unfold importOperand
  refine .of_next fun _ => .of_next fun _ => .of_next fun _ => .ite (fun _ => ?_) fun _ => gives_steps calls (.of_inner nofun)
  refine .of_next fun w => ?_
  split
  · have hsteps : (steps go calls .other).Gives cs (Term.Placed cs) := gives_steps calls (.of_inner nofun)
    exact .of_next fun _ => .ite (fun _ => hsteps) fun _ => .of_next fun _ => hsteps
  · exact gives_steps calls (.of_inner nofun)
  · exact gives_steps calls (.of_inner nofun)
  · exact gives_fail

theorem gives_nameOrArrow (mayBeArrow : Bool) : (nameOrArrow go mayBeArrow).Gives cs (Term.Placed cs) := by
  have hname (w : String) : (return .identifier w : Parse Term).Gives cs (Term.Placed cs) := gives_other nofun
  have harrow (isAsync : Bool) : (nameArrow go isAsync).Gives cs (Term.Placed cs) :=
    .of_next fun _ => .of_next fun _ => gives_other nofun
  unfold nameOrArrow
  refine .of_next fun c => .of_next fun isAsync => .of_next fun w => .of_next fun s => ?_
  refine .ite (fun _ => .ite (fun _ => ?_) fun _ => ?_) fun _ => hname w
  · refine .of_next fun _ => .ite (fun _ => hname w) fun _ => .of_next fun _ => .of_next fun _ => ?_
    exact .ite (fun _ => .of_next fun _ => gives_other nofun) fun _ => harrow true
  · exact .of_next fun _ => .ite (fun _ => harrow false) fun _ => hname w

theorem gives_bracketed (start : Nat) (isAsync : Bool) {items : List BracketItem}
    (hitems : ∀ item ∈ items, item.Placed cs) : (bracketed start isAsync items).Gives cs (Term.Placed cs) := by
  unfold bracketed
  refine .ite (fun _ => gives_other nofun) fun _ => ?_
  extract_lets -underBinder rest
  have hrest (u : Unit) : (rest u).Gives cs (Term.Placed cs) := by
    dsimp only [rest]
    split
    · exact gives_failAt
    · next t =>
      -- parentheses around an array do not hide its items
      exact .pure (hitems _ (List.mem_singleton_self _) t rfl)
    · exact gives_other nofun
  exact .ite (fun _ => .of_next hrest) fun _ => hrest ()

theorem placed_joined (m : String) : (joined m).Placed cs := by
  unfold joined
  split <;> exact .of_inner nofun

theorem gives_claimed? (left : Term) (level : Nat) :
    (claimed? go left level).Gives cs fun found => ∀ t ∈ found, t.Placed cs := by
  have hsome {t : Term} (h : ∀ items, t.inner ≠ .array items) :
      (pure (some t) : Parse (Option Term)).Gives cs fun found => ∀ t ∈ found, t.Placed cs :=
    .pure fun t ht => Option.mem_some_iff.1 ht ▸ .of_inner h
  unfold claimed?
  have hnone : (pure none : Parse (Option Term)).Gives cs fun found => ∀ t ∈ found, t.Placed cs := .pure nofun
  refine .of_next fun s => .of_next fun c => .ite (fun _ => .ite (fun _ => ?_) fun _ => ?_) fun _ => hnone
  · exact .of_next fun _ => .ite (fun _ => .of_next fun _ => .of_next fun _ => hsome nofun) fun _ =>
      .of_next fun _ => .of_next fun _ => hsome nofun
  · exact .ite (fun _ => .of_next fun _ => .of_next fun _ => hsome nofun) fun _ => hnone

theorem gives_operations (start level : Nat) {left : Term} (hleft : left.Placed cs) :
    (operations go start level left).Gives cs (Term.Placed cs) := by
  refine .of_next fun c => ?_
  generalize c.limit = n
  induction n generalizing left with
  | zero => exact gives_fail
  | succ n ih =>
    unfold operationsUpTo
    refine (gives_claimed? left level).bind fun found hfound => ?_
    cases found with
    | some t => exact ih (hfound t rfl)
    | none =>
      refine .of_next fun c => .of_next fun t => ?_
      split
      · exact .pure hleft
      · next m tightness _ =>
        refine .ite (fun _ => .pure hleft) fun _ => .of_next fun _ => ?_
        extract_lets -underBinder rest
        have hrest (u : Unit) : (rest u).Gives cs (Term.Placed cs) :=
          .of_next fun _ => .of_next fun _ => .of_next fun _ => ih (placed_joined m)
        refine .ite (fun _ => ?_) fun _ => hrest ()
        split
        · exact .of_next hrest
        · exact .of_next hrest
        · exact hrest ()

theorem gives_assigned (start : Nat) {left : Term} (hleft : left.Placed cs) :
    (assigned go start left).Gives cs (Term.Placed cs) := by
  unfold assigned
  refine .of_next fun t => ?_
  extract_lets -underBinder rest
  have hrest (u : Unit) : (rest u).Gives cs (Term.Placed cs) :=
    .of_next fun _ => .of_next fun _ => .of_next fun _ => .pure (by split <;> exact .of_inner nofun)
  have hchecked : (if left.mayBeTarget = true then rest () else do
      let u ← failAt .invalidAssignmentTarget start
      rest u).Gives cs (Term.Placed cs) := .ite (fun _ => hrest ()) fun _ => .of_next hrest
  split
  · split
    · exact .of_next hrest
    · exact .of_next hrest
    · exact .of_next fun _ => hchecked
  · exact .ite (fun _ => .of_next fun _ => hchecked) fun _ => .pure hleft
  · exact .pure hleft

theorem gives_yielded : (yielded go).Gives cs (Term.Placed cs) := by
  unfold yielded
  refine .of_next fun c => .of_next fun _ => ?_
  extract_lets -underBinder rest
  have hrest (u : Unit) : (rest u).Gives cs (Term.Placed cs) :=
    .of_next fun _ => .of_next fun _ => .ite (fun _ => gives_other nofun) fun _ =>
      .of_next fun _ => .of_next fun _ => gives_other nofun
  exact .ite (fun _ => .of_next hrest) fun _ => hrest ()

theorem gives_awaited (passed : Option Nat) : (awaited go passed).Gives cs (Term.Placed cs) := by
  have hawaited : (do return .awaited (← go .unary) : Parse Term).Gives cs (Term.Placed cs) :=
    .of_next fun _ => gives_other nofun
  unfold awaited
  refine .of_next fun c => .of_next fun s => ?_
  extract_lets -underBinder start rest
  have hrest (u : Unit) : (rest u).Gives cs (Term.Placed cs) := by
    have hnoted {b : Bool} : (if b = true then do
          note .awaitOutsideModule start
          return Term.awaited (← go .unary)
        else return Term.awaited (← go .unary)).Gives cs (Term.Placed cs) :=
      .ite (fun _ => .of_next fun _ => hawaited) fun _ => hawaited
    refine .of_next fun _ => ?_
    extract_lets -underBinder waits
    have hwaits (u : Unit) : (waits u).Gives cs (Term.Placed cs) :=
      .ite (fun _ => hnoted) fun _ => .of_next fun _ => .of_next fun _ => .ite (fun _ => gives_other nofun) fun _ => hnoted
    exact .ite (fun _ => .of_next hwaits) fun _ => hwaits ()
  exact .ite (fun _ => .of_next hrest) fun _ => hrest ()

theorem gives_before : (unary.before go).Gives cs (Term.Placed cs) :=
  .of_next fun _ => .of_next fun _ => gives_other nofun

theorem gives_itemQuestion {t : Term} (ht : t.Placed cs) : (itemQuestion go t).Gives cs fun found => found.2.Placed cs := by
  unfold itemQuestion
  refine .of_next fun c => .of_next fun _ => .ite (fun _ => .of_next fun _ => ?_) fun _ => .pure ht
  split
  case h_5 =>
    split
    · exact .pure ht
    · exact .of_next fun _ => .of_next fun _ => .pure (.of_inner nofun)
  all_goals
    refine .of_next fun _ => ?_
    split
    · exact .pure ht
    · exact gives_fail

variable (hgo : go.Sound cs)

include hgo

theorem gives_spreadable : (spreadable go).Gives cs (Term.Placed cs) :=
  .of_next fun _ => .ite (fun _ => .of_next fun _ => gives_other nofun) fun _ => hgo.gives .assignment rfl

theorem gives_expression : (expression go).Gives cs (Term.Placed cs) :=
  (hgo.gives .assignment rfl).bind fun _ hfirst => .of_next fun _ => .ite
    (fun _ => .of_next fun _ => gives_other nofun) fun _ => .pure hfirst

theorem gives_counted : (unary.counted go).Gives cs (Term.Placed cs) := by
  unfold unary.counted
  refine .of_next fun s => (hgo.gives .call rfl).bind fun t ht => .of_next fun _ => .ite (fun _ => .pure ht) fun _ => ?_
  exact .of_next fun _ => .of_next fun _ => .ite (fun _ => .of_next fun _ => .of_next fun _ => gives_other nofun) fun _ => .pure ht

theorem gives_unary : (unary go).Gives cs (Term.Placed cs) := by
  have hcounted : (unary.counted go).Gives cs (Term.Placed cs) := gives_counted hgo
  unfold unary
  refine .of_next fun c => .of_next fun t => ?_
  split
  · refine .ite (fun _ => .of_next fun _ => .of_next fun kept => ?_) fun _ => hcounted
    extract_lets -underBinder rest
    have hrest (u : Unit) : (rest u).Gives cs (Term.Placed cs) :=
      .of_next fun _ => .of_next fun _ => .pure (by split <;> exact .of_inner nofun)
    exact .ite (fun _ => hrest ()) fun _ => .of_next hrest
  · exact .of_next fun _ => .of_next fun _ => .of_next fun _ => .of_next fun _ => gives_other nofun
  · exact .of_next fun _ => .of_next fun _ => .of_next fun _ => .of_next fun _ => gives_other nofun
  · exact gives_before
  · exact gives_before
  · exact gives_before
  · exact gives_before
  · exact gives_before
  · exact gives_before
  · exact gives_before
  · exact gives_awaited none
  · exact hcounted

theorem gives_operand (level : Nat) : (operand go level).Gives cs (Term.Placed cs) :=
  .of_next fun _ => (gives_unary hgo).bind fun _ ht => gives_operations _ level ht

theorem gives_binary : (binary go).Gives cs (Term.Placed cs) := by
  unfold binary
  refine .of_next fun s => ?_
  extract_lets -underBinder start
  refine .bind (.orElse (gives_unary hgo) fun fault => ?_) fun left hleft => ?_
  · refine .of_next fun _ => .of_next fun _ => .of_next fun _ => ?_
    extract_lets -underBinder rest
    have hrest (u : Unit) : (rest u).Gives cs (Term.Placed cs) := .of_next fun _ => gives_other nofun
    exact .ite (fun _ => .of_next hrest) fun _ => hrest ()
  · exact .ite (fun _ => .pure hleft) fun _ => gives_operations start 0 hleft

theorem gives_conditional : (conditional go).Gives cs (Term.Placed cs) :=
  (gives_binary hgo).bind fun _ htest => .ite (fun _ => .pure htest) fun _ => .of_next fun _ => .ite
    (fun _ => .of_next fun _ => gives_other nofun) fun _ => .pure htest

theorem gives_genericArrow : (genericArrow go).Gives cs (Term.Placed cs) := by
  unfold genericArrow
  refine .of_next fun _ => (hgo.gives .assignment rfl).bind fun t ht => ?_
  extract_lets -underBinder rest
  have hrest (u : Unit) : (rest u).Gives cs (Term.Placed cs) := .pure ht
  exact .ite (fun _ => hrest ()) fun _ => .of_next hrest

theorem gives_assignment : (assignment go).Gives cs (Term.Placed cs) := by
  unfold assignment
  refine .of_next fun c => .of_next fun _ => .of_next fun _ => ?_
  extract_lets -underBinder rest
  have hrest (u : Unit) : (rest u).Gives cs (Term.Placed cs) := by
    refine .of_next fun _ => .ite (fun _ => gives_yielded) fun _ => .of_next fun _ => .of_next fun s => .of_next fun _ => ?_
    exact (gives_conditional hgo).bind fun t ht => .ite (fun _ => .pure ht) fun _ => gives_assigned s.start ht
  refine .ite (fun _ => ?_) fun _ => hrest ()
  refine .bind (.within (gives_genericArrow hgo).attempt) fun found hfound => ?_
  split
  · next t => exact .pure (hfound t rfl)
  · exact hrest ()

/-- An item goes from the start of its first token up to the end of its last. -/
theorem gives_array : (array go).Gives cs (Term.Placed cs) := by
  unfold array
  refine .bind (K := fun items => ∀ item ∈ items, Term.ItemOf cs item) (.within (.collect ?_)) fun items hitems => ?_
  · refine .of_next fun atEnd => .ite (fun _ => .pure nofun) fun _ => .of_next fun hole => .ite (fun _ => .pure ?_) fun _ => ?_
    · rintro item hitem
      cases hitem
      exact nofun
    · intro c s hs
      rw [ends_bind, ends_get, ends_bind]
      refine (takes_spreadable hgo.advances hs).mono fun t s' hreaches hlt => ?_
      have hitem : Term.ItemOf cs (some (⟨s.start, s'.lastStop⟩, t)) := by
        rintro entry hentry
        cases hentry
        exact exists_slice hs hreaches hlt
      rw [ends_bind, ends_get]
      have hdone : (pure (some (some (⟨s.start, s'.lastStop⟩, t))) : Parse (Option (Option (Span × Term)))).Gives cs
          fun found => ∀ item ∈ found, Term.ItemOf cs item := by
        refine .pure fun item h => ?_
        cases h
        exact hitem
      exact Gives.of_next (fun _ => .ite (fun _ => hdone) fun _ => .of_next fun _ => hdone) (hs.of_reaches hreaches)
  · refine .of_next fun _ => .pure fun items' heq => ?_
    cases heq
    exact hitems

theorem gives_itemHead : (itemHead go).Gives cs (Term.Placed cs) :=
  .of_next fun _ => .of_next fun _ => .ite
    (fun _ => .of_next fun s => (gives_binary hgo).bind fun _ hleft => gives_assigned s.start hleft)
    fun _ => .of_next fun _ => .ite (fun _ => .of_next fun _ => .of_next fun _ => gives_other nofun)
      fun _ => gives_spreadable hgo

theorem gives_bracketItem : (bracketItem go).Gives cs (BracketItem.Placed cs) := by
  unfold bracketItem
  refine .of_next fun _ => .of_next fun _ => (gives_itemHead hgo).bind fun head hhead =>
    (gives_itemQuestion hhead).bind fun (optional, t) ht => ?_
  refine .of_next fun c => .of_next fun _ => .ite (fun _ => .of_next fun _ => ?_) fun _ => .pure fun u hu => ?_
  · extract_lets -underBinder rest
    have hrest (u : Unit) : (rest u).Gives cs (BracketItem.Placed cs) := by
      refine .of_next fun valued => ?_
      extract_lets -underBinder parameter
      have hparameter (u : Unit) : (parameter u).Gives cs (BracketItem.Placed cs) := .pure nofun
      exact .ite (fun _ => .of_next hparameter) fun _ => hparameter ()
    split
    · exact .of_next hrest
    · exact .of_next hrest
    · exact .of_next hrest
    · exact .of_next hrest
    · exact .of_next fun _ => .of_next fun _ => .of_next hrest
    · exact hrest ()
  · cases hu
    exact ht

theorem gives_oneMoreItem {items : List BracketItem} (hitems : ∀ item ∈ items, item.Placed cs) :
    (oneMoreItem go items).Gives cs fun found => ∀ items ∈ found, ∀ item ∈ items, item.Placed cs := by
  unfold oneMoreItem
  refine .of_next fun s => .ite (fun _ => .pure nofun) fun _ => (gives_bracketItem hgo).bind fun item hitem => ?_
  extract_lets -underBinder items'
  have hitems' : ∀ item ∈ items', item.Placed cs := List.forall_mem_cons.2 ⟨hitem, hitems⟩
  refine .of_next fun isArrow => ?_
  extract_lets -underBinder rest
  have hrest {items : List BracketItem} (h : ∀ item ∈ items, item.Placed cs) :
      (rest items).Gives cs fun found => ∀ items ∈ found, ∀ item ∈ items, item.Placed cs := by
    refine .of_next fun _ => ?_
    extract_lets -underBinder found
    have hfound (u : Unit) : (found u).Gives cs fun found => ∀ items ∈ found, ∀ item ∈ items, item.Placed cs :=
      .pure fun items hmem => Option.mem_some_iff.1 hmem ▸ h
    exact .ite (fun _ => hfound ()) fun _ => .of_next hfound
  have harrow : (BracketItem.expression .arrow).Placed cs := fun t ht => by
    cases ht
    exact .of_inner nofun
  exact .ite (fun _ => .of_next fun _ => .of_next fun _ => hrest (List.forall_mem_cons.2 ⟨harrow, hitems'⟩))
    fun _ => hrest hitems'

theorem gives_bracketItems : (bracketItems go).Gives cs fun items => ∀ item ∈ items, item.Placed cs :=
  .of_next fun _ => .bind (.within (.grow (fun _ => gives_oneMoreItem hgo) nofun)) fun _ hitems => .of_next fun _ =>
    .pure fun item hitem => hitems item (List.mem_reverse.1 hitem)

theorem gives_bracketsOrArrow (start : Nat) (mayBeArrow isAsync : Bool) :
    (bracketsOrArrow go start mayBeArrow isAsync).Gives cs (Term.Placed cs) := by
  unfold bracketsOrArrow
  refine (gives_bracketItems hgo).bind fun items hitems => .of_next fun c => .of_next fun _ => ?_
  extract_lets -underBinder rest
  have hrest (u : Unit) : (rest u).Gives cs (Term.Placed cs) := by
    refine .of_next fun _ => ?_
    extract_lets -underBinder typed
    have htyped (b : Bool) : (typed b).Gives cs (Term.Placed cs) := by
      refine .of_next fun _ => .ite (fun _ => .of_next fun _ => ?_) fun _ => gives_bracketed start isAsync hitems
      extract_lets -underBinder arrow
      have harrow (u : Unit) : (arrow u).Gives cs (Term.Placed cs) :=
        .of_next fun _ => .of_next fun _ => .ite (fun _ => .of_next fun _ => gives_operations start 0 (.of_inner nofun))
          fun _ => gives_other nofun
      exact .ite (fun _ => .of_next harrow) fun _ => harrow ()
    exact .ite (fun _ => .of_next fun _ => htyped _) fun _ => htyped _
  exact .ite (fun _ => .of_next fun _ => .ite (fun _ => gives_other nofun) fun _ => hrest ()) fun _ => hrest ()

theorem gives_asyncOperand? (mayBeArrow : Bool) :
    (asyncOperand? go mayBeArrow).Gives cs fun found => ∀ t ∈ found, t.Placed cs := by
  have hsome {t : Term} (ht : t.Placed cs) :
      (pure (some t) : Parse (Option Term)).Gives cs fun found => ∀ t ∈ found, t.Placed cs :=
    .pure fun u hu => Option.mem_some_iff.1 hu ▸ ht
  unfold asyncOperand?
  refine .of_next fun s => .of_next fun (after, breakBefore) => .ite
    (fun _ => .of_next fun _ => .of_next fun _ => hsome (.of_inner nofun)) fun _ => .of_next fun c => ?_
  extract_lets -underBinder rest
  have hrest (u : Unit) : (rest u).Gives cs fun found => ∀ t ∈ found, t.Placed cs :=
    .ite (fun _ => .of_next fun _ => (gives_bracketsOrArrow hgo _ _ _).bind fun _ ht => hsome ht) fun _ => .pure nofun
  exact .ite (fun _ => .of_next fun _ => .ite (fun _ => hsome (.of_inner nofun)) fun _ => hrest ()) fun _ => hrest ()

theorem gives_primary : (primary go).Gives cs (Term.Placed cs) := by
  unfold primary
  refine .of_next fun s => .of_next fun c => ?_
  dsimp only
  split
  · exact .of_next fun _ => gives_other nofun
  · exact .of_next fun _ => gives_other nofun
  · exact .of_next fun _ => gives_other nofun
  · exact .of_next fun _ => gives_other nofun
  · exact .of_next fun _ => gives_other nofun
  · exact .of_next fun _ => gives_other nofun
  · exact .of_next fun _ => gives_array hgo
  · exact gives_object
  · exact gives_bracketsOrArrow hgo _ _ _
  · exact .of_next fun _ => gives_other nofun
  · exact .of_next fun _ => gives_other nofun
  · exact .of_next fun _ => gives_other nofun
  · exact .of_next fun _ => gives_other nofun
  · exact .of_next fun _ => gives_other nofun
  · exact .of_next fun _ => gives_other nofun
  · exact .of_next fun _ => gives_other nofun
  · exact .of_next fun _ => gives_other nofun
  · refine (gives_asyncOperand? hgo _).bind fun found hfound => ?_
    cases found with
    | none => exact gives_nameOrArrow _
    | some t => exact .pure (hfound t rfl)
  · exact .ite (fun _ => gives_nameOrArrow _) fun _ => gives_fail

theorem gives_constructed : (constructed go).Gives cs (Term.Placed cs) := by
  have hsteps : (steps go false .other).Gives cs (Term.Placed cs) := gives_steps false (.of_inner nofun)
  unfold constructed
  refine .of_next fun t => ?_
  split
  · refine .of_next fun _ => .of_next fun _ => .ite (fun _ => .of_next fun _ => hsteps) fun _ => .of_next fun _ => ?_
    refine (hgo.gives .constructed rfl).bind fun callee hcallee => .ite (fun _ => .pure hcallee) fun _ => ?_
    extract_lets -underBinder rest
    have hrest (u : Unit) : (rest u).Gives cs (Term.Placed cs) :=
      .of_next fun _ => .of_next fun _ => .ite (fun _ => .of_next fun _ => hsteps) fun _ => gives_other nofun
    exact .ite (fun _ => .of_next hrest) fun _ => hrest ()
  · exact .of_next fun _ => gives_steps false (.of_inner nofun)
  · exact gives_importOperand false
  · refine (gives_primary hgo).bind fun t ht => .ite (fun _ => .pure ht) fun _ => .of_next fun c => .of_next fun _ => ?_
    extract_lets -underBinder rest
    have hrest (applied : Option Unit) : (rest applied).Gives cs (Term.Placed cs) := by
      refine gives_steps false ?_
      split
      · exact .of_inner nofun
      · exact ht
    exact .ite (fun _ => .of_next hrest) fun _ => .of_next hrest

theorem gives_call : (call go).Gives cs (Term.Placed cs) := by
  unfold call
  refine .of_next fun t => ?_
  split
  · exact .of_next fun _ => gives_steps true (.of_inner nofun)
  · exact gives_importOperand true
  · refine (gives_constructed hgo).bind fun callee hcallee => .ite (fun _ => .pure hcallee) fun _ => .of_next fun _ => ?_
    refine .ite (fun _ => .pure hcallee) fun _ => .of_next fun _ => .ite (fun _ => .of_next fun _ => ?_) fun _ => .pure hcallee
    exact gives_steps true (by split <;> exact .of_inner nofun)

end Parse

namespace Grammar

variable {cs : List Char} {go : Grammar}

open Parse

/-- If the constructs inside are placed in the text, so are those that contain them. -/
theorem Sound.unfold (hgo : go.Sound cs) : go.unfold.Sound cs where
  advances := hgo.advances.unfold
  gives goal h := by
    cases goal with
    | assignment => exact gives_assignment hgo
    | operand level => exact gives_operand hgo level
    | unary => exact gives_unary hgo
    | call => exact gives_call hgo
    | constructed => exact gives_constructed hgo
    | _ => cases h

theorem sound_upTo (depth : Nat) : (upTo depth).Sound cs := by
  induction depth with
  | zero => exact ⟨advances_upTo 0, fun _ _ => gives_fail⟩
  | succ depth ih => exact ⟨advances_upTo _, fun goal => ih.unfold.gives goal⟩

theorem sound_ofText (text : List Char) : (ofText text).Sound cs := sound_upTo _

end Grammar

end Restyle.Script
