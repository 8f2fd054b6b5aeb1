import Restyle.Proofs.Script.Postconditions
import Restyle.Script.Grammar

/-! What a grammar of a text reads as an expression takes some of the text. -/

namespace Restyle.Script

/-- The constructs that are expressions. -/
def Goal.isExpression : Goal → Bool
  | .assignment | .operand _ | .unary | .call | .constructed => true
  | _ => false

/-- A grammar whose expressions take some of a text. -/
def Grammar.Advances (cs : List Char) (go : Grammar) : Prop := ∀ goal, goal.isExpression = true → (go goal).Takes cs

namespace Parse

variable {cs : List Char} {c : Context} {s s' : State} {go : Grammar}

/-! ### Expressions take some of the text -/

section Takes

theorem takes_bracketsOrArrow (start : Nat) (mayBeArrow isAsync : Bool) :
    (bracketsOrArrow go start mayBeArrow isAsync).Takes cs :=
  .bind (.bind takes_expectMark)

theorem takes_object : (object go).Takes cs := takes_expectMark.bind

theorem takes_function (isAsync : Bool) (place : FunctionPlace) : (function go isAsync place).Takes cs :=
  takes_expectWord.bind

theorem takes_classRest (isNamed : Bool) : (classRest go isNamed).Takes cs :=
  .bind (.within takes_expectWord.bind)

theorem takes_nameOrArrow (mayBeArrow : Bool) : (nameOrArrow go mayBeArrow).Takes cs :=
  .of_next fun _ => .of_next fun _ => takes_anyWord.bind

/-- A regular expression goes on at least up to behind its first slash. -/
theorem ends_regexRun (hs : s.In cs) (htoken : s.token ≠ .finish) :
    regexRun.Ends c s fun _ s' => s.start < s'.lastStop := by
  have hsource : s.source ≠ [] := by
    intro hnil
    have hstop : s.stop = s.start := by rw [Place.stop, hnil, List.take_nil]; rfl
    exact absurd (hs.start_lt_stop htoken) (hstop ▸ Nat.lt_irrefl _)
  obtain ⟨slash, source, hcons⟩ := List.exists_cons_of_ne_nil hsource
  obtain ⟨read, -, hstop⟩ := exists_regexText false (s.start + slash.utf8Size) source
  have hlt : s.start < (regexText false (s.start + slash.utf8Size) source).2.1 := by
    have := slash.utf8Size_pos
    omega
  intro isClosed s' hrun
  unfold regexRun at hrun
  simp only [hcons] at hrun
  split at hrun
  · cases hrun
    exact hlt.trans_le (Nat.le_add_right ..)
  · cases hrun
    exact hlt

theorem ends_regex (hs : s.In cs) (htoken : s.token ≠ .finish) :
    regex.Ends c s fun _ s' => s.start < s'.lastStop := by
  unfold regex
  rw [ends_bind, ends_get, ends_bind]
  exact (ends_regexRun hs htoken).mono fun _ _ hreaches hlt => ends_of_taken (hs.of_reaches hreaches) hlt _ c

/-- The text of a template begins behind its first quote. -/
theorem ends_templateText (tagged : Bool) :
    (templateText tagged).Ends c s fun _ s' => s.stop ≤ s'.lastStop := by
  intro goesOn s' hrun
  unfold templateText at hrun
  dsimp only at hrun
  split at hrun
  · cases hrun
  · next run hread =>
    obtain ⟨read, -, hstop⟩ := TemplateRun.exists_read hread
    split at hrun
    · cases hrun
      exact (Nat.le_add_right ..).trans_eq hstop.symm
    · cases hrun

theorem ends_substituted (tagged : Bool) (hs : s.In cs) (htoken : s.token ≠ .finish) :
    (substituted go tagged).Ends c s fun _ s' => s.start < s'.lastStop := by
  have htext : (templateText tagged).Ends c s fun _ s' => s.start < s'.lastStop :=
    (ends_templateText tagged).mono fun _ _ _ hle => (hs.start_lt_stop htoken).trans_le hle
  unfold substituted template loop
  rw [ends_bind, ends_read]
  cases c.limit with
  | zero => exact ends_fail.2 trivial
  | succ n =>
    unfold repeatWhile
    rw [ends_bind, ends_bind]
    refine htext.mono fun goesOn s' hreaches hlt => ?_
    rw [← ends_bind]
    exact ends_of_taken (hs.of_reaches hreaches) hlt _ c

/-- Past `async`, if more than a name begins with it. -/
theorem ends_asyncOperand? (mayBeArrow : Bool) (hs : s.In cs) (htoken : s.token ≠ .finish) :
    (asyncOperand? go mayBeArrow).Ends c s fun found s' => found.isSome = true → s.start < s'.lastStop := by
  have hadvance {next : Unit → Parse (Option Term)} :
      (advance >>= next).Ends c s fun found s' => found.isSome = true → s.start < s'.lastStop :=
    (ends_advance_bind hs htoken).mono fun _ _ _ hlt _ => hlt
  have hcall : (if (mayBeArrow && s.next.token = Token.mark "(" && !s.next.afterBreak) = true then do
        advance
        return some (← bracketsOrArrow go s.start mayBeArrow true)
      else return none).Ends c s fun found s' => found.isSome = true → s.start < s'.lastStop :=
    ends_ite.2 ⟨fun _ => hadvance, fun _ => ends_pure.2 nofun⟩
  unfold asyncOperand?
  simp only [ends_bind, ends_get, ends_following]
  refine ends_ite.2 ⟨fun _ => hadvance, fun _ => ?_⟩
  rw [ends_bind, ends_read]
  refine ends_ite.2 ⟨fun _ => ?_, fun _ => hcall⟩
  rw [ends_bind]
  refine Ends.attempt (P := fun _ place => s.start < place.lastStop) (ends_advance_bind hs htoken)
    (fun arrow s' hreaches hlt => ?_) (ends_ite.2 ⟨nofun, fun _ => hcall⟩)
  exact ends_pure.2 fun _ => hlt

theorem takes_primary : (primary go).Takes cs := by
  intro c s hs
  unfold primary
  rw [ends_bind, ends_get, ends_bind, ends_read]
  have hname (t : Token) : (if c.isName t = true then nameOrArrow go (s.arrowStart = some s.start)
      else fail .expressionExpected).Ends c s fun _ s' => s.start < s'.lastStop :=
    ends_ite.2 ⟨fun _ => takes_nameOrArrow _ hs, fun _ => ends_fail.2 trivial⟩
  by_cases htoken : s.token = .finish
  · rw [htoken]
    exact hname _
  · have hadvance {next : Unit → Parse Term} := @ends_advance_bind _ _ c _ next hs htoken
    have hthen {p : Parse Unit} (h : p.Ends c s fun _ s' => s.start < s'.lastStop) :
        (p >>= fun _ => return Term.other).Ends c s fun _ s' => s.start < s'.lastStop :=
      ends_bind.2 (h.mono fun _ _ _ hlt => ends_pure.2 hlt)
    dsimp only
    split
    · exact hadvance
    · exact hadvance
    · exact hadvance
    · exact hthen (ends_regex hs htoken)
    · exact hthen (ends_regex hs htoken)
    · exact hthen (ends_substituted false hs htoken)
    · exact hadvance
    · exact takes_object hs
    · exact takes_bracketsOrArrow _ _ _ hs
    · exact takes_memberName.bind hs
    · exact (takes_function _ _).bind hs
    · exact (takes_classRest _).bind hs
    · exact hadvance
    · exact hadvance
    · exact hadvance
    · exact hadvance
    · exact hadvance
    · refine ends_bind.2 ((ends_asyncOperand? _ hs htoken).mono fun found s' hreaches hlt => ?_)
      cases found with
      | none => exact (takes_nameOrArrow _).ends hs hreaches
      | some t => exact ends_pure.2 (hlt rfl)
    · exact hname _

theorem ends_importOperand (calls : Bool) (hs : s.In cs) (htoken : s.token ≠ .finish) :
    (importOperand go calls).Ends c s fun _ s' => s.start < s'.lastStop := by
  unfold importOperand
  rw [ends_bind, ends_get]
  exact ends_advance_bind hs htoken

theorem ends_yielded (hs : s.In cs) (htoken : s.token ≠ .finish) :
    (yielded go).Ends c s fun _ s' => s.start < s'.lastStop := by
  unfold yielded
  rw [ends_bind, ends_read]
  exact ends_advance_bind hs htoken

theorem ends_before (hs : s.In cs) (htoken : s.token ≠ .finish) :
    (unary.before go).Ends c s fun _ s' => s.start < s'.lastStop := ends_advance_bind hs htoken

theorem ends_awaited (hs : s.In cs) (htoken : s.token ≠ .finish) :
    (awaited go none).Ends c s fun _ s' => s.start < s'.lastStop := by
  unfold awaited
  rw [ends_bind, ends_read, ends_bind, ends_get]
  exact ends_advance_bind hs htoken

/-- Nothing has been read unless a type is claimed. -/
theorem ends_claimed? (left : Term) (level : Nat) (hs : s.In cs) :
    (claimed? go left level).Ends c s fun _ s' => s' = s ∨ s.start < s'.lastStop := by
  have htaken {next : Unit → Parse (Option Term)} {w : String} (h : s.token.isTheWord w = true) :
      (advance >>= next).Ends c s fun _ s' => s' = s ∨ s.start < s'.lastStop := by
    have htoken : s.token ≠ .finish := by
      intro hfinish
      rw [hfinish] at h
      cases h
    exact (ends_advance_bind hs htoken).mono fun _ _ _ => .inr
  unfold claimed?
  rw [ends_bind, ends_get, ends_bind, ends_read]
  refine ends_ite.2 ⟨fun _ => ends_ite.2 ⟨fun hword => ?_, fun _ => ends_ite.2 ⟨htaken, fun _ => ?_⟩⟩,
    fun _ => ends_pure.2 (.inl rfl)⟩
  · rw [ends_bind, ends_following]
    exact ends_ite.2 ⟨fun _ => htaken hword, fun _ => htaken hword⟩
  · exact ends_pure.2 (.inl rfl)

theorem ends_failIfBad : failIfBad.Ends c s fun _ s' => s' = s := by
  unfold failIfBad
  rw [ends_bind, ends_get]
  split
  · exact ends_bind.2 ((ends_reaches ..).mono fun _ _ _ _ => ends_throw.2 trivial)
  · exact ends_pure.2 rfl

/-- A fault is noted at the same place, unless the current token cannot be used. -/
theorem ends_note {kind : FaultKind} {offset : Nat} (htoken : ∀ kind, s.token ≠ .bad kind) :
    (note kind offset).Ends c s fun _ s' => s'.toPlace = s.toPlace := by
  have hpass : passBad.Ends c s fun _ s' => s' = s := by
    unfold passBad
    rw [ends_bind, ends_get]
    split
    · next h => exact absurd h (htoken _)
    · exact ends_pure.2 rfl
  unfold note
  rw [ends_bind, ends_read]
  refine ends_ite.2 ⟨fun _ => ends_pure.2 rfl, fun _ => ends_bind.2 (hpass.mono fun _ s' _ hs' => ?_)⟩
  subst hs'
  exact ends_move.2 rfl

theorem pos_of_lookup {m : String} {level : Nat} {table : List (String × Nat)} (hall : ∀ entry ∈ table, 0 < entry.2)
    (h : table.lookup m = some level) : 0 < level := by
  obtain ⟨before, after, rfl, -⟩ := List.lookup_eq_some_iff.1 h
  exact hall (m, level) (by simp)

theorem operator?_pos {allowIn : Bool} {t : Token} {operator : String × Nat} (h : operator? allowIn t = some operator) :
    0 < operator.2 := by
  unfold operator? at h
  split at h
  · obtain ⟨level, hlookup, rfl⟩ := Option.map_eq_some_iff.1 h
    exact pos_of_lookup (by decide) hlookup
  · cases allowIn <;> cases h
    decide
  · cases h
    decide
  · cases h

/-- At an operator some of the text is taken. -/
theorem ends_operations (left : Term) (start : Nat) (hs : s.In cs) (hoperator : (operator? c.allowIn s.token).isSome = true) :
    (operations go start 0 left).Ends c s fun _ s' => s.start < s'.lastStop := by
  obtain ⟨operator, hoperator⟩ := Option.isSome_iff_exists.1 hoperator
  have htoken : s.token ≠ .finish := by
    intro hfinish
    rw [hfinish] at hoperator
    cases hoperator
  unfold operations
  rw [ends_bind, ends_read]
  generalize c.limit = n
  induction n generalizing left with
  | zero => exact ends_fail.2 trivial
  | succ n ih =>
    unfold operationsUpTo
    rw [ends_bind]
    refine (ends_claimed? left 0 hs).mono fun found s' hreaches h => ?_
    rcases h with rfl | hlt
    · cases found with
      | some t => exact ih t
      | none =>
        dsimp only
        rw [ends_bind, ends_read, ends_bind, ends_token, hoperator]
        exact ends_ite.2 ⟨fun hle => absurd (operator?_pos hoperator) (Nat.not_lt.2 hle),
          fun _ => ends_advance_bind hs htoken⟩
    · exact ends_of_taken (hs.of_reaches hreaches) hlt _ c

theorem takes_constructed : (constructed go).Takes cs := by
  intro c s hs
  unfold constructed
  rw [ends_bind, ends_token]
  split
  · next htoken => exact ends_advance_bind hs (htoken ▸ Token.noConfusion)
  · next htoken => exact ends_advance_bind hs (htoken ▸ Token.noConfusion)
  · next htoken => exact ends_importOperand false hs (htoken ▸ Token.noConfusion)
  · exact takes_primary.bind hs

theorem takes_call : (call go).Takes cs := by
  intro c s hs
  unfold call
  rw [ends_bind, ends_token]
  split
  · next htoken => exact ends_advance_bind hs (htoken ▸ Token.noConfusion)
  · next htoken => exact ends_importOperand true hs (htoken ▸ Token.noConfusion)
  · exact takes_constructed.bind hs

variable (hgo : go.Advances cs)

include hgo

theorem takes_spreadable : (spreadable go).Takes cs :=
  .of_next fun _ => .ite (fun _ => (hgo .assignment rfl).bind) fun _ => hgo .assignment rfl

theorem takes_expression : (expression go).Takes cs := (hgo .assignment rfl).bind

theorem takes_counted : (unary.counted go).Takes cs := .of_next fun _ => (hgo .call rfl).bind

theorem takes_unary : (unary go).Takes cs := by
  intro c s hs
  unfold unary
  rw [ends_bind, ends_read, ends_bind, ends_token]
  by_cases htoken : s.token = .finish
  · rw [htoken]
    exact takes_counted hgo hs
  · split
    · refine ends_ite.2 ⟨fun _ => ends_advance_bind hs htoken, fun _ => takes_counted hgo hs⟩
    · exact ends_advance_bind hs htoken
    · exact ends_advance_bind hs htoken
    · exact ends_before hs htoken
    · exact ends_before hs htoken
    · exact ends_before hs htoken
    · exact ends_before hs htoken
    · exact ends_before hs htoken
    · exact ends_before hs htoken
    · exact ends_before hs htoken
    · exact ends_awaited hs htoken
    · exact takes_counted hgo hs

theorem takes_operand (level : Nat) : (operand go level).Takes cs := .of_next fun _ => (takes_unary hgo).bind

theorem takes_genericArrow : (genericArrow go).Takes cs := .of_next fun _ => (hgo .assignment rfl).bind

theorem takes_binary : (binary go).Takes cs := by
  intro c s hs
  unfold binary
  rw [ends_bind, ends_get, ends_bind]
  refine Ends.orElse ?_ fun fault s' hreaches => ?_
  · exact (takes_unary hgo hs).mono fun _ _ hreaches hlt => ends_of_taken (hs.of_reaches hreaches) hlt _ c
  · rw [ends_bind]
    refine ends_failIfBad.mono fun _ t _ hstay => ?_
    obtain rfl : s' = t := hstay.symm
    rw [ends_bind, ends_get, ends_bind, ends_read]
    refine ends_ite.2 ⟨fun _ => ends_throw.2 trivial, fun hoperator => ?_⟩
    -- the fault is noted, and the operator takes some of the text
    have hsome : (operator? c.allowIn s'.token).isSome = true := by simpa [Option.isSome_iff_ne_none] using hoperator
    rw [ends_bind]
    refine (ends_note fun kind hbad => ?_).mono fun _ s'' hreaches' hstay => ends_pure.2 ?_
    · rw [hbad] at hsome
      cases hsome
    · have hs'' : s''.In cs := hs.of_reaches (hreaches.trans hreaches')
      refine (ends_operations .invalid s.start hs'' (hstay ▸ hsome)).mono fun _ _ _ hlt => ?_
      exact (hs.start_le (hreaches.trans hreaches')).trans_lt hlt

theorem takes_conditional : (conditional go).Takes cs := (takes_binary hgo).bind

theorem takes_assignment : (assignment go).Takes cs := by
  intro c s hs
  unfold assignment
  rw [ends_bind, ends_read, ends_bind, ends_isMark, ends_bind, ends_following]
  extract_lets -underBinder rest
  have hrest : (rest ()).Ends c s fun _ s' => s.start < s'.lastStop := by
    dsimp only [rest]
    rw [ends_bind, ends_isWord]
    refine ends_ite.2 ⟨fun hyield => ends_yielded hs fun hfinish => ?_, fun _ => ?_⟩
    · rw [hfinish] at hyield
      simp [Token.isTheWord] at hyield
    · exact Takes.of_next (fun _ => .of_next fun _ => .of_next fun _ => (takes_conditional hgo).bind) hs
  refine ends_ite.2 ⟨fun _ => ?_, fun _ => hrest⟩
  rw [ends_bind, ends_within]
  refine Ends.attempt (P := fun _ place => s.start < place.lastStop) (takes_genericArrow hgo hs)
    (fun t s' _ hlt => ends_pure.2 hlt) hrest

end Takes

end Parse

namespace Grammar

variable {cs : List Char} {go : Grammar}

open Parse

/-- If the constructs inside take some of the text, so do those that contain them. -/
theorem Advances.unfold (hgo : go.Advances cs) : go.unfold.Advances cs := by
  intro goal h
  cases goal with
  | assignment => exact takes_assignment hgo
  | operand level => exact takes_operand hgo level
  | unary => exact takes_unary hgo
  | call => exact takes_call
  | constructed => exact takes_constructed
  | _ => cases h

theorem advances_upTo (depth : Nat) : (upTo depth).Advances cs := by
  induction depth with
  | zero => exact fun _ _ => takes_fail
  | succ depth ih => exact fun goal => ih.unfold goal

theorem advances_ofText (text : List Char) : (ofText text).Advances cs := advances_upTo _

end Grammar

end Restyle.Script
