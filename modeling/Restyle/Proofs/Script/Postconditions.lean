import Restyle.Proofs.Script.Places

/-! What holds wherever a parser ends without a fault. From the rules for the steps that parsers are made
of come two properties of a parser: that it takes some of the text, and that what it gives is of a kind. -/

namespace Restyle.Script.Parse

variable {α β : Type} {cs : List Char} {c : Context} {s : State}

/-- If the parser ends without a fault, this holds of its result and of the state. -/
def Ends (p : Parse α) (c : Context) (s : State) (post : α → State → Prop) : Prop :=
  ∀ ⦃a s'⦄, p.run c s = .ok a s' → post a s'

section Rules

variable {p : Parse α} {post post' : α → State → Prop}

theorem Ends.mono (h : p.Ends c s post) (himp : ∀ a s', s.Reaches s' → post a s' → post' a s') :
    p.Ends c s post' :=
  fun _ _ hrun => himp _ _ (reaches_of_ok hrun) (h hrun)

/-- All that is known of any parser. -/
theorem ends_reaches (p : Parse α) (c : Context) (s : State) : p.Ends c s fun _ s' => s.Reaches s' :=
  fun _ _ hrun => reaches_of_ok hrun

theorem ends_pure {a : α} : (pure a : Parse α).Ends c s post ↔ post a s := by
  refine ⟨fun h => h rfl, fun h a' s' hrun => ?_⟩
  cases hrun
  exact h

theorem ends_bind {next : α → Parse β} {post : β → State → Prop} :
    (p >>= next).Ends c s post ↔ p.Ends c s fun a s' => (next a).Ends c s' post := by
  cases hp : p.run c s with
  | ok a s' =>
    have hbind : (p >>= next).run c s = (next a).run c s' := by simp only [Bind.bind, hp]
    refine ⟨fun h a' s'' hp' b _ hnext => ?_, fun h b _ hend => h hp (hbind.symm.trans hend)⟩
    cases hp.symm.trans hp'
    exact h (hbind.trans hnext)
  | error fault s' =>
    have hbind : (p >>= next).run c s = .error fault s' := by simp only [Bind.bind, hp]
    exact ⟨fun _ _ _ hp' => (by cases hp.symm.trans hp'), fun _ _ _ hend => (by cases hbind.symm.trans hend)⟩

theorem ends_get {post : State → State → Prop} : get.Ends c s post ↔ post s s :=
  ⟨fun h => h rfl, fun h a s' hrun => by cases hrun; exact h⟩

theorem ends_read {post : Context → State → Prop} : (read : Parse Context).Ends c s post ↔ post c s :=
  ⟨fun h => h rfl, fun h a s' hrun => by cases hrun; exact h⟩

theorem ends_throw {fault : Fault} : (throw fault : Parse α).Ends c s post ↔ True :=
  ⟨fun _ => trivial, fun _ a s' hrun => by cases hrun⟩

theorem ends_failAt {kind : FaultKind} {offset : Nat} : (failAt kind offset : Parse α).Ends c s post ↔ True := by
  refine ⟨fun _ => trivial, fun _ => ?_⟩
  unfold failAt
  refine ends_bind.2 (ends_read.2 ?_)
  split
  · exact ends_throw.2 trivial
  · exact ends_bind.2 ((ends_reaches ..).mono fun _ _ _ _ => ends_throw.2 trivial)

theorem ends_fail {kind : FaultKind} : (fail kind : Parse α).Ends c s post ↔ True := by
  unfold fail
  simp only [ends_bind, ends_get, ends_failAt]

theorem ends_move {next : State → State} {h : ∀ s : State, s.Reaches (next s)} {post : Unit → State → Prop} :
    (move next h).Ends c s post ↔ post () (next s) :=
  ⟨fun h => h rfl, fun h a s' hrun => by cases hrun; exact h⟩

theorem ends_token {post : Token → State → Prop} : token.Ends c s post ↔ post s.token s := by
  unfold token
  simp only [ends_bind, ends_get, ends_pure]

theorem ends_isMark {m : String} {post : Bool → State → Prop} :
    (isMark m).Ends c s post ↔ post (decide (s.token = .mark m)) s := by
  unfold isMark
  simp only [ends_bind, ends_token, ends_pure]

theorem ends_isWord {w : String} {post : Bool → State → Prop} :
    (isWord w).Ends c s post ↔ post (s.token.isTheWord w) s := by
  unfold isWord
  simp only [ends_bind, ends_token, ends_pure]

theorem ends_following {post : Token × Bool → State → Prop} :
    following.Ends c s post ↔ post (s.next.token, s.next.afterBreak) s := by
  unfold following
  simp only [ends_bind, ends_get, ends_pure]

theorem ends_within {f : Context → Context} : (within f p).Ends c s post ↔ p.Ends (f c) s post := Iff.rfl

theorem ends_ite {b : Prop} [Decidable b] {q : Parse α} :
    (if b then p else q).Ends c s post ↔ (b → p.Ends c s post) ∧ (¬ b → q.Ends c s post) := by
  split <;> simp [*]

theorem Ends.orElse {otherwise : Fault → Parse α} (h : p.Ends c s post)
    (hotherwise : ∀ fault s', s.Reaches s' → (otherwise fault).Ends c s' post) :
    (orElse p otherwise).Ends c s post := by
  intro a s' hrun
  unfold Parse.orElse at hrun
  dsimp only at hrun
  split at hrun
  · next hp =>
    cases hrun
    exact h hp
  · next hp => exact hotherwise _ _ (reaches_of_error hp) hrun

/-- A parser that is tried out has ended without a fault, or nothing has been read. -/
theorem Ends.attempt {P : α → Place → Prop} {post' : Option α → State → Prop}
    (h : p.Ends { c with quiet := true } s fun a s' => P a s'.toPlace)
    (hsome : ∀ (a : α) (s' : State), s.Reaches s' → P a s'.toPlace → post' (some a) s') (hnone : post' none s) :
    (attempt p).Ends c s post' := by
  intro found s' hrun
  unfold Parse.attempt at hrun
  dsimp only at hrun
  split at hrun
  · next a s'' hp =>
    cases hrun
    have hpost := h hp
    exact hsome a _ (show s.Reaches s'' from reaches_of_ok hp) hpost
  · cases hrun
    exact hnone

end Rules

/-! ### Some of the text is taken -/

/-- Wherever the parser ends, the token at which it began is passed at least in part. -/
def Takes (cs : List Char) (p : Parse α) : Prop :=
  ∀ ⦃c : Context⦄ ⦃s : State⦄, s.In cs → p.Ends c s fun _ s' => s.start < s'.lastStop

section Takes

variable {s' : State} {p q : Parse α} {next : α → Parse β} {m w : String}

/-- What has been taken stays so, whatever is read on. -/
theorem ends_of_taken (hs' : s'.In cs) (h : s.start < s'.lastStop) (p : Parse α) (c : Context) :
    p.Ends c s' fun _ s'' => s.start < s''.lastStop :=
  (ends_reaches p c s').mono fun _ _ hreaches _ => h.trans_le (hs'.lastStop_mono hreaches)

/-- A parser that reads on before it takes some takes some. -/
theorem Takes.ends (hp : p.Takes cs) (hs : s.In cs) (h : s.Reaches s') :
    p.Ends c s' fun _ s'' => s.start < s''.lastStop :=
  (hp (hs.of_reaches h)).mono fun _ _ _ hlt => (hs.start_le h).trans_lt hlt

theorem Takes.bind (hp : p.Takes cs) : (p >>= next).Takes cs := fun c _ hs =>
  ends_bind.2 ((hp hs).mono fun _ _ hreaches hlt => ends_of_taken (hs.of_reaches hreaches) hlt _ c)

theorem Takes.of_next (h : ∀ a, (next a).Takes cs) : (p >>= next).Takes cs := fun _ _ hs =>
  ends_bind.2 ((ends_reaches ..).mono fun a _ hreaches _ => (h a).ends hs hreaches)

theorem Takes.ite {b : Prop} [Decidable b] (hp : b → p.Takes cs) (hq : ¬ b → q.Takes cs) :
    (if b then p else q).Takes cs := by
  split
  · next h => exact hp h
  · next h => exact hq h

theorem Takes.within {f : Context → Context} (hp : p.Takes cs) : (within f p).Takes cs := fun _ _ hs => hp hs

theorem takes_fail {kind : FaultKind} : (fail kind : Parse α).Takes cs := fun _ _ _ => ends_fail.2 trivial

/-- The current token is passed. -/
theorem ends_advance (hs : s.In cs) (htoken : s.token ≠ .finish) :
    advance.Ends c s fun _ s' => s.start < s'.lastStop := by
  refine ends_move.2 ?_
  exact hs.start_lt_stop htoken

theorem ends_advance_bind {next : Unit → Parse β} (hs : s.In cs) (htoken : s.token ≠ .finish) :
    (advance >>= next).Ends c s fun _ s' => s.start < s'.lastStop :=
  ends_bind.2 ((ends_advance hs htoken).mono fun _ _ hreaches hlt =>
    ends_of_taken (hs.of_reaches hreaches) hlt _ c)

theorem ends_eatMark (hs : s.In cs) :
    (eatMark m).Ends c s fun found s' => found = true → s.start < s'.lastStop := by
  unfold eatMark
  rw [ends_bind, ends_isMark]
  refine ends_ite.2 ⟨fun h => ?_, fun _ => ?_⟩
  · have htoken : s.token ≠ .finish := by
      rw [of_decide_eq_true h]
      exact Token.noConfusion
    exact (ends_advance_bind hs htoken).mono fun _ _ _ hlt _ => hlt
  · exact ends_pure.2 nofun

theorem ends_eatWord (hs : s.In cs) :
    (eatWord w).Ends c s fun found s' => found = true → s.start < s'.lastStop := by
  unfold eatWord
  rw [ends_bind, ends_isWord]
  refine ends_ite.2 ⟨fun h => ?_, fun _ => ?_⟩
  · have htoken : s.token ≠ .finish := by
      intro hfinish
      rw [hfinish] at h
      cases h
    exact (ends_advance_bind hs htoken).mono fun _ _ _ hlt _ => hlt
  · exact ends_pure.2 nofun

/-- A parser that may take some, with one that takes some where it has not. -/
theorem Takes.of_ends {found : α → Prop}
    (hp : ∀ ⦃c s⦄, s.In cs → p.Ends c s fun a s' => found a → s.start < s'.lastStop)
    (hnext : ∀ a, ¬ found a → (next a).Takes cs) : (p >>= next).Takes cs := by
  intro c s hs
  refine ends_bind.2 ((hp hs).mono fun a s' hreaches hlt => ?_)
  by_cases hfound : found a
  · exact ends_of_taken (hs.of_reaches hreaches) (hlt hfound) _ c
  · exact (hnext a hfound).ends hs hreaches

theorem takes_expectMark : (expectMark m).Takes cs :=
  .of_ends (fun _ _ => ends_eatMark) fun _ hfound => .ite (fun h => absurd h hfound) fun _ => .of_next fun _ => takes_fail

theorem takes_expectWord : (expectWord w).Takes cs :=
  .of_ends (fun _ _ => ends_eatWord) fun _ hfound => .ite (fun h => absurd h hfound) fun _ => .of_next fun _ => takes_fail

theorem takes_anyWord : anyWord.Takes cs := by
  intro c s hs
  unfold anyWord
  rw [ends_bind, ends_token]
  split
  · next htoken => exact ends_advance_bind hs (by rw [htoken]; exact Token.noConfusion)
  · exact ends_fail.2 trivial

theorem takes_memberName : memberName.Takes cs := .of_next fun _ => takes_anyWord.bind

end Takes

/-! ### What is given is of a kind -/

/-- Whatever the parser finds is of a kind. -/
def Gives (cs : List Char) (p : Parse α) (kind : α → Prop) : Prop :=
  ∀ ⦃c : Context⦄ ⦃s : State⦄, s.In cs → p.Ends c s fun a _ => kind a

section Gives

variable {p q : Parse α} {next : α → Parse β} {kind : α → Prop} {kind' : β → Prop}

theorem Gives.bind {K : α → Prop} (hp : p.Gives cs K) (hnext : ∀ a, K a → (next a).Gives cs kind') :
    (p >>= next).Gives cs kind' := fun _ _ hs =>
  ends_bind.2 ((hp hs).mono fun a _ hreaches ha => hnext a ha (hs.of_reaches hreaches))

/-- What a parser finds does not matter. -/
theorem Gives.of_next (hnext : ∀ a, (next a).Gives cs kind') : (p >>= next).Gives cs kind' :=
  .bind (K := fun _ => True) (fun _ _ _ _ _ _ => trivial) fun a _ => hnext a

theorem Gives.pure {a : α} (h : kind a) : (pure a : Parse α).Gives cs kind := fun _ _ _ => ends_pure.2 h

theorem gives_fail {fault : FaultKind} : (fail fault : Parse α).Gives cs kind := fun _ _ _ => ends_fail.2 trivial

theorem gives_failAt {fault : FaultKind} {offset : Nat} : (failAt fault offset : Parse α).Gives cs kind :=
  fun _ _ _ => ends_failAt.2 trivial

theorem Gives.ite {b : Prop} [Decidable b] (hp : b → p.Gives cs kind) (hq : ¬ b → q.Gives cs kind) :
    (if b then p else q).Gives cs kind := by
  split
  · next h => exact hp h
  · next h => exact hq h

theorem Gives.within {f : Context → Context} (hp : p.Gives cs kind) : (within f p).Gives cs kind := fun _ _ hs => hp hs

theorem Gives.orElse {otherwise : Fault → Parse α} (hp : p.Gives cs kind)
    (hotherwise : ∀ fault, (otherwise fault).Gives cs kind) : (orElse p otherwise).Gives cs kind := fun _ _ hs =>
  (hp hs).orElse fun fault _ hreaches => hotherwise fault (hs.of_reaches hreaches)

theorem Gives.attempt (hp : p.Gives cs kind) : (attempt p).Gives cs fun found => ∀ a ∈ found, kind a := fun _ _ hs =>
  Ends.attempt (P := fun a _ => kind a) (hp hs) (fun _ _ _ ha _ hb => Option.mem_some_iff.1 hb ▸ ha) nofun

theorem Gives.grow {more : α → Parse (Option α)} {a : α}
    (hmore : ∀ a, kind a → (more a).Gives cs fun found => ∀ b ∈ found, kind b) (ha : kind a) :
    (grow more a).Gives cs kind := by
  refine .of_next fun c => ?_
  generalize c.limit = n
  induction n generalizing a with
  | zero => exact gives_fail
  | succ n ih =>
    refine (hmore a ha).bind fun found hfound => ?_
    cases found with
    | none => exact .pure ha
    | some b => exact ih (hfound b rfl)

theorem Gives.collect {item : Parse (Option α)} (hitem : item.Gives cs fun found => ∀ a ∈ found, kind a) :
    (collect item).Gives cs fun items => ∀ a ∈ items, kind a := by
  refine .of_next fun c => ?_
  generalize c.limit = n
  induction n with
  | zero => exact gives_fail
  | succ n ih =>
    refine hitem.bind fun found hfound => ?_
    cases found with
    | none => exact .pure nofun
    | some a => exact ih.bind fun items hitems => .pure (List.forall_mem_cons.2 ⟨hfound a rfl, hitems⟩)

end Gives

end Restyle.Script.Parse
