import Restyle.Source.InPlace

/-! Edits in place against edits of a copy. All checks of an edit come before its first change, so an edit
that is refused has changed nothing, and one that is taken leaves the buffer that the edit of a copy gives. -/

namespace Restyle

/-- The run of one computation after another, where a failure leaves the state. -/
theorem run_bind {ε σ α β : Type} (p : ExceptT ε (StateM σ) α) (next : α → ExceptT ε (StateM σ) β) (s : σ) :
    (p >>= next).run s =
      match (p.run s).1 with
      | .ok x => (next x).run (p.run s).2
      | .error e => (.error e, (p.run s).2) := by
  unfold ExceptT.run
  simp only [bind, ExceptT.bind, ExceptT.mk, StateT.bind, ExceptT.bindCont]
  cases p s with
  | mk result rest => cases result <;> rfl

namespace OffsetTable

variable {α : Type}

theorem alter_alter (f g : Option α → α) (o : Nat) (t : OffsetTable α) :
    alter f o (alter g o t) = alter (fun v => f (some (g v))) o t := by
  induction t with
  | nil => simp [alter]
  | cons kv t ih =>
    obtain ⟨k, v⟩ := kv
    rw [alter, alter]
    split
    · simp [alter]
    · next hlt =>
      split
      · next heq => simp [alter, heq]
      · next hne => rw [alter, if_neg hlt, if_neg hne, ih]

end OffsetTable

namespace Editing

open Text

variable {α β : Type} {b : SpliceBuffer}

/-- The outcome of an edit that is made at once: it is refused with the buffer as it was, or leaves another
one. -/
def settle (b : SpliceBuffer) : Except SpliceError SpliceBuffer → Except SpliceError Unit × SpliceBuffer
  | .ok b' => (.ok (), b')
  | .error e => (.error e, b)

theorem run_get : ExceptT.run (get : Editing SpliceBuffer) b = (.ok b, b) := rfl

theorem run_modify (f : SpliceBuffer → SpliceBuffer) : ExceptT.run (modify f : Editing Unit) b = (.ok (), f b) := rfl

/-- A check leaves the buffer. -/
theorem run_checkOffset (offset : Nat) : (checkOffset offset).run b = (b.checkOffset offset, b) := by
  rw [checkOffset, run_bind, run_get, SpliceBuffer.checkOffset]
  dsimp only
  split
  · rfl
  · cases isBoundary b.source.toList offset <;> rfl

theorem run_checkOffset_bind (offset : Nat) (next : Unit → Editing α) :
    ExceptT.run (checkOffset offset >>= next) b =
      match b.checkOffset offset with
      | .ok () => (next ()).run b
      | .error e => (.error e, b) := by
  rw [run_bind, run_checkOffset]
  cases b.checkOffset offset <;> rfl

theorem run_update (span : Span) (text : String) : (update span text).run b = settle b (b.update span text) := by
  rw [update, SpliceBuffer.update]
  dsimp only
  split
  · rfl
  · rw [run_checkOffset_bind]
    cases b.checkOffset span.start with
    | error e => rfl
    | ok _ =>
      dsimp only
      rw [run_checkOffset_bind]
      cases b.checkOffset span.stop with
      | error e => rfl
      | ok _ =>
        dsimp only
        rw [run_bind, run_get]
        dsimp only
        cases b.edited.find? (·.overlaps span) with
        | some existing => rfl
        | none =>
          dsimp only
          rw [run_bind, run_get]
          dsimp only
          cases b.insertions.offsets.find? span.strictlyContains with
          | some offset => rfl
          | none => rfl

theorem run_remove (span : Span) : (remove span).run b = settle b (b.remove span) := by
  rw [remove, SpliceBuffer.remove]
  split
  · rw [run_checkOffset]
    cases b.checkOffset span.start <;> rfl
  · exact run_update span ""

/-- The entry that an insertion makes is the one that its text goes to. -/
theorem run_insert (side : Side) (offset : Nat) (text : String) :
    (insert side offset text).run b = settle b (b.insert side offset text) := by
  rw [insert, enter, SpliceBuffer.insert, run_bind, run_checkOffset_bind]
  cases b.checkOffset offset with
  | error e => rfl
  | ok _ =>
    dsimp only
    rw [run_bind, run_get]
    dsimp only
    cases (b.lastBefore? offset).filter (·.strictlyContains offset) with
    | some edit => rfl
    | none =>
      simp only [run_modify, bind, Except.bind, settle, OffsetTable.alter_alter]
      rfl

/-- An edit in place is the edit of a copy; refused, it leaves the buffer as it was. -/
theorem run_splice (s : Splice) : (splice s).run b = settle b (b.splice s) := by
  cases s with
  | update span text => exact run_update span text
  | remove span => exact run_remove span
  | insert side offset text => exact run_insert side offset text
  | prepend text => rfl
  | append text => rfl

end Editing

end Restyle
