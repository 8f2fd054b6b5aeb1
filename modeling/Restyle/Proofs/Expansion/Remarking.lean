import Mathlib.Data.List.Forall2
import Restyle.Expansion.Expanded
import Restyle.Proofs.Splice.InPlace

/-! What a computation with remarks can give. Remarks never decide a result, so a computation is taken
apart by its results alone: one that follows another gives what some result of the first leads to. -/

namespace Restyle

namespace Remarking

variable {α β : Type} {p : Remarking α}

/-- The computation can end with the result. -/
def Gives (p : Remarking α) (x : α) : Prop := ∃ remarks, (p.run remarks).1 = .ok x

/-- The computation can fail with the error. -/
def Throws (p : Remarking α) (e : ExpansionError) : Prop := ∃ remarks, (p.run remarks).1 = .error e

theorem gives_of_outcome {x : α} (h : p.outcome.1 = .ok x) : p.Gives x := ⟨[], h⟩

theorem throws_of_outcome {e : ExpansionError} (h : p.outcome.1 = .error e) : p.Throws e := ⟨[], h⟩

theorem Gives.of_bind {next : α → Remarking β} {y : β} (h : (p >>= next).Gives y) :
    ∃ x, p.Gives x ∧ (next x).Gives y := by
  obtain ⟨remarks, h⟩ := h
  rw [run_bind] at h
  split at h
  · next x hx => exact ⟨x, ⟨remarks, hx⟩, _, h⟩
  · cases h

theorem Throws.of_bind {next : α → Remarking β} {e : ExpansionError} (h : (p >>= next).Throws e) :
    p.Throws e ∨ ∃ x, p.Gives x ∧ (next x).Throws e := by
  obtain ⟨remarks, h⟩ := h
  rw [run_bind] at h
  split at h
  · next x hx => exact .inr ⟨x, ⟨remarks, hx⟩, _, h⟩
  · next e' he =>
    cases h
    exact .inl ⟨remarks, he⟩

theorem Gives.of_pure {x y : α} (h : (pure x : Remarking α).Gives y) : y = x := by
  obtain ⟨remarks, h⟩ := h
  cases h
  rfl

theorem not_throws_pure {x : α} {e : ExpansionError} : ¬ (pure x : Remarking α).Throws e := by
  rintro ⟨remarks, h⟩
  cases h

theorem not_throws_remark {r : Remark} {e : ExpansionError} : ¬ (remark r).Throws e := by
  rintro ⟨remarks, h⟩
  cases h

theorem not_gives_throw {x : α} {e : ExpansionError} : ¬ (throw e : Remarking α).Gives x := by
  rintro ⟨remarks, h⟩
  cases h

theorem Throws.of_throw {e e' : ExpansionError} (h : (throw e : Remarking α).Throws e') : e' = e := by
  obtain ⟨remarks, h⟩ := h
  cases h
  rfl

/-- A computation for each element of a list gives results one by one. -/
theorem Gives.of_mapM {g : α → Remarking β} {xs : List α} {ys : List β} (h : (xs.mapM g).Gives ys) :
    List.Forall₂ (fun x y => (g x).Gives y) xs ys := by
  induction xs generalizing ys with
  | nil =>
    rw [List.mapM_nil] at h
    rw [h.of_pure]
    exact .nil
  | cons x xs ih =>
    rw [List.mapM_cons] at h
    obtain ⟨y, hy, h⟩ := h.of_bind
    obtain ⟨rest, hrest, h⟩ := h.of_bind
    rw [h.of_pure]
    exact .cons hy (ih hrest)

theorem Throws.of_mapM {g : α → Remarking β} {error : ExpansionError} {xs : List α}
    (h : (xs.mapM g).Throws error) : ∃ x ∈ xs, (g x).Throws error := by
  induction xs with
  | nil =>
    rw [List.mapM_nil] at h
    exact (not_throws_pure h).elim
  | cons x xs ih =>
    rw [List.mapM_cons] at h
    rcases h.of_bind with h | ⟨y, -, h⟩
    · exact ⟨x, List.mem_cons_self .., h⟩
    · rcases h.of_bind with h | ⟨ys, -, h⟩
      · obtain ⟨x', hx', h⟩ := ih h
        exact ⟨x', List.mem_cons_of_mem x hx', h⟩
      · exact (not_throws_pure h).elim

/-! ### The remarks -/

/-- The computation ends with the result and makes the remarks on the way, whatever was remarked before. -/
def Makes (p : Remarking α) (result : Except ExpansionError α) (made : List Remark) : Prop :=
  ∀ remarks, p.run remarks = (result, made.reverse ++ remarks)

theorem makes_pure (x : α) : (pure x : Remarking α).Makes (.ok x) [] := fun _ => rfl

theorem makes_throw (e : ExpansionError) : (throw e : Remarking α).Makes (.error e) [] := fun _ => rfl

theorem makes_remark (r : Remark) : (remark r).Makes (.ok ()) [r] := fun _ => rfl

theorem Makes.bind {next : α → Remarking β} {x : α} {made made' : List Remark} {result : Except ExpansionError β}
    (hp : p.Makes (.ok x) made) (hnext : (next x).Makes result made') : (p >>= next).Makes result (made ++ made') := by
  intro remarks
  rw [run_bind, hp, List.reverse_append, List.append_assoc]
  exact hnext _

theorem Makes.bind_error {e : ExpansionError} {made : List Remark} (hp : p.Makes (.error e) made)
    (next : α → Remarking β) : (p >>= next).Makes (.error e) made := by
  intro remarks
  rw [run_bind, hp]

theorem Makes.outcome {result : Except ExpansionError α} {made : List Remark} (h : p.Makes result made) :
    p.outcome = (result, made) := by
  simp [Remarking.outcome, h []]

end Remarking

end Restyle
