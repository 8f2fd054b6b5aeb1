import Mathlib.Data.String.Basic
import Restyle.Proofs.Workspace.Confinement

/-! The order of paths. Paths are compared step by step; sorting puts them in this order and keeps one of those
that spell the same steps. Absolute paths that never lead up are in the order of their places. -/

namespace Restyle

namespace Path

variable {p q r : Path} {ps : List Path}

/-! ### Steps -/

section Steps

variable {a b c : PathStep} {as bs cs : List PathStep}

theorem stepBefore_asymm (h : stepBefore a b = true) : stepBefore b a = false := by
  cases a <;> cases b
  case name.name m n =>
    rw [stepBefore, decide_eq_true_eq] at h
    rw [stepBefore, decide_eq_false_iff_not]
    exact String.lt_asymm h
  all_goals simp_all [stepBefore]

theorem stepBefore_trans (h : stepBefore a b = true) (h' : stepBefore b c = true) : stepBefore a c = true := by
  cases a <;> cases b <;> cases c
  case name.name.name m n k =>
    rw [stepBefore, decide_eq_true_eq] at h h' ⊢
    exact String.lt_trans h h'
  all_goals simp_all [stepBefore]

theorem stepsUpTo_antisymm (h : stepsUpTo as bs = true) (h' : stepsUpTo bs as = true) : as = bs := by
  induction as generalizing bs with
  | nil =>
    cases bs with
    | nil => rfl
    | cons b bs => simp [stepsUpTo] at h'
  | cons a as ih =>
    cases bs with
    | nil => simp [stepsUpTo] at h
    | cons b bs =>
      rw [stepsUpTo] at h h'
      split_ifs at h h' with hab hba hba
      · rw [hab, ih h h']
      · exact absurd hab.symm hba
      · exact absurd hba.symm hab
      · simp [stepBefore_asymm h] at h'

theorem stepsUpTo_trans (h : stepsUpTo as bs = true) (h' : stepsUpTo bs cs = true) : stepsUpTo as cs = true := by
  induction as generalizing bs cs with
  | nil => rfl
  | cons a as ih =>
    cases bs with
    | nil => simp [stepsUpTo] at h
    | cons b bs =>
      cases cs with
      | nil => simp [stepsUpTo] at h'
      | cons c cs =>
        rw [stepsUpTo] at h h' ⊢
        -- The first difference of the outer lists is the earlier one of the two.
        by_cases hab : a = b
        · subst hab
          rw [if_pos rfl] at h
          split_ifs at h' ⊢
          · exact ih h h'
          · exact h'
        by_cases hbc : b = c
        · subst hbc
          simpa [hab] using h
        · rw [if_neg hab] at h
          rw [if_neg hbc] at h'
          have hac : a ≠ c := by
            rintro rfl
            simp [stepBefore_asymm h] at h'
          rw [if_neg hac]
          exact stepBefore_trans h h'

end Steps

/-! ### Paths -/

theorem upTo_trans (h : p.upTo q = true) (h' : q.upTo r = true) : p.upTo r = true := by
  rw [upTo] at h h' ⊢
  cases hp : p.isAbsolute <;> cases hq : q.isAbsolute <;> cases hr : r.isAbsolute <;> simp_all
  all_goals exact stepsUpTo_trans h h'

theorem upTo_total (p q : Path) : (p.upTo q || q.upTo p) = true := by
  rw [upTo, upTo]
  cases hp : p.isAbsolute <;> cases hq : q.isAbsolute <;> simp [stepsUpTo_total]

theorem same_iff : p.same q = true ↔ p.isAbsolute = q.isAbsolute ∧ p.steps = q.steps := by
  simp [same]

theorem same_symm (h : p.same q = true) : q.same p = true := by
  rw [same_iff] at h ⊢
  exact ⟨h.1.symm, h.2.symm⟩

theorem same_trans (h : p.same q = true) (h' : q.same r = true) : p.same r = true := by
  rw [same_iff] at h h' ⊢
  exact ⟨h.1.trans h'.1, h.2.trans h'.2⟩

theorem upTo_of_same (h : p.same q = true) : p.upTo q = true := by
  obtain ⟨habs, hsteps⟩ := same_iff.1 h
  rw [upTo, if_pos habs, hsteps, stepsUpTo_refl]

theorem same_of_upTo (h : p.upTo q = true) (h' : q.upTo p = true) : p.same q = true := by
  rw [upTo] at h h'
  rw [same_iff]
  split_ifs at h h' with hpq hqp hqp
  · exact ⟨hpq, stepsUpTo_antisymm h h'⟩
  · exact absurd hpq.symm hqp
  · exact absurd hqp.symm hpq
  · exact absurd (h.trans h'.symm) hpq

/-- A path comes before another one, with which it does not share all its steps. -/
def Before (p q : Path) : Prop := p.upTo q = true ∧ ¬p.same q = true

theorem pairwise_distinct (h : ps.Pairwise (·.upTo ·)) : (distinct ps).Pairwise Before := by
  fun_induction distinct ps with
  | case1 p q rest hsame ih =>
    obtain ⟨hp, hrest⟩ := List.pairwise_cons.1 h
    exact ih (List.pairwise_cons.2 ⟨fun r hr => hp r (List.mem_cons_of_mem _ hr), hrest.tail⟩)
  | case2 p q rest hne ih =>
    obtain ⟨hp, hrest⟩ := List.pairwise_cons.1 h
    refine List.pairwise_cons.2 ⟨fun r hr => ?_, ih hrest⟩
    have hmem := mem_of_mem_distinct hr
    refine ⟨hp r hmem, fun hsame => hne ?_⟩
    -- What lies between two paths with the same steps has these steps too.
    have hqr : q.upTo r = true := by
      rcases List.mem_cons.1 hmem with rfl | hr
      · exact upTo_of_same (same_iff.2 ⟨rfl, rfl⟩)
      · exact (List.pairwise_cons.1 hrest).1 r hr
    exact same_of_upTo (hp q (List.mem_cons_self ..)) (upTo_trans hqr (upTo_of_same (same_symm hsame)))
  | case3 ps hshort =>
    rcases ps with _ | ⟨p, _ | ⟨q, rest⟩⟩
    · exact .nil
    · exact List.pairwise_singleton ..
    · exact absurd rfl (hshort p q rest)

theorem exists_same_mem_distinct (h : p ∈ ps) : ∃ q ∈ distinct ps, q.same p = true := by
  fun_induction distinct ps generalizing p with
  | case1 first second rest hsame ih =>
    rcases List.mem_cons.1 h with rfl | h
    · exact ih (List.mem_cons_self ..)
    rcases List.mem_cons.1 h with rfl | h
    · obtain ⟨q, hq, hfirst⟩ := ih (List.mem_cons_self ..)
      exact ⟨q, hq, same_trans hfirst hsame⟩
    · exact ih (List.mem_cons_of_mem _ h)
  | case2 first second rest hne ih =>
    rcases List.mem_cons.1 h with rfl | h
    · exact ⟨p, List.mem_cons_self .., same_iff.2 ⟨rfl, rfl⟩⟩
    · obtain ⟨q, hq, hsame⟩ := ih h
      exact ⟨q, List.mem_cons_of_mem _ hq, hsame⟩
  | case3 ps hshort => exact ⟨p, h, same_iff.2 ⟨rfl, rfl⟩⟩

/-- Sorted paths are strictly in order. -/
theorem pairwise_sorted (ps : List Path) : (sorted ps).Pairwise Before := by
  have htrans : ∀ p q r : Path, p.upTo q = true → q.upTo r = true → p.upTo r = true := fun _ _ _ => upTo_trans
  exact pairwise_distinct (List.pairwise_mergeSort htrans upTo_total ps)

/-- Of each path there is one with the same steps among the sorted ones. -/
theorem exists_same_mem_sorted (h : p ∈ ps) : ∃ q ∈ sorted ps, q.same p = true :=
  exists_same_mem_distinct ((List.mergeSort_perm ps _).mem_iff.2 h)

/-! ### Places -/

theorem exists_names {steps : List PathStep} (h : .up ∉ steps) : ∃ names : List String, steps = names.map .name := by
  induction steps with
  | nil => exact ⟨[], rfl⟩
  | cons step steps ih =>
    rw [List.mem_cons, not_or] at h
    cases step with
    | up => exact absurd rfl h.1
    | name n =>
      obtain ⟨names, rfl⟩ := ih h.2
      exact ⟨n :: names, rfl⟩

theorem foldl_reach_names (names : List String) (place : NodePlace) :
    (names.map .name).foldl PathStep.reach place = place ++ names := by
  induction names generalizing place with
  | nil => simp
  | cons n names ih =>
    rw [List.map_cons, List.foldl_cons, PathStep.reach_name, ih, List.append_assoc, List.singleton_append]

theorem place_of_same (h : p.same q = true) : p.place = q.place := by
  rw [place, place, (same_iff.1 h).2]

/-- Sorted paths have the same places. -/
theorem mem_places_sorted {x : NodePlace} : x ∈ (sorted ps).map place ↔ x ∈ ps.map place := by
  simp only [List.mem_map]
  constructor
  · rintro ⟨p, hp, rfl⟩
    exact ⟨p, mem_of_mem_sorted hp, rfl⟩
  · rintro ⟨p, hp, rfl⟩
    obtain ⟨q, hq, hsame⟩ := exists_same_mem_sorted hp
    exact ⟨q, hq, place_of_same hsame⟩

/-- An absolute path that never leads up. -/
structure Straight (p : Path) : Prop where
  absolute : p.isAbsolute = true
  level : .up ∉ p.steps

/-- Its steps are the names of its place. -/
theorem Straight.steps_eq (h : p.Straight) : p.steps = p.place.map .name := by
  obtain ⟨names, hsteps⟩ := exists_names h.level
  rw [place, hsteps, foldl_reach_names, List.nil_append]

theorem stepsUpTo_map_name (x y : NodePlace) : stepsUpTo (x.map .name) (y.map .name) = true ↔ x ≤ y := by
  induction x generalizing y with
  | nil => exact iff_of_true rfl (not_lt.1 (List.not_lt_nil y))
  | cons n x ih =>
    cases y with
    | nil => exact iff_of_false Bool.false_ne_true (not_le.2 (List.nil_lt_cons n x))
    | cons m y =>
      rw [List.map_cons, List.map_cons, stepsUpTo, ← not_lt, List.cons_lt_cons_iff]
      split_ifs with hnm
      · obtain rfl := PathStep.name.inj hnm
        simp [ih]
      · have hne : m ≠ n := fun heq => hnm (congrArg PathStep.name heq.symm)
        rw [stepBefore, decide_eq_true_eq]
        simp only [hne, false_and, or_false, not_lt]
        exact ⟨le_of_lt, fun hle => lt_of_le_of_ne hle hne.symm⟩

theorem Straight.upTo_iff (hp : p.Straight) (hq : q.Straight) : p.upTo q = true ↔ p.place ≤ q.place := by
  rw [upTo, if_pos (hp.absolute.trans hq.absolute.symm), hp.steps_eq, hq.steps_eq, stepsUpTo_map_name]

theorem Straight.same_iff (hp : p.Straight) (hq : q.Straight) : p.same q = true ↔ p.place = q.place := by
  refine ⟨place_of_same, fun hplace => Path.same_iff.2 ⟨hp.absolute.trans hq.absolute.symm, ?_⟩⟩
  rw [hp.steps_eq, hq.steps_eq, hplace]

/-- One of two straight paths comes before the other just if its place does, name by name. -/
theorem Straight.before_iff (hp : p.Straight) (hq : q.Straight) : p.Before q ↔ p.place < q.place := by
  rw [Before, hp.upTo_iff hq, hp.same_iff hq]
  exact lt_iff_le_and_ne.symm

end Path

end Restyle
