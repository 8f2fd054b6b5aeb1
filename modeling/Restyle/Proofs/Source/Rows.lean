import Mathlib.Data.List.Pairwise
import Restyle.Source.Row

/-! What halving finds in a row whose keys increase. The main statement is that it ends at the last member with a key
up to the target. -/

namespace Restyle.Row

variable {α : Type} {key : α → Nat} {xs : List α} {target first count i j : Nat} {a b : α}

/-- Each member has a greater key than those before it. -/
def Ascending (key : α → Nat) (xs : List α) : Prop := xs.Pairwise (key · < key ·)

theorem Ascending.key_le (h : Ascending key xs) (hij : i ≤ j) (ha : xs[i]? = some a) (hb : xs[j]? = some b) :
    key a ≤ key b := by
  rcases Nat.lt_or_eq_of_le hij with hlt | rfl
  · obtain ⟨hi, rfl⟩ := List.getElem?_eq_some_iff.1 ha
    obtain ⟨hj, rfl⟩ := List.getElem?_eq_some_iff.1 hb
    exact Nat.le_of_lt (List.pairwise_iff_getElem.1 h i j hi hj hlt)
  · obtain rfl := Option.some.inj (ha.symm.trans hb)
    exact Nat.le_refl _

/-- What is known while the part from `first` up to `stop` is left: the key of its first member is not above the
target, unless that is the first of all, and the keys behind the part are. -/
structure Narrowed (key : α → Nat) (xs : List α) (target first stop : Nat) : Prop where
  key_le : 0 < first → ∀ a, xs[first]? = some a → key a ≤ target
  lt_key : ∀ j a, stop ≤ j → xs[j]? = some a → target < key a

/-- One member is left in the end. -/
theorem narrowed_halve (h : Ascending key xs) (hpos : 0 < count) (hsize : first + count ≤ xs.length)
    (hrow : Narrowed key xs target first (first + count)) : halve key xs.toArray target first count < xs.length ∧
      Narrowed key xs target (halve key xs.toArray target first count)
        (halve key xs.toArray target first count + 1) := by
  fun_induction halve key xs.toArray target first count with
  | case1 first count hmany middle hbehind ih =>
    obtain ⟨a, ha, hlt⟩ := (Option.any_eq_true _ _).1 hbehind
    rw [List.getElem?_toArray] at ha
    refine ih (by omega) (by omega) ⟨hrow.key_le, fun j b hj hb => ?_⟩
    -- The middle has its key above the target, and so do all behind it.
    have hmiddle : middle ≤ j := by omega
    exact Nat.lt_of_lt_of_le (of_decide_eq_true hlt) (h.key_le hmiddle ha hb)
  | case2 first count hmany middle hbehind ih =>
    have hlt : middle < xs.length := by omega
    refine ih (by omega) (by omega) ⟨fun _ a ha => ?_, fun j a hj => hrow.lt_key j a (by omega)⟩
    rw [List.getElem?_toArray, ha, Option.any_some, decide_eq_true_eq] at hbehind
    exact Nat.le_of_not_lt hbehind
  | case3 first count hone =>
    obtain rfl : count = 1 := by omega
    exact ⟨by omega, hrow⟩

/-- The search ends at the last member with a key up to the target. -/
theorem last?_eq_some (h : Ascending key xs) (ha : xs[i]? = some a) (hle : key a ≤ target)
    (hlast : ∀ j b, i < j → xs[j]? = some b → target < key b) : last? key xs.toArray target = some i := by
  obtain ⟨hi, -⟩ := List.getElem?_eq_some_iff.1 ha
  have hall : Narrowed key xs target 0 (0 + xs.length) :=
    ⟨fun hpos => absurd hpos (Nat.lt_irrefl 0), fun j b hj hb => by simp_all⟩
  obtain ⟨hlt, hleft⟩ := narrowed_halve h (Nat.zero_lt_of_lt hi) (Nat.le_of_eq (Nat.zero_add _)) hall
  rw [last?, search, List.size_toArray]
  generalize halve key xs.toArray target 0 xs.length = k at hlt hleft ⊢
  -- A member before the last one would have that behind it, and one behind it has a key that is too great.
  obtain rfl : k = i := by
    rcases Nat.lt_trichotomy k i with hbefore | heq | hbehind
    · exact absurd hle (Nat.not_le_of_lt (hleft.lt_key i a hbefore ha))
    · exact heq
    · have hk : xs[k]? = some xs[k] := List.getElem?_eq_getElem hlt
      have hkey := hleft.key_le (Nat.zero_lt_of_lt hbehind) _ hk
      exact absurd hkey (Nat.not_le_of_lt (hlast k _ hbehind hk))
  rw [List.getElem?_toArray, ha]
  dsimp only
  by_cases heq : key a = target
  · rw [if_pos heq]
  · rw [if_neg heq, if_pos (Nat.lt_of_le_of_ne hle heq)]

/-- Behind the keys up to the target all are above it. -/
theorem Ascending.lt_of_mem_dropWhile (h : Ascending key xs) (ha : a ∈ xs.dropWhile (key · ≤ target)) :
    target < key a := by
  have hnot := List.head?_dropWhile_not (fun a => decide (key a ≤ target)) xs
  have hrest : (xs.dropWhile (key · ≤ target)).Pairwise (key · < key ·) :=
    List.Pairwise.sublist (List.dropWhile_sublist _) h
  generalize xs.dropWhile (key · ≤ target) = rest at ha hnot hrest
  cases rest with
  | nil => cases ha
  | cons b rest =>
    have hb : target < key b := by simpa using hnot
    rcases List.mem_cons.1 ha with rfl | ha
    · exact hb
    · exact Nat.lt_trans hb ((List.pairwise_cons.1 hrest).1 a ha)

/-- The search divides a row at the target. -/
theorem last?_append {later : List α} (h : Ascending key (xs ++ later)) (hne : xs ≠ [])
    (hup : ∀ a ∈ xs, key a ≤ target) (hlater : ∀ a ∈ later, target < key a) :
    last? key (xs ++ later).toArray target = some (xs.length - 1) := by
  have hpos := List.length_pos_iff.2 hne
  have hlast : (xs ++ later)[xs.length - 1]? = some (xs.getLast hne) := by
    rw [List.getElem?_append_left (by omega), ← List.getLast?_eq_getElem?, List.getLast?_eq_some_getLast hne]
  refine last?_eq_some h hlast (hup _ (List.getLast_mem hne)) fun j b hj hb => ?_
  rw [List.getElem?_append_right (by omega)] at hb
  exact hlater b (List.mem_of_getElem? hb)

end Restyle.Row
