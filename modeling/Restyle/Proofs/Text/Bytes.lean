import Mathlib.Data.List.Basic
import Restyle.Text.Width

/-! The bytes of a text, and what a cut at a byte offset does to them. A boundary is the width of a
part that the text begins with, so cutting a text there cuts its bytes there. -/

namespace Restyle.Text

/-- The bytes of a text in UTF-8. -/
def bytes (cs : List Char) : List UInt8 := cs.flatMap String.utf8EncodeChar

@[simp] theorem bytes_nil : bytes [] = [] := rfl

theorem bytes_cons (c : Char) (cs : List Char) : bytes (c :: cs) = String.utf8EncodeChar c ++ bytes cs := rfl

@[simp] theorem bytes_append (a b : List Char) : bytes (a ++ b) = bytes a ++ bytes b := by
  simp [bytes]

@[simp] theorem length_bytes (cs : List Char) : (bytes cs).length = width cs := by
  induction cs with
  | nil => rfl
  | cons c cs ih =>
    rw [bytes_cons, List.length_append, String.length_utf8EncodeChar, ih, width_cons]

theorem width_eq_zero {cs : List Char} (h : width cs = 0) : cs = [] := by
  have := length_le_width cs
  exact List.eq_nil_of_length_eq_zero (by omega)

/-- Texts are equal if their bytes are. -/
theorem bytes_injective : Function.Injective bytes := by
  intro a b h
  have hcode : a.utf8Encode = b.utf8Encode := by
    rw [List.utf8Encode, List.utf8Encode]
    exact congrArg List.toByteArray h
  simpa using congrArg String.toList
    (String.toByteArray_inj.1 (by simpa using hcode) : String.ofList a = String.ofList b)

/-- A text is split in one way into parts of given widths. -/
theorem append_inj_of_width {a b a' b' : List Char} (h : a ++ b = a' ++ b') (hwidth : width a = width a') :
    a = a' ∧ b = b' := by
  have hcut := cut?_width_append a b
  rw [h, hwidth, cut?_width_append] at hcut
  obtain ⟨hfirst, hsecond⟩ := Prod.mk.inj (Option.some.inj hcut)
  exact ⟨hfirst.symm, hsecond.symm⟩

theorem isBoundary_iff {cs : List Char} {n : Nat} :
    isBoundary cs n = true ↔ ∃ a b, cs = a ++ b ∧ width a = n := by
  rw [isBoundary_eq_isSome_cut?]
  constructor
  · intro h
    obtain ⟨⟨a, b⟩, hcut⟩ := Option.isSome_iff_exists.1 h
    exact ⟨a, b, eq_append_of_cut? hcut⟩
  · rintro ⟨a, b, rfl, rfl⟩
    rw [cut?_width_append]
    rfl

theorem le_width_of_isBoundary {cs : List Char} {n : Nat} (h : isBoundary cs n = true) :
    n ≤ width cs := by
  obtain ⟨a, b, rfl, rfl⟩ := isBoundary_iff.1 h
  simp

theorem isBoundary_zero (cs : List Char) : isBoundary cs 0 = true :=
  isBoundary_iff.2 ⟨[], cs, rfl, rfl⟩

theorem isBoundary_width_append (a b : List Char) : isBoundary (a ++ b) (width a) = true :=
  isBoundary_iff.2 ⟨a, b, rfl, rfl⟩

/-- A boundary behind a part of the text is a boundary of what follows that part. -/
theorem exists_middle {cs a rest : List Char} {n : Nat} (hcs : cs = a ++ rest)
    (h : isBoundary cs n = true) (hn : width a ≤ n) :
    ∃ mid rest', rest = mid ++ rest' ∧ width mid = n - width a := by
  obtain ⟨x, y, hxy, rfl⟩ := isBoundary_iff.1 h
  rw [hcs] at hxy
  rcases List.append_eq_append_iff.1 hxy with ⟨m, rfl, rfl⟩ | ⟨m, rfl, rfl⟩
  · exact ⟨m, y, rfl, by simp⟩
  · have hm : m = [] := width_eq_zero (by simp only [width_append] at hn; omega)
    exact ⟨[], rest, rfl, by simp [hm]⟩

/-- The bytes of a text between two of its offsets. -/
theorem flatMap_getElem?_toList (xs : List UInt8) (i n : Nat) :
    (List.range' i n).flatMap (fun o => xs[o]?.toList) = (xs.drop i).take n := by
  induction n generalizing i with
  | zero => simp
  | succ n ih =>
    rw [List.range'_succ, List.flatMap_cons, ih]
    rcases Nat.lt_or_ge i xs.length with h | h
    · rw [List.drop_eq_getElem_cons h, List.getElem?_eq_getElem h, List.take_succ_cons]
      rfl
    · simp [List.getElem?_eq_none h, List.drop_eq_nil_of_le h,
        List.drop_eq_nil_of_le (Nat.le_succ_of_le h)]

end Restyle.Text
