import Mathlib.Data.List.Pairwise
import Restyle.Proofs.Text.Bytes
import Restyle.Source.Span

/-! Rows of spans. A span cuts a text if it ends on boundaries of it. Spans in order are not empty and
follow one another between two offsets, so no two of them share a byte. -/

namespace Restyle.Span

open Text

/-- The span lies on boundaries of the text. -/
structure Cuts (cs : List Char) (s : Span) : Prop where
  le : s.start ≤ s.stop
  start : isBoundary cs s.start = true
  stop : isBoundary cs s.stop = true

/-- The first span has the second one inside. -/
def Encloses (s t : Span) : Prop := s.start ≤ t.start ∧ t.stop ≤ s.stop

theorem Encloses.trans {s t u : Span} (h : s.Encloses t) (h' : t.Encloses u) : s.Encloses u :=
  ⟨Nat.le_trans h.1 h'.1, Nat.le_trans h'.2 h.2⟩

/-- The first span has the second one inside and more on both sides of it. -/
def Surrounds (s t : Span) : Prop := s.start < t.start ∧ t.stop < s.stop

theorem Surrounds.mono {lo hi lo' hi' : Nat} {t : Span} (h : (⟨lo, hi⟩ : Span).Surrounds t) (hlo : lo' ≤ lo)
    (hhi : hi ≤ hi') : (⟨lo', hi'⟩ : Span).Surrounds t :=
  ⟨Nat.lt_of_le_of_lt hlo h.1, Nat.lt_of_lt_of_le h.2 hhi⟩

/-- One of the two spans ends before the other begins. -/
def Apart (s t : Span) : Prop := s.stop ≤ t.start ∨ t.stop ≤ s.start

theorem Apart.symm {s t : Span} (h : s.Apart t) : t.Apart s := Or.symm h

theorem contains_iff {s : Span} {o : Nat} : s.contains o = true ↔ s.start ≤ o ∧ o < s.stop := by
  simp [contains]

theorem contains_eq_false_iff {s : Span} {o : Nat} : s.contains o = false ↔ o < s.start ∨ s.stop ≤ o := by
  rw [← Bool.not_eq_true, contains_iff]
  omega

theorem Apart.not_contains {s t : Span} (h : s.Apart t) {o : Nat} (ho : s.contains o = true) :
    t.contains o = false := by
  rw [contains_iff] at ho
  rw [contains_eq_false_iff]
  simp only [Apart] at h
  omega

/-- What has spans that are apart is told from others by any place of it. -/
theorem eq_of_contains {α : Type} {g : α → Span} {xs : List α} (h : (xs.map g).Pairwise Apart) {x y : α}
    (hx : x ∈ xs) (hy : y ∈ xs) {o : Nat} (hox : (g x).contains o = true) (hoy : (g y).contains o = true) : x = y := by
  have : Std.Symm fun x y => (g x).Apart (g y) := ⟨fun _ _ hxy => hxy.symm⟩
  by_contra hne
  rw [((List.pairwise_map.1 h).forall hx hy hne).not_contains hox] at hoy
  cases hoy

theorem Apart.enclosed {s t s' t' : Span} (h : s.Apart t) (hs : s.Encloses s') (ht : t.Encloses t') :
    s'.Apart t' := by
  simp only [Apart, Encloses] at *
  omega

/-- The spans follow one another from one offset to another, and none is empty. -/
def InOrder : Nat → List Span → Nat → Prop
  | lo, [], hi => lo ≤ hi
  | lo, s :: spans, hi => lo ≤ s.start ∧ s.start < s.stop ∧ InOrder s.stop spans hi

namespace InOrder

variable {lo mid hi : Nat} {s : Span} {spans more : List Span}

theorem le (h : InOrder lo spans hi) : lo ≤ hi := by
  induction spans generalizing lo with
  | nil => exact h
  | cons s spans ih =>
    have := ih h.2.2
    have := h.1
    have := h.2.1
    omega

theorem append (h : InOrder lo spans mid) (h' : InOrder mid more hi) :
    InOrder lo (spans ++ more) hi := by
  induction spans generalizing lo with
  | nil =>
    have hle : lo ≤ mid := h
    cases more with
    | nil => exact Nat.le_trans hle h'
    | cons s more => exact ⟨Nat.le_trans hle h'.1, h'.2⟩
  | cons s spans ih => exact ⟨h.1, h.2.1, ih h.2.2⟩

theorem nil (h : lo ≤ hi) : InOrder lo [] hi := h

theorem single (hlo : lo ≤ s.start) (hs : s.start < s.stop) (hhi : s.stop ≤ hi) :
    InOrder lo [s] hi := ⟨hlo, hs, hhi⟩

theorem mono_left {lo' : Nat} (h : InOrder lo spans hi) (hle : lo' ≤ lo) : InOrder lo' spans hi := by
  simpa using (InOrder.nil hle).append h

theorem mono_right {hi' : Nat} (h : InOrder lo spans hi) (hle : hi ≤ hi') : InOrder lo spans hi' := by
  simpa using h.append (InOrder.nil hle)

theorem of_mem (h : InOrder lo spans hi) (hs : s ∈ spans) :
    lo ≤ s.start ∧ s.start < s.stop ∧ s.stop ≤ hi := by
  induction spans generalizing lo with
  | nil => cases hs
  | cons t spans ih =>
    obtain ⟨hlo, hlt, hrest⟩ := h
    rcases List.mem_cons.1 hs with rfl | hs
    · exact ⟨hlo, hlt, hrest.le⟩
    · have := ih hrest hs
      omega

theorem pairwise_le (h : InOrder lo spans hi) : spans.Pairwise fun s t => s.stop ≤ t.start := by
  induction spans generalizing lo with
  | nil => exact List.Pairwise.nil
  | cons s spans ih => exact List.pairwise_cons.2 ⟨fun t ht => (h.2.2.of_mem ht).1, ih h.2.2⟩

theorem pairwise (h : InOrder lo spans hi) : spans.Pairwise Apart := h.pairwise_le.imp .inl

end InOrder

end Restyle.Span
