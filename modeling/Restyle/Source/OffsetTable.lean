/-! Tables indexed by offsets, as lists of pairs in increasing order of the offset. A table has one
list for its content, so equal content means equal tables. -/

namespace Restyle

/-- Values at offsets. -/
abbrev OffsetTable (α : Type) := List (Nat × α)

namespace OffsetTable

variable {α : Type}

def find? : OffsetTable α → Nat → Option α
  | [], _ => none
  | (k, v) :: t, offset => if k = offset then some v else find? t offset

/-- Sets the value at an offset to a function of the value there. -/
def alter (f : Option α → α) (offset : Nat) : OffsetTable α → OffsetTable α
  | [] => [(offset, f none)]
  | (k, v) :: t =>
    if offset < k then (offset, f none) :: (k, v) :: t
    else if offset = k then (k, f (some v)) :: t
    else (k, v) :: alter f offset t

def offsets (t : OffsetTable α) : List Nat := t.map Prod.fst

/-- The offsets of two increasing lists in one, each once. -/
def mergeOffsets : List Nat → List Nat → List Nat
  | [], bs => bs
  | as, [] => as
  | a :: as, b :: bs =>
    if a < b then a :: mergeOffsets as (b :: bs)
    else if b < a then b :: mergeOffsets (a :: as) bs
    else a :: mergeOffsets as bs
termination_by as bs => as.length + bs.length

/-- The offsets increase. Every table built by `alter` from nothing is like this. -/
def Sorted (t : OffsetTable α) : Prop := t.Pairwise (·.1 < ·.1)

theorem find?_eq_none_of_lt {t : OffsetTable α} {o : Nat} (h : ∀ kv ∈ t, o < kv.1) :
    t.find? o = none := by
  induction t with
  | nil => rfl
  | cons kv t ih =>
    have := h kv (by simp)
    rw [find?, if_neg (by omega)]
    exact ih fun x hx => h x (by simp [hx])

theorem find?_alter (f : Option α → α) (o p : Nat) {t : OffsetTable α} (ht : t.Sorted) :
    (alter f o t).find? p = if p = o then some (f (t.find? o)) else t.find? p := by
  induction t with
  | nil => simp only [alter, find?]; split <;> simp_all [eq_comm]
  | cons kv t ih =>
    obtain ⟨k, v⟩ := kv
    have htail := (List.pairwise_cons.1 ht).2
    have absent : ∀ q, q < k → find? t q = none := fun q hq =>
      find?_eq_none_of_lt fun x hx => Nat.lt_trans hq ((List.pairwise_cons.1 ht).1 x hx)
    rw [alter]
    split
    · next hlt =>
      simp only [find?]
      grind
    · next hlt =>
      split
      · next heq => subst heq; simp only [find?]; grind
      · next hne =>
        simp only [find?]
        rw [ih htail]
        grind

/-- Altering at an offset brings in that offset only. -/
theorem lt_of_mem_alter {f : Option α → α} {o n : Nat} {t : OffsetTable α} (ho : n < o)
    (ht : ∀ kv ∈ t, n < kv.1) : ∀ kv ∈ alter f o t, n < kv.1 := by
  induction t with
  | nil => simpa [alter] using ho
  | cons kv t ih =>
    have hkv := ht kv (by simp)
    have htail := ih fun x hx => ht x (by simp [hx])
    rw [alter]
    split
    · simpa [ho] using ht
    · split
      · simpa [hkv] using fun a b h => ht (a, b) (by simp [h])
      · simpa [hkv] using htail

theorem sorted_alter (f : Option α → α) (o : Nat) {t : OffsetTable α} (ht : t.Sorted) :
    (alter f o t).Sorted := by
  induction t with
  | nil => simp [alter, Sorted]
  | cons kv t ih =>
    obtain ⟨k, v⟩ := kv
    obtain ⟨hhead, htail⟩ := List.pairwise_cons.1 ht
    rw [alter]
    split
    · next hlt =>
      refine List.pairwise_cons.2 ⟨fun x hx => ?_, ht⟩
      rcases List.mem_cons.1 hx with rfl | hx
      · exact hlt
      · exact Nat.lt_trans hlt (hhead x hx)
    · split
      · exact List.pairwise_cons.2 ⟨hhead, htail⟩
      · exact List.pairwise_cons.2 ⟨lt_of_mem_alter (by omega) hhead, ih htail⟩

theorem mem_offsets_iff {t : OffsetTable α} {o : Nat} :
    o ∈ t.offsets ↔ (t.find? o).isSome = true := by
  induction t with
  | nil => simp [offsets, find?]
  | cons kv t ih =>
    simp only [offsets, find?, List.map_cons, List.mem_cons] at ih ⊢
    split
    · next h => simp [h]
    · next h => rw [ih]; simp [Ne.symm h]

theorem mem_iff_find? {t : OffsetTable α} (ht : t.Sorted) {o : Nat} {v : α} :
    (o, v) ∈ t ↔ t.find? o = some v := by
  induction t with
  | nil => simp [find?]
  | cons kv t ih =>
    obtain ⟨hhead, htail⟩ := List.pairwise_cons.1 ht
    rw [find?, List.mem_cons, ih htail]
    split
    · next h =>
      have hnone : find? t o = none := find?_eq_none_of_lt (h ▸ hhead)
      simp [hnone, Prod.ext_iff, h, eq_comm]
    · next h => simp [Prod.ext_iff, Ne.symm h]

theorem pairwise_offsets {t : OffsetTable α} (ht : t.Sorted) : t.offsets.Pairwise (· < ·) :=
  List.pairwise_map.2 ht

theorem mem_mergeOffsets {as bs : List Nat} {o : Nat} :
    o ∈ mergeOffsets as bs ↔ o ∈ as ∨ o ∈ bs := by
  fun_induction mergeOffsets as bs <;> grind

theorem pairwise_mergeOffsets {as bs : List Nat} (ha : as.Pairwise (· < ·))
    (hb : bs.Pairwise (· < ·)) : (mergeOffsets as bs).Pairwise (· < ·) := by
  fun_induction mergeOffsets as bs <;> grind [mem_mergeOffsets, List.pairwise_cons]

end OffsetTable

end Restyle
