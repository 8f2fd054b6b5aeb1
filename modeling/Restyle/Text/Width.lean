/-! Widths and cuts of texts. A text is a list of characters; a byte offset into it counts the
UTF-8 bytes of the characters before it. An offset inside a character cuts nowhere, so a cut either
splits the list or fails. -/

namespace Restyle.Text

/-- The number of bytes of a text in UTF-8. -/
def width : List Char → Nat
  | [] => 0
  | c :: cs => c.utf8Size + width cs

/-- The number of UTF-16 units of a character. -/
def units16 (c : Char) : Nat := if c.val < 0x10000 then 1 else 2

/-- The number of UTF-16 units of a text. -/
def width16 : List Char → Nat
  | [] => 0
  | c :: cs => units16 c + width16 cs

@[simp] theorem width_nil : width [] = 0 := rfl

@[simp] theorem width_cons (c : Char) (cs : List Char) : width (c :: cs) = c.utf8Size + width cs :=
  rfl

@[simp] theorem width_append (a b : List Char) : width (a ++ b) = width a + width b := by
  induction a with
  | nil => simp
  | cons c a ih => simp [ih, Nat.add_assoc]

theorem length_le_width (cs : List Char) : cs.length ≤ width cs := by
  induction cs with
  | nil => simp
  | cons c cs ih => have := c.utf8Size_pos; simp only [List.length_cons, width_cons]; omega

/-- The two parts of a text at a byte offset; `none` past its end and inside a character. -/
def cut? : List Char → Nat → Option (List Char × List Char)
  | cs, 0 => some ([], cs)
  | [], _ + 1 => none
  | c :: cs, n + 1 =>
    if c.utf8Size ≤ n + 1 then (cut? cs (n + 1 - c.utf8Size)).map fun (a, b) => (c :: a, b)
    else none

/-- Cuts find every boundary. -/
theorem cut?_width_append (a b : List Char) : cut? (a ++ b) (width a) = some (a, b) := by
  induction a with
  | nil => cases b <;> rfl
  | cons c a ih =>
    have hc := c.utf8Size_pos
    obtain ⟨n, hn⟩ : ∃ n, width (c :: a) = n + 1 :=
      ⟨width (c :: a) - 1, by simp only [width_cons]; omega⟩
    have hle : c.utf8Size ≤ n + 1 := by simp only [width_cons] at hn; omega
    have hrest : n + 1 - c.utf8Size = width a := by simp only [width_cons] at hn; omega
    rw [hn, List.cons_append, cut?, if_pos hle, hrest, ih]
    rfl

/-- Cuts lose nothing, and the first part has the given width. -/
theorem eq_append_of_cut? {cs a b : List Char} {n : Nat} (h : cut? cs n = some (a, b)) :
    cs = a ++ b ∧ width a = n := by
  induction cs generalizing n a with
  | nil => cases n <;> simp_all [cut?]
  | cons c cs ih =>
    cases n with
    | zero => simp_all [cut?]
    | succ n =>
      rw [cut?] at h
      split at h
      · obtain ⟨⟨a', b'⟩, hcut, heq⟩ := Option.map_eq_some_iff.1 h
        obtain ⟨rfl, rfl⟩ := Prod.mk.inj heq
        obtain ⟨hsplit, hwidth⟩ := ih hcut
        exact ⟨by simp [hsplit], by simp only [width_cons]; omega⟩
      · cases h

/-- The offset is at most the width and not inside a character. -/
def isBoundary : List Char → Nat → Bool
  | _, 0 => true
  | [], _ + 1 => false
  | c :: cs, n + 1 => c.utf8Size ≤ n + 1 && isBoundary cs (n + 1 - c.utf8Size)

/-- Texts can be cut at their boundaries. -/
theorem isBoundary_eq_isSome_cut? (cs : List Char) (offset : Nat) :
    isBoundary cs offset = (cut? cs offset).isSome := by
  induction cs generalizing offset with
  | nil => cases offset <;> rfl
  | cons c cs ih =>
    cases offset with
    | zero => rfl
    | succ n => by_cases h : c.utf8Size ≤ n + 1 <;> simp [isBoundary, cut?, h, ih]

/-- What follows a byte offset; `none` past the end and inside a character. -/
def after? : List Char → Nat → Option (List Char)
  | cs, 0 => some cs
  | [], _ + 1 => none
  | c :: cs, n + 1 => if c.utf8Size ≤ n + 1 then after? cs (n + 1 - c.utf8Size) else none

theorem after?_eq_map_cut? (cs : List Char) (offset : Nat) :
    after? cs offset = (cut? cs offset).map Prod.snd := by
  induction cs generalizing offset with
  | nil => cases offset <;> rfl
  | cons c cs ih =>
    cases offset with
    | zero => rfl
    | succ n => by_cases h : c.utf8Size ≤ n + 1 <;> simp [after?, cut?, h, ih, Function.comp_def]

/-- The part of a text from one byte offset up to another. -/
def slice? (cs : List Char) (start stop : Nat) : Option (List Char) := do
  let rest ← after? cs start
  if start ≤ stop then
    let (inside, _) ← cut? rest (stop - start)
    some inside
  else none

end Restyle.Text
