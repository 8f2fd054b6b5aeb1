/-! Searching a text for a literal piece. -/

namespace Restyle.Text

/-- What follows a literal piece at the head of a text. -/
def strip? : List Char → List Char → Option (List Char)
  | [], cs => some cs
  | _ :: _, [] => none
  | p :: ps, c :: cs => if p = c then strip? ps cs else none

theorem strip?_eq_some_iff {ps cs rest : List Char} : strip? ps cs = some rest ↔ cs = ps ++ rest := by
  induction ps generalizing cs with
  | nil => simp [strip?]
  | cons p ps ih =>
    cases cs with
    | nil => simp [strip?]
    | cons c cs =>
      rw [strip?]
      split
      · next h => subst h; simp [ih]
      · next h =>
        simp only [List.cons_append, List.cons.injEq, reduceCtorEq, false_iff]
        exact fun e => h e.1.symm

/-- Whether the text begins with the piece. -/
def startsWith (piece cs : List Char) : Bool := (strip? piece cs).isSome

/-- The text before the first place where the piece stands, and the text from there on. -/
def breakOn? (piece : List Char) : List Char → Option (List Char × List Char)
  | [] => if piece = [] then some ([], []) else none
  | c :: cs =>
    if startsWith piece (c :: cs) then some ([], c :: cs)
    else (breakOn? piece cs).map fun (a, b) => (c :: a, b)

/-- The text before the first place where the test holds, and the text from there on. -/
def breakWhere (test : List Char → Bool) : List Char → List Char × List Char
  | [] => ([], [])
  | c :: cs =>
    if test (c :: cs) then ([], c :: cs)
    else
      let (a, b) := breakWhere test cs
      (c :: a, b)

theorem breakWhere_append (test : List Char → Bool) (cs : List Char) :
    (breakWhere test cs).1 ++ (breakWhere test cs).2 = cs := by
  induction cs with
  | nil => rfl
  | cons c cs ih => rw [breakWhere]; split <;> simp [ih]

theorem breakWhere_ne_nil {test : List Char → Bool} {c : Char} {cs : List Char}
    (h : test (c :: cs) = false) : (breakWhere test (c :: cs)).1 ≠ [] := by
  simp [breakWhere, h]

theorem breakOn?_append {piece cs a b : List Char} (h : breakOn? piece cs = some (a, b)) :
    cs = a ++ b ∧ startsWith piece b = true := by
  induction cs generalizing a with
  | nil =>
    rw [breakOn?] at h
    split at h
    · next hp =>
      simp only [Option.some.injEq, Prod.mk.injEq] at h
      simp [← h.1, ← h.2, hp, startsWith, strip?]
    · cases h
  | cons c cs ih =>
    rw [breakOn?] at h
    split at h
    · next hp => simp only [Option.some.injEq, Prod.mk.injEq] at h; simp [← h.1, ← h.2, hp]
    · obtain ⟨⟨a', b'⟩, hb, heq⟩ := Option.map_eq_some_iff.1 h
      obtain ⟨rfl, rfl⟩ := Prod.mk.inj heq
      obtain ⟨rfl, hs⟩ := ih hb
      exact ⟨rfl, hs⟩

/-- Whether the piece stands somewhere in the text. -/
def contains (piece cs : List Char) : Bool := (breakOn? piece cs).isSome

/-- The parts of a text between the places of a separator; there is always at least one. -/
def splitAtChar (sep : Char) : List Char → List (List Char)
  | [] => [[]]
  | c :: cs =>
    if c = sep then [] :: splitAtChar sep cs
    else match splitAtChar sep cs with
      | part :: parts => (c :: part) :: parts
      | [] => [[c]]

end Restyle.Text
