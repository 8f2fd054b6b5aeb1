import Restyle.Glob.Pattern

/-! Which texts a glob matches. The match goes over the bytes of the text: a question mark and a class
stand for one byte, and a character of several bytes in a class for each of them. -/

namespace Restyle

abbrev Bytes := List UInt8

namespace Glob

def slash : UInt8 := 47

/-! ### Marks

A text of n bytes has n + 1 positions, and each is marked or not. The marks of a rest of a pattern are
the positions from which that rest matches all that follows, so a pattern is read from its end, one pass
over the text for each token. -/

/-- The end of the text alone. -/
def endMark : Bytes → List Bool
  | [] => [true]
  | _ :: bs => false :: endMark bs

/-- The positions before an accepted byte and a mark. -/
def step (accepts : UInt8 → Bool) : Bytes → List Bool → List Bool
  | [], _ => [false]
  | b :: bs, ms => (accepts b && ms.tail.headD false) :: step accepts bs ms.tail

/-- The positions at or before a mark. -/
def atOrBefore : List Bool → List Bool
  | [] => []
  | m :: ms =>
    let later := atOrBefore ms
    (m || later.headD false) :: later

/-- The positions with a slash at or after them and a mark after the slash. -/
def beforeSlash : Bytes → List Bool → List Bool
  | [], _ => [false]
  | b :: bs, ms =>
    let later := beforeSlash bs ms.tail
    ((b = slash && ms.tail.headD false) || later.headD false) :: later

/-- The marks of either. -/
def either (ms ms' : List Bool) : List Bool := ms.zipWith (· || ·) ms'

theorem headD_eq_true_iff {ms : List Bool} : ms.headD false = true ↔ ms[0]? = some true := by
  cases ms <;> simp

theorem getElem?_endMark {bs : Bytes} {i : Nat} :
    (endMark bs)[i]? = some true ↔ i = bs.length := by
  induction bs generalizing i with
  | nil => cases i <;> simp [endMark]
  | cons b bs ih => cases i <;> simp [endMark, ih]

theorem getElem?_step {accepts : UInt8 → Bool} {bs : Bytes} {ms : List Bool} {i : Nat} :
    (step accepts bs ms)[i]? = some true ↔
      ∃ b, bs[i]? = some b ∧ accepts b = true ∧ ms[i + 1]? = some true := by
  induction bs generalizing ms i with
  | nil => cases i <;> simp [step]
  | cons b bs ih =>
    cases i with
    | zero =>
      simp only [step, List.getElem?_cons_zero, Option.some.injEq, Bool.and_eq_true,
        headD_eq_true_iff, List.getElem?_tail]
      simp
    | succ i => simp [step, ih]

theorem getElem?_atOrBefore {ms : List Bool} {i : Nat} :
    (atOrBefore ms)[i]? = some true ↔ ∃ j, i ≤ j ∧ ms[j]? = some true := by
  induction ms generalizing i with
  | nil => simp [atOrBefore]
  | cons m ms ih =>
    cases i with
    | zero =>
      simp only [atOrBefore, List.getElem?_cons_zero, Option.some.injEq, Bool.or_eq_true,
        headD_eq_true_iff, ih, Nat.zero_le, true_and]
      constructor
      · rintro (h | ⟨j, h⟩)
        · exact ⟨0, by simp [h]⟩
        · exact ⟨j + 1, by simpa using h⟩
      · rintro ⟨j, h⟩
        cases j with
        | zero => exact .inl (by simpa using h)
        | succ j => exact .inr ⟨j, by simpa using h⟩
    | succ i =>
      simp only [atOrBefore, List.getElem?_cons_succ, ih]
      constructor
      · rintro ⟨j, hij, h⟩
        exact ⟨j + 1, Nat.succ_le_succ hij, by simpa using h⟩
      · rintro ⟨j, hij, h⟩
        cases j with
        | zero => omega
        | succ j => exact ⟨j, by omega, by simpa using h⟩

theorem getElem?_beforeSlash {bs : Bytes} {ms : List Bool} {i : Nat} :
    (beforeSlash bs ms)[i]? = some true ↔
      ∃ j, i ≤ j ∧ bs[j]? = some slash ∧ ms[j + 1]? = some true := by
  induction bs generalizing ms i with
  | nil => cases i <;> simp [beforeSlash]
  | cons b bs ih =>
    cases i with
    | zero =>
      simp only [beforeSlash, List.getElem?_cons_zero, Option.some.injEq, Bool.or_eq_true,
        Bool.and_eq_true, decide_eq_true_eq, headD_eq_true_iff, ih, Nat.zero_le, true_and,
        List.getElem?_tail]
      constructor
      · rintro (⟨rfl, h⟩ | ⟨j, hs, h⟩)
        · exact ⟨0, by simp, h⟩
        · exact ⟨j + 1, by simpa using hs, h⟩
      · rintro ⟨j, hs, h⟩
        cases j with
        | zero => exact .inl ⟨by simpa using hs, h⟩
        | succ j => exact .inr ⟨j, by simpa using hs, h⟩
    | succ i =>
      simp only [beforeSlash, List.getElem?_cons_succ, ih, List.getElem?_tail]
      constructor
      · rintro ⟨j, hij, hs, h⟩
        exact ⟨j + 1, Nat.succ_le_succ hij, by simpa using hs, h⟩
      · rintro ⟨j, hij, hs, h⟩
        cases j with
        | zero => omega
        | succ j => exact ⟨j, by omega, by simpa using hs, h⟩

/-! ### Tokens -/

/-- The bytes of a range of characters: from the last byte of one end to the first of the other, and
the other bytes of both. -/
def rangeHas (b : UInt8) (first last : Char) : Bool :=
  let first' := String.utf8EncodeChar first
  let last' := String.utf8EncodeChar last
  if first = last then first'.contains b
  else
    first'.dropLast.contains b || last'.tail.contains b
      || (first'.getLast?.any (· ≤ b) && last'.head?.any (b ≤ ·))

def classHas (negated : Bool) (ranges : List (Char × Char)) (b : UInt8) : Bool :=
  (ranges.any fun (first, last) => rangeHas b first last) != negated

mutual

/-- The token stands for nothing but the empty text, since all its branches do. -/
def isVoid : GlobToken → Bool
  | .alternatives branches => allVoid branches
  | _ => false

def allVoidIn : List GlobToken → Bool
  | [] => true
  | t :: ts => isVoid t && allVoidIn ts

def allVoid : List (List GlobToken) → Bool
  | [] => true
  | b :: bs => allVoidIn b && allVoid bs

end

mutual

/-- The positions from which the token matches up to a mark. -/
def tokenMarks (bs : Bytes) : GlobToken → List Bool → List Bool
  | .literal c, ms => (String.utf8EncodeChar c).foldr (fun a ms => step (· == a) bs ms) ms
  | .any, ms => step (fun _ => true) bs ms
  | .star, ms => atOrBefore ms
  | .directories, ms => either ms (beforeSlash bs ms)
  | .descendants, ms => step (· == slash) bs (atOrBefore ms)
  | .between, ms => step (· == slash) bs (either ms (beforeSlash bs ms))
  | .charClass negated ranges, ms => step (classHas negated ranges) bs ms
  | .alternatives branches, ms => if allVoid branches then ms else branchMarks bs branches ms

def marks (bs : Bytes) : List GlobToken → List Bool → List Bool
  | [], ms => ms
  | t :: ts, ms => tokenMarks bs t (marks bs ts ms)

/-- The marks of any branch; empty ones do not count. -/
def branchMarks (bs : Bytes) : List (List GlobToken) → List Bool → List Bool
  | [], ms => ms.map fun _ => false
  | b :: rest, ms =>
    if allVoidIn b then branchMarks bs rest ms else either (marks bs b ms) (branchMarks bs rest ms)

end

/-- The glob matches a whole text. Two stars alone match everything. -/
def isMatch (g : Glob) (text : String) : Bool :=
  match g.tokens with
  | [.directories] => true
  | tokens =>
    let bs := text.toUTF8.toList
    (marks bs tokens (endMark bs)).headD false

end Glob

end Restyle
