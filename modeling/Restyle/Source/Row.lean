/-! Rows that are searched by halving. Each member of a row has a number as its key, and the keys increase along the
row. -/

namespace Restyle.Row

variable {α : Type} (key : α → Nat) (row : Array α) (target : Nat)

/-- Halves a part of `count` members of a row, the first of them at `first`, until one is left: the last whose key
is not above the target, or the first if there is none. -/
def halve (first count : Nat) : Nat :=
  if 1 < count then
    let middle := first + count / 2
    if row[middle]?.any (target < key ·) then halve first (count - count / 2)
    else halve middle (count - count / 2)
  else first
termination_by count

/-- The place of a member that has the target as its key, or else where one would be inserted. -/
def search : Except Nat Nat :=
  let i := halve key row target 0 row.size
  match row[i]? with
  | none => .error i
  | some a =>
    if key a = target then .ok i
    else if key a < target then .error (i + 1)
    else .error i

/-- The place of the last member with a key up to the target. -/
def last? : Option Nat :=
  match search key row target with
  | .ok i => some i
  | .error 0 => none
  | .error (i + 1) => some i

end Restyle.Row
