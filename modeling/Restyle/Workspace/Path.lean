import Restyle.Text.Search

/-! Paths. A path is kept as it is written, since it is shown so, and compared by the steps that it
spells: empty segments and single points do not count, and two points stay, for only a file tree
knows where they lead. -/

namespace Restyle

structure Path where
  text : String
  deriving Repr, DecidableEq, Inhabited

inductive PathStep where
  | up
  | name (name : String)
  deriving Repr, DecidableEq

namespace Path

/-- What stands between the slashes. -/
def segments (p : Path) : List String := (Text.splitAtChar '/' p.text.toList).map String.ofList

def ofSegments (segments : List String) : Path := ⟨String.intercalate "/" segments⟩

/-- A segment that leads nowhere. -/
def isIdle (segment : String) : Bool := segment = "" || segment = "."

def isAbsolute (p : Path) : Bool := p.text.toList.head? = some '/'

def stepOf (segment : String) : PathStep := if segment = ".." then .up else .name segment

def steps (p : Path) : List PathStep := (p.segments.filter (!isIdle ·)).map stepOf

/-- The two paths spell the same steps. -/
def same (p q : Path) : Bool := p.isAbsolute == q.isAbsolute && p.steps == q.steps

/-- A path from the end of another one. -/
def join (p q : Path) : Path :=
  if q.isAbsolute then q
  else if p.text = "" || p.text.toList.getLast? = some '/' then ⟨p.text ++ q.text⟩
  else ⟨p.text ++ "/" ++ q.text⟩

/-- The path seen from a directory. -/
def absolute (p here : Path) : Path := if p.isAbsolute then p else here.join p

/-- The name at the end of a path. -/
def fileName? (p : Path) : Option String :=
  match p.steps.getLast? with
  | some (.name n) => some n
  | _ => none

def dropIdleEnd (segments : List String) : List String :=
  (segments.reverse.dropWhile isIdle).reverse

/-- The path without its last step. -/
def parent? (p : Path) : Option Path :=
  let (front, body) := if p.isAbsolute then ("/", p.segments.tail) else ("", p.segments)
  match dropIdleEnd body with
  | [] => none
  | body => some ⟨front ++ (ofSegments (dropIdleEnd body.dropLast)).text⟩

/-- The segments after some steps. -/
def dropSteps : List PathStep → List String → Option (List String)
  | [], segments => some segments
  | step :: steps, segments =>
    match segments.dropWhile isIdle with
    | [] => none
    | s :: rest => if stepOf s = step then dropSteps steps rest else none

/-- What is left of a path after the steps of another one. -/
def below? (p base : Path) : Option Path :=
  if p.isAbsolute == base.isAbsolute then
    (dropSteps base.steps p.segments).map fun rest =>
      ofSegments (dropIdleEnd (rest.dropWhile isIdle))
  else none

/-- Steps that are left away in front of idle segments leave what they left before. -/
theorem dropSteps_idle (steps : List PathStep) (step : PathStep) {segment : String}
    (h : isIdle segment = true) (rest : List String) :
    dropSteps (step :: steps) (segment :: rest) = dropSteps (step :: steps) rest := by
  simp [dropSteps, h]

/-- The path begins with the steps of another one. -/
def isBelow (p base : Path) : Bool := (p.below? base).isSome

/-! ### Order -/

/-- Two points come before names, and names in the order of their characters. -/
def stepBefore : PathStep → PathStep → Bool
  | .up, .name _ => true
  | .name a, .name b => a < b
  | _, _ => false

/-- The first steps are not after the others: at the first difference the earlier step decides. -/
def stepsUpTo : List PathStep → List PathStep → Bool
  | [], _ => true
  | _ :: _, [] => false
  | a :: as, b :: bs => if a = b then stepsUpTo as bs else stepBefore a b

@[simp] theorem stepsUpTo_refl (as : List PathStep) : stepsUpTo as as = true := by
  induction as with
  | nil => rfl
  | cons a as ih => simpa [stepsUpTo] using ih

theorem stepBefore_total {a b : PathStep} (h : a ≠ b) :
    (stepBefore a b || stepBefore b a) = true := by
  cases a with
  | up => cases b with
    | up => exact absurd rfl h
    | name b => rfl
  | name a => cases b with
    | up => rfl
    | name b =>
      have hne : a ≠ b := fun e => h (by rw [e])
      simp only [stepBefore, Bool.or_eq_true, decide_eq_true_eq]
      rcases Std.le_total (a := a) (b := b) with hab | hab
      · exact .inl (Std.lt_of_le_of_ne hab hne)
      · exact .inr (Std.lt_of_le_of_ne hab (Ne.symm hne))

/-- Of two lists of steps one is not after the other. -/
theorem stepsUpTo_total (as bs : List PathStep) : (stepsUpTo as bs || stepsUpTo bs as) = true := by
  induction as generalizing bs with
  | nil => rfl
  | cons a as ih =>
    cases bs with
    | nil => simp [stepsUpTo]
    | cons b bs =>
      by_cases h : a = b
      · subst h
        simpa [stepsUpTo] using ih bs
      · simpa [stepsUpTo, h, Ne.symm h] using stepBefore_total h

/-- The path is not after another one. -/
def upTo (p q : Path) : Bool :=
  if p.isAbsolute = q.isAbsolute then stepsUpTo p.steps q.steps else p.isAbsolute

/-- The first of each run of paths with the same steps. -/
def distinct : List Path → List Path
  | p :: q :: rest => if p.same q then distinct (p :: rest) else p :: distinct (q :: rest)
  | ps => ps

/-- The paths in order, each once, as first written. -/
def sorted (paths : List Path) : List Path := distinct (paths.mergeSort upTo)

end Path

end Restyle
