import Restyle.Json.Comments
import Restyle.Proofs.Text.Search

/-! A text with comments, part by part. From its left end a text splits into texts in quotes, comments and
other characters; dropping the comments leaves the other parts, and these are the parts of what is left. -/

namespace Restyle.Json

open Text

/-- A part of a text with comments. -/
inductive Lexeme where
  /-- A text in quotes, with its quotes; the closing one may be missing at the end. -/
  | quoted (cs : List Char)
  /-- A comment from its opening mark on. -/
  | comment (cs : List Char)
  | other (c : Char)
  deriving Repr, DecidableEq

namespace Lexeme

def chars : Lexeme → List Char
  | quoted cs | comment cs => cs
  | other c => [c]

def isComment : Lexeme → Bool
  | comment _ => true
  | _ => false

/-- A text in quotes behind its opening quote, up to and with the closing one, and what follows it. A
character behind a backslash closes nothing. -/
def takeQuoted : List Char → List Char × List Char
  | '\\' :: c :: cs => ('\\' :: c :: (takeQuoted cs).1, (takeQuoted cs).2)
  | '"' :: cs => (['"'], cs)
  | c :: cs => (c :: (takeQuoted cs).1, (takeQuoted cs).2)
  | [] => ([], [])

/-- A block comment behind its opening mark, up to and with the first closing one, and what follows it. -/
def takeBlock (cs : List Char) : List Char × List Char :=
  match breakOn? ['*', '/'] cs with
  | some (body, rest) => (body ++ ['*', '/'], rest.drop 2)
  | none => (cs, [])

theorem takeQuoted_append (cs : List Char) : (takeQuoted cs).1 ++ (takeQuoted cs).2 = cs := by
  fun_induction takeQuoted cs <;> simp_all

theorem takeBlock_append (cs : List Char) : (takeBlock cs).1 ++ (takeBlock cs).2 = cs := by
  rw [takeBlock]
  cases h : breakOn? ['*', '/'] cs with
  | none => simp
  | some broken =>
    obtain ⟨body, rest⟩ := broken
    obtain ⟨rfl, hrest⟩ := breakOn?_append h
    obtain ⟨after, rfl⟩ := startsWith_iff.1 hrest
    simp

theorem length_takeQuoted (cs : List Char) : (takeQuoted cs).2.length ≤ cs.length := by
  have := congrArg List.length (takeQuoted_append cs)
  rw [List.length_append] at this
  omega

theorem length_takeBlock (cs : List Char) : (takeBlock cs).2.length ≤ cs.length := by
  have := congrArg List.length (takeBlock_append cs)
  rw [List.length_append] at this
  omega

/-- The parts of a text, from the left. -/
def split : List Char → List Lexeme
  | '"' :: cs => quoted ('"' :: (takeQuoted cs).1) :: split (takeQuoted cs).2
  | '/' :: '/' :: cs => comment ('/' :: '/' :: cs.takeWhile (· != '\n')) :: split (cs.dropWhile (· != '\n'))
  | '/' :: '*' :: cs => comment ('/' :: '*' :: (takeBlock cs).1) :: split (takeBlock cs).2
  | c :: cs => other c :: split cs
  | [] => []
termination_by cs => cs.length
decreasing_by
  · exact Nat.lt_succ_of_le (length_takeQuoted cs)
  · exact Nat.lt_succ_of_le (Nat.le_succ_of_le (List.dropWhile_sublist _).length_le)
  · exact Nat.lt_succ_of_le (Nat.le_succ_of_le (length_takeBlock cs))
  · exact Nat.lt_succ_self _

theorem flatMap_split (cs : List Char) : (split cs).flatMap chars = cs := by
  fun_induction split cs with
  | case1 cs ih => simp [ih, chars, takeQuoted_append]
  | case2 cs ih => simp [ih, chars, List.takeWhile_append_dropWhile]
  | case3 cs ih => simp [ih, chars, takeBlock_append]
  | case4 c cs _ _ _ ih => simp [ih, chars]
  | case5 => rfl

/-- The characters of the parts that are no comments. -/
def kept (ls : List Lexeme) : List Char := (ls.filter (!·.isComment)).flatMap chars

end Lexeme

open Lexeme

/-! ### Dropping comments -/

theorem dropComments_text (cs : List Char) :
    dropComments .text cs = (takeQuoted cs).1 ++ dropComments .code (takeQuoted cs).2 := by
  fun_induction takeQuoted cs <;> simp_all [dropComments]

theorem dropComments_line (cs : List Char) :
    dropComments .line cs = dropComments .code (cs.dropWhile (· != '\n')) := by
  induction cs with
  | nil => rfl
  | cons c cs ih =>
    by_cases hc : c = '\n'
    · subst hc
      simp [dropComments]
    · rw [List.dropWhile_cons_of_pos (by simpa using hc), ← ih, dropComments]
      exact fun h => hc h

theorem takeBlock_cons {c : Char} {cs : List Char} (h : ¬['*', '/'] <+: c :: cs) :
    (takeBlock (c :: cs)).2 = (takeBlock cs).2 := by
  rw [takeBlock, breakOn?, if_neg (mt startsWith_iff.1 h), takeBlock]
  cases breakOn? ['*', '/'] cs <;> rfl

theorem dropComments_block (cs : List Char) : dropComments .block cs = dropComments .code (takeBlock cs).2 := by
  induction cs with
  | nil => rfl
  | cons c cs ih =>
    by_cases hend : ['*', '/'] <+: c :: cs
    · obtain ⟨rest, hrest⟩ := hend
      obtain ⟨rfl, rfl⟩ : '*' = c ∧ '/' :: rest = cs := by simpa using hrest
      have hstarts : startsWith ['*', '/'] ('*' :: '/' :: rest) = true := startsWith_iff.2 ⟨rest, rfl⟩
      rw [dropComments, takeBlock, breakOn?, if_pos hstarts]
      rfl
    · rw [takeBlock_cons hend, ← ih, dropComments]
      rintro rest rfl rfl
      exact hend ⟨rest, rfl⟩

/-- What is left of a text are its parts without the comments. -/
theorem dropComments_code (cs : List Char) : dropComments .code cs = kept (split cs) := by
  fun_induction split cs with
  | case1 cs ih => simp [dropComments, dropComments_text, ih, kept, isComment, chars]
  | case2 cs ih => simp [dropComments, dropComments_line, ih, kept, isComment]
  | case3 cs ih => simp [dropComments, dropComments_block, ih, kept, isComment]
  | case4 c cs hquote hline hblock ih =>
    rw [dropComments, ih]
    · rfl
    all_goals simp_all
  | case5 => rfl

/-! ### What is left, split again -/

theorem kept_cons (l : Lexeme) (ls : List Lexeme) :
    kept (l :: ls) = (if l.isComment then [] else l.chars) ++ kept ls := by
  cases h : l.isComment <;> simp [kept, h]

/-- A text in quotes ends where it did, whatever follows it; one that is not closed has nothing behind
it. -/
theorem takeQuoted_again {cs more : List Char} (h : (takeQuoted cs).2 = [] → more = []) :
    takeQuoted ((takeQuoted cs).1 ++ more) = ((takeQuoted cs).1, more) := by
  fun_induction takeQuoted cs with
  | case1 c cs ih => simp [takeQuoted, ih h]
  | case2 cs => simp [takeQuoted]
  | case3 c cs hescape hquote ih =>
    rw [List.cons_append, takeQuoted, ih h]
    · -- A backslash that escapes nothing is the last character of all.
      intro d ds hc hds
      cases cs with
      | nil => simp [takeQuoted, h rfl] at hds
      | cons e cs => exact hescape e cs hc rfl
    · exact hquote
  | case4 => simp [takeQuoted, h]

/-- Only a comment in front hides what a text begins with. -/
theorem head?_kept_split {cs : List Char} (h : cs.head? ≠ some '/') : (kept (split cs)).head? = cs.head? := by
  fun_induction split cs with
  | case1 | case4 => simp [kept_cons, isComment, chars]
  | case2 | case3 => simp at h
  | case5 => rfl

/-- What is left of a text splits into the parts that are no comments: dropping a comment joins no two
parts to another one. -/
theorem split_kept_split (cs : List Char) : split (kept (split cs)) = (split cs).filter (!·.isComment) := by
  fun_induction split cs with
  | case1 cs ih =>
    have hquoted : takeQuoted ((takeQuoted cs).1 ++ kept (split (takeQuoted cs).2)) =
        ((takeQuoted cs).1, kept (split (takeQuoted cs).2)) :=
      takeQuoted_again fun hrest => by simp [hrest, split, kept]
    rw [kept_cons, if_neg (by simp [isComment]), chars, List.cons_append, split, hquoted, ih]
    simp [isComment]
  | case2 cs ih => simpa [kept_cons, isComment] using ih
  | case3 cs ih => simpa [kept_cons, isComment] using ih
  | case4 c cs hquote hline hblock ih =>
    -- A slash that opens no comment has the same character behind it as before.
    have hbehind : ∀ d ds, c = '/' → kept (split cs) = d :: ds → ∃ ds, cs = d :: ds := by
      intro d ds hc hds
      have hslash : cs.head? ≠ some '/' := fun hcs => hline cs.tail hc (List.eq_cons_of_mem_head? hcs)
      have hhead := head?_kept_split hslash
      rw [hds, List.head?_cons] at hhead
      exact ⟨cs.tail, List.eq_cons_of_mem_head? hhead.symm⟩
    rw [kept_cons, if_neg (by simp [isComment]), chars, List.singleton_append, split, ih]
    · simp [isComment]
    · exact hquote
    · intro ds hc hds
      obtain ⟨ds', hcs⟩ := hbehind _ ds hc hds
      exact hline ds' hc hcs
    · intro ds hc hds
      obtain ⟨ds', hcs⟩ := hbehind _ ds hc hds
      exact hblock ds' hc hcs
  | case5 => simp [split, kept]

end Restyle.Json
