import Restyle.Proofs.Script.Arrays
import Restyle.Script.Shape

/-! What stands after an expression in a text. The expression is the part of the text that a reader finds at
its head. The text is taken for that expression if spaces follow it up to the end of the text or up to the
beginning of a comment; what comes after the comment does not count. All this holds for any reader, as far as
it ends its expressions between characters and finds the items of arrays in the text: that by the grammar
does. -/

namespace Restyle.Script

open Text

variable {cs expression rest spaces tail : List Char} {t : Term} {s : State}

/-! ### Readers -/

/-- What is taken for granted of a reader. -/
class ExpressionReader.Lawful [ExpressionReader] : Prop where
  /-- An expression takes some of the text. -/
  pos : ∀ {cs t stop}, ExpressionReader.read cs = .ok (t, stop) → 0 < stop
  /-- An expression ends between characters of the text. -/
  cuts : ∀ {cs t stop}, ExpressionReader.read cs = .ok (t, stop) → isBoundary cs stop = true
  /-- The items of an array are parts of the text. -/
  placed : ∀ {cs t stop}, ExpressionReader.read cs = .ok (t, stop) → t.Placed cs

/-- What the reader by the grammar reads is what its parser ends with. -/
theorem exists_of_grammarReader {stop : Nat} (h : grammarReader.read cs = .ok (t, stop)) :
    ∃ s, Shape.outcome cs = .ok t s ∧ s.faults = [] ∧ s.lastStop = stop := by
  unfold ExpressionReader.read grammarReader at h
  dsimp only at h
  split at h
  · cases h
  · next t s houtcome =>
    split at h
    · cases h
    · next hlast =>
      cases h
      exact ⟨s, houtcome, List.getLast?_eq_none_iff.1 hlast, rfl⟩

instance lawful_grammarReader : grammarReader.Lawful where
  pos h := by
    obtain ⟨s, houtcome, -, rfl⟩ := exists_of_grammarReader h
    exact (Nat.zero_le _).trans_lt (Parse.takes_expression (Grammar.advances_ofText _) (Place.in_scan _) houtcome)
  cuts {cs _ _} h := by
    obtain ⟨s, houtcome, -, rfl⟩ := exists_of_grammarReader h
    have hin : (State.ofText cs).In cs := Place.in_scan cs
    exact (hin.of_reaches (Parse.reaches_of_ok houtcome)).isBoundary_lastStop
  placed h := by
    obtain ⟨s, houtcome, -, -⟩ := exists_of_grammarReader h
    exact Parse.gives_expression (Grammar.sound_ofText _) (Place.in_scan _) houtcome

/-! ### What may follow an expression -/

/-- The text may follow an expression: it is empty, or a comment begins it. -/
def MayFollow (tail : List Char) : Prop := tail = [] ∨ beginsComment tail = true

instance (tail : List Char) : Decidable (MayFollow tail) := inferInstanceAs (Decidable (_ ∨ _))

theorem trimLeft_append (hspaces : ∀ c ∈ spaces, isSpace c = true) (htail : trimLeft tail = tail) :
    trimLeft (spaces ++ tail) = tail := by
  rw [trimLeft, List.dropWhile_append_of_pos hspaces]
  exact htail

/-- Where a reader of spaces and comments is. -/
inductive Trivia where
  /-- Between two of them. -/
  | code
  /-- After the first slash of a comment. -/
  | slash
  /-- In a comment that ends with its line. -/
  | line
  /-- In a comment that ends with a mark. -/
  | block
  /-- In such a comment, after a star. -/
  | star
  deriving DecidableEq

namespace Trivia

/-- One character further. Nothing but spaces and comments can be read. -/
def step : Trivia → Char → Option Trivia
  | code, c => if c = '/' then some slash else if isSpace c then some code else none
  | slash, c => if c = '/' then some line else if c = '*' then some block else none
  | line, c => some (if c ∈ ['\n', '\r', '\u2028', '\u2029'] then code else line)
  | block, c => some (if c = '*' then star else block)
  | star, c => some (if c = '/' then code else if c = '*' then star else block)

/-- The text consists of spaces and comments that end in it. -/
def spans (cs : List Char) : Bool := cs.foldlM step code matches some code | some line

theorem spans_cons_space {c : Char} (hc : isSpace c = true) (cs : List Char) : spans (c :: cs) = spans cs := by
  have hslash : c ≠ '/' := by
    rintro rfl
    exact absurd hc (by decide)
  simp [spans, List.foldlM_cons, step, hslash, hc]

/-- Spaces and comments may follow an expression. -/
theorem mayFollow_trimLeft (h : spans cs = true) : MayFollow (trimLeft cs) := by
  induction cs with
  | nil => exact .inl rfl
  | cons c cs ih =>
    by_cases hc : isSpace c = true
    · rw [trimLeft, List.dropWhile_cons_of_pos hc]
      exact ih (spans_cons_space hc cs ▸ h)
    · rw [trimLeft, List.dropWhile_cons_of_neg hc]
      right
      obtain rfl : c = '/' := by
        by_contra hne
        simp [spans, List.foldlM_cons, step, hne, hc] at h
      cases cs with
      | nil => cases h
      | cons d cs =>
        by_cases hslash : d = '/'
        · simp [hslash, beginsComment, startsWith, strip?]
        · by_cases hstar : d = '*'
          · simp [hstar, beginsComment, startsWith, strip?]
          · simp [spans, List.foldlM_cons, step, hslash, hstar] at h

end Trivia

section Reader

variable [ExpressionReader]

/-! ### The expression at the head of a text -/

/-- The text begins with an expression that is read without a fault, and goes on behind it. -/
structure Reads (cs : List Char) (t : Term) (expression rest : List Char) : Prop where
  split : cs = expression ++ rest
  read : ExpressionReader.read cs = .ok (t, width expression)

/-- An expression never ends inside a character. -/
theorem exists_reads [ExpressionReader.Lawful] {stop : Nat} (h : ExpressionReader.read cs = .ok (t, stop)) :
    ∃ expression rest, Reads cs t expression rest := by
  have hboundary := ExpressionReader.Lawful.cuts h
  rw [isBoundary_eq_isSome_cut?, Option.isSome_iff_exists] at hboundary
  obtain ⟨⟨expression, rest⟩, hcut⟩ := hboundary
  obtain ⟨hsplit, rfl⟩ := eq_append_of_cut? hcut
  exact ⟨expression, rest, hsplit, h⟩

/-- No expression is empty. -/
theorem Reads.ne_nil [ExpressionReader.Lawful] (h : Reads cs t expression rest) : expression ≠ [] := by
  rintro rfl
  exact Nat.lt_irrefl 0 (ExpressionReader.Lawful.pos h.read)

/-! ### What follows it -/

/-- The text is taken for the expression at its head if spaces follow up to the end of the text or up to a
comment. Otherwise the fault is at the first character behind the expression that is no space. -/
theorem ofText?_of_reads {text : String} (hmark : text.toList.head? ≠ some '\ufeff')
    (h : Reads text.toList t expression (spaces ++ tail)) (hspaces : ∀ c ∈ spaces, isSpace c = true)
    (htail : trimLeft tail = tail) :
    Shape.ofText? text =
      if MayFollow tail then .ok t.shape else .error ⟨.trailingText, width (expression ++ spaces)⟩ := by
  have hscript : withoutByteOrderMark text.toList = text.toList := if_neg hmark
  have hafter : after? text.toList (width expression) = some (spaces ++ tail) := by
    rw [after?_eq_map_cut?, h.split, cut?_width_append]
    rfl
  have htrailing : trailing text.toList (width expression) = if beginsComment tail then [] else tail := by
    rw [trailing, hafter, Option.getD_some, trimLeft_append hspaces htail]
  have hwidth : width text.toList - width tail = width (expression ++ spaces) := by
    rw [h.split, ← List.append_assoc, width_append, Nat.add_sub_cancel]
  unfold Shape.ofText?
  simp only [hscript, h.read, htrailing, MayFollow]
  by_cases hcomment : beginsComment tail = true
  · simp [hcomment]
  · cases tail with
    | nil => simp [hcomment]
    | cons c tail => simp only [hcomment, hwidth, if_false, List.isEmpty_cons, reduceCtorEq, or_self, Bool.false_eq_true]

/-- Whatever a text is taken for, it is an expression with nothing but spaces behind it, up to a comment if
there is one. -/
theorem exists_of_ofText?_ok [ExpressionReader.Lawful] {text : String} {shape : Shape}
    (hmark : text.toList.head? ≠ some '\ufeff') (h : Shape.ofText? text = .ok shape) :
    ∃ t expression spaces tail, Reads text.toList t expression (spaces ++ tail) ∧ expression ≠ [] ∧
      (∀ c ∈ spaces, isSpace c = true) ∧ trimLeft tail = tail ∧ MayFollow tail ∧ t.shape = shape := by
  have hscript : withoutByteOrderMark text.toList = text.toList := if_neg hmark
  have hsome : ∃ t expression rest, Reads text.toList t expression rest := by
    unfold Shape.ofText? at h
    simp only [hscript] at h
    split at h
    · cases h
    · next t stop hread =>
      obtain ⟨expression, rest, hreads⟩ := exists_reads hread
      exact ⟨t, expression, rest, hreads⟩
  obtain ⟨t, expression, rest, hreads⟩ := hsome
  have hrest : rest = rest.takeWhile isSpace ++ trimLeft rest := (List.takeWhile_append_dropWhile ..).symm
  have hspaces : ∀ c ∈ rest.takeWhile isSpace, isSpace c = true := fun c hc => List.mem_takeWhile_imp hc
  have htail : trimLeft (trimLeft rest) = trimLeft rest := List.dropWhile_idempotent ..
  rw [ofText?_of_reads hmark (hrest ▸ hreads) hspaces htail] at h
  split at h
  · next hfollow =>
    cases h
    exact ⟨t, expression, _, _, hrest ▸ hreads, hreads.ne_nil, hspaces, htail, hfollow, rfl⟩
  · cases h

/-- The items of an array that a text is taken for are parts of the text, and none of them is empty. -/
theorem exists_slice_of_ofText?_array [ExpressionReader.Lawful] {text : String} {items : List (Option Span)}
    (hmark : text.toList.head? ≠ some '\ufeff') (h : Shape.ofText? text = .ok (.array items)) {span : Span}
    (hspan : some span ∈ items) : ∃ piece ≠ "", span.slice? text = some piece := by
  obtain ⟨t, expression, spaces, tail, hreads, -, -, -, -, hshape⟩ := exists_of_ofText?_ok hmark h
  have hinner : ∃ found, t.inner = .array found ∧ found.map (·.map Prod.fst) = items := by
    unfold Term.shape at hshape
    split at hshape
    · cases hshape
    · cases hshape
    · next found hfound => exact ⟨found, hfound, Shape.array.inj hshape⟩
    · cases hshape
  obtain ⟨found, hfound, rfl⟩ := hinner
  obtain ⟨entry, hentry, hfst⟩ := List.mem_map.1 hspan
  obtain ⟨⟨span', item⟩, rfl, rfl⟩ := Option.map_eq_some_iff.1 hfst
  obtain ⟨piece, hne, hslice⟩ := ExpressionReader.Lawful.placed hreads.read found hfound _ hentry _ rfl
  refine ⟨String.ofList piece, ?_, by rw [Span.slice?, hslice]; rfl⟩
  exact fun hempty => hne (by simpa using hempty)

/-- A text is taken for the expression at its head if nothing but spaces and comments follows. -/
theorem ofText?_of_spans {text : String} (hmark : text.toList.head? ≠ some '\ufeff')
    (h : Reads text.toList t expression rest) (hrest : Trivia.spans rest = true) : Shape.ofText? text = .ok t.shape := by
  have hsplit : rest = rest.takeWhile isSpace ++ trimLeft rest := (List.takeWhile_append_dropWhile ..).symm
  have htrimmed : trimLeft (trimLeft rest) = trimLeft rest := List.dropWhile_idempotent ..
  rw [ofText?_of_reads hmark (hsplit ▸ h) (fun c hc => List.mem_takeWhile_imp hc) htrimmed,
    if_pos (Trivia.mayFollow_trimLeft hrest)]

/-- The mark of a byte order is not counted in front of the end of an expression, so that the end of a short one is
inside the mark, and what follows it does not count. -/
theorem ofText?_of_reads_marked [ExpressionReader.Lawful] {text : String} (hmark : text.toList = '\ufeff' :: cs)
    (h : Reads cs t expression rest) (hshort : width expression < '\ufeff'.utf8Size) :
    Shape.ofText? text = .ok t.shape := by
  have hscript : withoutByteOrderMark text.toList = cs := by rw [hmark]; rfl
  have hafter : after? text.toList (width expression) = none := by
    have hpos := ExpressionReader.Lawful.pos h.read
    obtain ⟨n, hn⟩ := Nat.exists_eq_succ_of_ne_zero (Nat.ne_of_gt hpos)
    rw [after?_eq_map_cut?, hmark, hn, cut?, if_neg (by omega)]
    rfl
  unfold Shape.ofText?
  simp only [hscript, h.read, trailing, hafter]
  rfl

end Reader

/-- A text may be taken for the expression at its head with anything behind it, once a comment has begun. -/
theorem ofText?_commented :
    Shape.ofText? "a /* c */ b" = .ok (.identifier "a") ∧
      ∀ t expression rest, Reads "a /* c */ b".toList t expression rest → Trivia.spans rest = false := by
  refine ⟨by decide +kernel, fun t expression rest h => ?_⟩
  obtain ⟨s, houtcome, -, hstop⟩ := exists_of_grammarReader h.read
  have hstate : (Shape.outcome "a /* c */ b".toList).state.lastStop = width ['a'] := by decide +kernel
  rw [houtcome] at hstate
  have hcut : cut? "a /* c */ b".toList (width expression) = some (expression, rest) := by
    rw [h.split, cut?_width_append]
  rw [← hstop, show s.lastStop = width ['a'] from hstate] at hcut
  obtain rfl : " /* c */ b".toList = rest := congrArg Prod.snd (Option.some.inj hcut)
  decide

end Restyle.Script
