import Mathlib.Tactic.Common
import Restyle.Proofs.Text.Search
import Restyle.Source.MapFile

/-! Reading the mappings of a source map file by the rules of the format: lines end at semicolons,
segments at commas, and the numbers of a segment are added to those of the segment before, except that
generated columns count from zero on every line. The main statement is that segments whose lines never
decrease are read back as they were written. -/

namespace Restyle

open Text

/-! ### Base-64 numbers -/

namespace Vlq

/-- The value of a base-64 digit. -/
def value? (c : Char) : Option Nat :=
  if c.isUpper then some (c.toNat - 65)
  else if c.isLower then some (c.toNat - 71)
  else if c.isDigit then some (c.toNat + 4)
  else if c = '+' then some 62
  else if c = '/' then some 63
  else none

/-- The number at the head of a text, and what follows it; `none` if the text ends inside it. -/
def decodeNat? : List Char → Option (Nat × List Char)
  | [] => none
  | c :: cs => do
    let d ← value? c
    if d < 32 then some (d, cs)
    else do
      let (n, rest) ← decodeNat? cs
      some (d - 32 + 32 * n, rest)

/-- The lowest bit of a number is the sign of the rest. -/
def signed (n : Nat) : Int := if n % 2 = 1 then -(n / 2 : Nat) else (n / 2 : Nat)

/-- A number takes one character at least. -/
theorem length_decodeNat? {cs rest : List Char} {n : Nat} (h : decodeNat? cs = some (n, rest)) :
    rest.length < cs.length := by
  induction cs generalizing n with
  | nil => cases h
  | cons c cs ih =>
    simp only [decodeNat?, Option.bind_eq_bind, Option.bind_eq_some_iff] at h
    obtain ⟨d, -, h⟩ := h
    split at h
    · cases h
      exact Nat.lt_succ_self _
    · obtain ⟨⟨m, more⟩, hmore, h⟩ := Option.bind_eq_some_iff.1 h
      cases h
      exact Nat.lt_succ_of_lt (ih hmore)

/-- The numbers that a text is made of. -/
def numbers? (cs : List Char) : Option (List Int) :=
  match cs with
  | [] => some []
  | c :: cs =>
    match _hn : decodeNat? (c :: cs) with
    | none => none
    | some (n, rest) => (numbers? rest).map (signed n :: ·)
termination_by cs.length
decreasing_by exact length_decodeNat? _hn

theorem value?_digit {n : Nat} (h : n < 64) : value? (digit n) = some n := by
  have hall : ∀ n : Fin 64, value? (digit n) = some n.val := by decide
  exact hall ⟨n, h⟩

/-- No digit is a separator. -/
theorem digit_ne {n : Nat} (h : n < 64) : digit n ≠ ',' ∧ digit n ≠ ';' := by
  have hall : ∀ n : Fin 64, digit n ≠ ',' ∧ digit n ≠ ';' := by decide
  exact hall ⟨n, h⟩

theorem decodeNat?_encodeNat (n : Nat) (rest : List Char) :
    decodeNat? (encodeNat n ++ rest) = some (n, rest) := by
  induction n using Nat.strongRecOn with
  | ind n ih =>
    rw [encodeNat]
    split
    · next hlt =>
      simp [decodeNat?, value?_digit (by omega : n < 64), hlt]
    · next hge =>
      have hmore : ¬ n % 32 + 32 < 32 := by omega
      simp only [List.cons_append, decodeNat?, value?_digit (by omega : n % 32 + 32 < 64), ih (n / 32) (by omega),
        Option.bind_eq_bind, Option.bind_some, if_neg hmore, Option.some.injEq, Prod.mk.injEq, and_true]
      omega

theorem encodeNat_ne_nil (n : Nat) : encodeNat n ≠ [] := by
  rw [encodeNat]
  split <;> simp

theorem not_separator_of_mem_encodeNat {n : Nat} {c : Char} (h : c ∈ encodeNat n) : c ≠ ',' ∧ c ≠ ';' := by
  induction n using Nat.strongRecOn with
  | ind n ih =>
    rw [encodeNat] at h
    split at h
    · rw [List.mem_singleton.1 h]
      exact digit_ne (by omega)
    · rcases List.mem_cons.1 h with rfl | h
      · exact digit_ne (by omega)
      · exact ih _ (by omega) h

theorem signed_encoded (z : Int) : signed (if z < 0 then 2 * z.natAbs + 1 else 2 * z.natAbs) = z := by
  unfold signed
  split <;> split <;> omega

/-- Numbers written one after the other are read back. -/
theorem numbers?_flatMap_encode (zs : List Int) : numbers? (zs.flatMap encode) = some zs := by
  induction zs with
  | nil => rw [List.flatMap_nil, numbers?]
  | cons z zs ih =>
    have hdecode := decodeNat?_encodeNat (if z < 0 then 2 * z.natAbs + 1 else 2 * z.natAbs) (zs.flatMap encode)
    obtain ⟨c, cs, hcs⟩ := List.exists_cons_of_ne_nil
      (encodeNat_ne_nil (if z < 0 then 2 * z.natAbs + 1 else 2 * z.natAbs))
    rw [hcs, List.cons_append] at hdecode
    rw [List.flatMap_cons, encode, hcs, List.cons_append, numbers?]
    split
    · next hnone =>
      rw [hdecode] at hnone
      cases hnone
    · next n rest hsome =>
      rw [hdecode] at hsome
      cases hsome
      rw [ih, signed_encoded]
      rfl

end Vlq

/-! ### Segments -/

namespace MapFile

/-- A place in one of the sources, which are numbered. -/
structure SourcePlace where
  source : Int
  line : Int
  column : Int
  deriving Repr, DecidableEq

/-- A segment as it is read. One that stands for nothing in a source has a generated column only. -/
structure Entry where
  line : Nat
  column : Int
  origin : Option SourcePlace
  deriving Repr, DecidableEq

/-- What the numbers of the segments so far add up to. -/
structure Tally where
  column : Int
  origin : SourcePlace

/-- Adds the numbers of a segment: the generated column, then source, line and column there. A fifth
number is that of a name. -/
def Tally.add? (t : Tally) : List Int → Option (Tally × Option SourcePlace)
  | [column] => some (⟨t.column + column, t.origin⟩, none)
  | [column, source, line, sourceColumn] | [column, source, line, sourceColumn, _] =>
    let origin := ⟨t.origin.source + source, t.origin.line + line, t.origin.column + sourceColumn⟩
    some (⟨t.column + column, origin⟩, some origin)
  | _ => none

/-- The segments of a line. -/
def segments? (line : Nat) : Tally → List (List Char) → Option (List Entry × Tally)
  | t, [] => some ([], t)
  | t, text :: rest => do
    let (t, origin) ← t.add? (← Vlq.numbers? text)
    let (entries, last) ← segments? line t rest
    some (⟨line, t.column, origin⟩ :: entries, last)

/-- A line; an empty one has no segments. -/
def line? (line : Nat) (origin : SourcePlace) (text : List Char) : Option (List Entry × Tally) :=
  if text = [] then some ([], ⟨0, origin⟩) else segments? line ⟨0, origin⟩ (splitAtChar ',' text)

def lines? : Nat → SourcePlace → List (List Char) → Option (List Entry)
  | _, _, [] => some []
  | line, origin, text :: rest => do
    let (entries, last) ← line? line origin text
    let more ← lines? (line + 1) last.origin rest
    some (entries ++ more)

/-- The segments of the mappings of a file. -/
def entries? (mappings : String) : Option (List Entry) :=
  lines? 0 ⟨0, 0, 0⟩ (splitAtChar ';' mappings.toList)

/-- The segment is in the line of a generated place, at its column or in front of it. -/
def Entry.Precedes (e : Entry) (p : Place) : Prop := e.line = p.line ∧ e.column ≤ p.column

instance (e : Entry) (p : Place) : Decidable (e.Precedes p) :=
  inferInstanceAs (Decidable (e.line = p.line ∧ e.column ≤ p.column))

/-- The segment that a generated place belongs to. -/
def entryAt? (entries : List Entry) (p : Place) : Option Entry :=
  (entries.filter fun e => e.Precedes p).getLast?

/-! ### Reading what was written -/

def SourcePlace.ofPlace (p : Place) : SourcePlace := ⟨0, p.line, p.column⟩

/-- A segment, all of which stand for the only source. -/
def Entry.ofSegment (s : Segment) : Entry :=
  ⟨s.generated.line, s.generated.column, some (.ofPlace s.source)⟩

/-- The numbers of a segment written behind others. -/
def steps (column : Nat) (source : Place) (s : Segment) : List Int :=
  [s.generated.column - column, 0, s.source.line - source.line, s.source.column - source.column]

/-- The text of a segment written behind others. -/
def segmentText (column : Nat) (source : Place) (s : Segment) : List Char :=
  (steps column source s).flatMap Vlq.encode

theorem not_separator_of_mem_segmentText {column : Nat} {source : Place} {s : Segment} {c : Char}
    (h : c ∈ segmentText column source s) : c ≠ ',' ∧ c ≠ ';' := by
  obtain ⟨z, -, hc⟩ := List.mem_flatMap.1 h
  exact Vlq.not_separator_of_mem_encodeNat hc

theorem segmentText_ne_nil (column : Nat) (source : Place) (s : Segment) : segmentText column source s ≠ [] := by
  intro h
  have hencode := List.flatMap_eq_nil_iff.1 h 0 (by simp [steps])
  exact Vlq.encodeNat_ne_nil _ hencode

theorem segments?_append (line : Nat) (t : Tally) (texts more : List (List Char)) :
    segments? line t (texts ++ more) = (segments? line t texts).bind fun first =>
      (segments? line first.2 more).map fun second => (first.1 ++ second.1, second.2) := by
  induction texts generalizing t with
  | nil =>
    cases h : segments? line t more <;> simp [segments?, h]
  | cons text texts ih =>
    simp only [List.cons_append, segments?, Option.bind_eq_bind]
    cases Vlq.numbers? text with
    | none => rfl
    | some zs =>
      simp only [Option.bind_some]
      cases t.add? zs with
      | none => rfl
      | some next =>
        obtain ⟨t', origin⟩ := next
        simp only [Option.bind_some, ih]
        cases segments? line t' texts with
        | none => rfl
        | some first =>
          simp only [Option.bind_some]
          cases segments? line first.2 more <;> rfl

/-- One segment brings the tally to its own numbers. -/
theorem segments?_segmentText (line column : Nat) (source : Place) (s : Segment) :
    segments? line ⟨column, .ofPlace source⟩ [segmentText column source s] =
      some ([⟨line, s.generated.column, some (.ofPlace s.source)⟩], ⟨s.generated.column, .ofPlace s.source⟩) := by
  have hnumbers : Vlq.numbers? (segmentText column source s) = some (steps column source s) :=
    Vlq.numbers?_flatMap_encode _
  have hback (a b : Nat) : (a : Int) + (b - a) = b := by omega
  simp [segments?, hnumbers, steps, Tally.add?, SourcePlace.ofPlace, hback]

/-- A line with one more segment. -/
theorem line?_append {line column : Nat} {origin : SourcePlace} {source : Place} {done : List Char}
    {entries : List Entry} (s : Segment)
    (h : line? line origin done = some (entries, ⟨column, .ofPlace source⟩)) :
    line? line origin (done ++ ((if done = [] then [] else [',']) ++ segmentText column source s)) =
      some (entries ++ [⟨line, s.generated.column, some (.ofPlace s.source)⟩],
        ⟨s.generated.column, .ofPlace s.source⟩) := by
  have hcomma : ',' ∉ segmentText column source s := fun hmem => (not_separator_of_mem_segmentText hmem).1 rfl
  have hone := segments?_segmentText line column source s
  unfold line? at h ⊢
  rw [if_neg (by simp [segmentText_ne_nil])]
  by_cases hdone : done = []
  · rw [if_pos hdone] at h
    obtain ⟨rfl, ht⟩ := Prod.mk.inj (Option.some.inj h)
    rw [hdone, if_pos rfl, List.nil_append, List.nil_append, splitAtChar_of_not_mem hcomma, ht, hone]
    rfl
  · rw [if_neg hdone] at h
    rw [if_neg hdone, List.singleton_append, splitAtChar_append_cons, splitAtChar_of_not_mem hcomma,
      segments?_append, h, Option.bind_some, hone]
    rfl

theorem lines?_replicate_append (line n : Nat) (origin : SourcePlace) (texts : List (List Char)) :
    lines? line origin (List.replicate n [] ++ texts) = lines? (line + n) origin texts := by
  induction n generalizing line with
  | zero => rfl
  | succ n ih =>
    rw [List.replicate_succ, List.cons_append, lines?, line?, if_pos rfl]
    simp only [Option.bind_eq_bind, Option.bind_some, List.nil_append, ih, Nat.add_right_comm line 1 n]
    cases lines? (line + n + 1) origin texts <;> rfl

end MapFile

namespace Segment

/-- The pen in the given line, if it is not there or behind it. -/
def Pen.advance (pen : Pen) (line : Nat) : Pen :=
  if pen.line < line then ⟨line, false, 0, pen.source⟩ else pen

/-- The line ends, the comma and the numbers of a segment. -/
def Pen.text (pen : Pen) (s : Segment) : List Char :=
  List.replicate (s.generated.line - pen.line) ';'
    ++ (if (pen.advance s.generated.line).started then [','] else [])
    ++ MapFile.segmentText (pen.advance s.generated.line).column (pen.advance s.generated.line).source s

def Pen.next (pen : Pen) (s : Segment) : Pen :=
  ⟨(pen.advance s.generated.line).line, true, s.generated.column, s.source⟩

/-- Segments are written one by one. -/
theorem encodeFrom_cons (pen : Pen) (s : Segment) (rest : List Segment) :
    encodeFrom pen (s :: rest) = pen.text s ++ encodeFrom (pen.next s) rest := by
  rw [encodeFrom, Pen.text, Pen.next, Pen.advance]
  by_cases h : pen.line < s.generated.line
  · have hne : s.generated.line - pen.line ≠ 0 := by omega
    have hsum : pen.line + (s.generated.line - pen.line) = s.generated.line := by omega
    simp [if_pos h, if_neg hne, hsum, MapFile.segmentText, MapFile.steps, difference]
  · have hzero : s.generated.line - pen.line = 0 := by omega
    simp [if_neg h, hzero, MapFile.segmentText, MapFile.steps, difference]

end Segment

namespace MapFile

/-- Behind a line that has been read up to the pen, the segments to come are read back. -/
theorem lines?_encodeFrom {pen : Segment.Pen} {segments : List Segment} {origin : SourcePlace}
    {done : List Char} {entries : List Entry} (hfirst : ∀ s ∈ segments, pen.line ≤ s.generated.line)
    (hlines : segments.Pairwise (·.generated.line ≤ ·.generated.line)) (hstarted : pen.started = !done.isEmpty)
    (hdone : ';' ∉ done)
    (hline : line? pen.line origin done = some (entries, ⟨pen.column, .ofPlace pen.source⟩)) :
    lines? pen.line origin (splitAtChar ';' (done ++ Segment.encodeFrom pen segments)) =
      some (entries ++ segments.map Entry.ofSegment) := by
  induction segments generalizing pen origin done entries with
  | nil =>
    rw [Segment.encodeFrom, List.append_nil, splitAtChar_of_not_mem hdone, lines?, hline]
    simp [lines?]
  | cons s segments ih =>
    obtain ⟨hnext, hlines⟩ := List.pairwise_cons.1 hlines
    have hle := hfirst s (List.mem_cons_self ..)
    have hentry : (⟨s.generated.line, s.generated.column, some (.ofPlace s.source)⟩ : Entry) = .ofSegment s := rfl
    have hsemicolon : ∀ column source, ';' ∉ segmentText column source s := fun column source hmem =>
      (not_separator_of_mem_segmentText hmem).2 rfl
    rw [Segment.encodeFrom_cons, Segment.Pen.text, Segment.Pen.next]
    by_cases hsame : s.generated.line = pen.line
    · -- the segment goes on in the line
      have hadvance : pen.advance s.generated.line = pen := if_neg (by omega)
      have hcomma : (if pen.started then [','] else []) = if done = [] then [] else [','] := by
        cases done <;> simp [hstarted]
      rw [hadvance, hsame, Nat.sub_self, List.replicate_zero, List.nil_append, hcomma, ← List.append_assoc, ← hsame]
      rw [← hsame] at hline
      refine (@ih ⟨s.generated.line, true, s.generated.column, s.source⟩ _ _ _ hnext hlines ?_ ?_
        (line?_append s hline)).trans ?_
      · simp [segmentText_ne_nil]
      · have hplain := hsemicolon pen.column pen.source
        cases done <;> simp_all
      · rw [hentry, List.map_cons, List.append_assoc, List.singleton_append]
    · -- the line ends here, and more of them up to that of the segment
      have hadvance : pen.advance s.generated.line = ⟨s.generated.line, false, 0, pen.source⟩ := if_pos (by omega)
      obtain ⟨n, hn⟩ : ∃ n, s.generated.line - pen.line = n + 1 := ⟨s.generated.line - pen.line - 1, by omega⟩
      have hempty : line? s.generated.line (.ofPlace pen.source) [] = some ([], ⟨(0 : Nat), .ofPlace pen.source⟩) :=
        if_pos rfl
      have hrest := @ih ⟨s.generated.line, true, s.generated.column, s.source⟩ _ (segmentText 0 pen.source s) _
        hnext hlines (by simp [segmentText_ne_nil]) (hsemicolon 0 pen.source) (line?_append s hempty)
      have hcount : pen.line + 1 + n = s.generated.line := by omega
      have htext : done ++ (List.replicate (n + 1) ';' ++ (if false = true then [','] else [])
          ++ segmentText 0 pen.source s
          ++ Segment.encodeFrom ⟨s.generated.line, true, s.generated.column, s.source⟩ segments) =
          done ++ ';' :: (List.replicate n ';' ++ (segmentText 0 pen.source s
            ++ Segment.encodeFrom ⟨s.generated.line, true, s.generated.column, s.source⟩ segments)) := by
        simp [List.replicate_succ]
      rw [hadvance, hn, htext, splitAtChar_append_cons, splitAtChar_of_not_mem hdone, List.singleton_append, lines?,
        hline, splitAtChar_replicate_append]
      simp only [Option.bind_eq_bind, Option.bind_some]
      rw [lines?_replicate_append, hcount, hrest, hentry]
      rfl

/-- Segments whose lines never decrease are read back, all of them in the only source. -/
theorem entries?_encode {segments : List Segment}
    (h : segments.Pairwise (·.generated.line ≤ ·.generated.line)) :
    entries? (Segment.encode segments) = some (segments.map Entry.ofSegment) := by
  have hread := @lines?_encodeFrom .origin segments ⟨0, 0, 0⟩ [] [] (fun s _ => Nat.zero_le _) h rfl (by simp) (if_pos rfl)
  rw [entries?, Segment.encode, String.toList_ofList]
  exact hread

end MapFile

end Restyle
