import Restyle.Proofs.Offsets.Spots

/-! The closing brace by byte offsets. The scan jumps over strings, comments, regular expressions and
escaped characters, and may come to stand inside a character after a backslash; the automaton of embedded
expressions takes one character after the other. Both find the same brace. -/

namespace Restyle.Markup

open Text

/-! ### The scan -/

namespace Offsets

open Embedded (Nest startsRegex)

variable (cs : List Char)

/-- The bytes from an index on. -/
def bytesFrom (start : Nat) : Checked (List UInt8) :=
  if start ≤ width cs then .ok ((bytes cs).drop start) else .error .slice

/-- From an index in a string: the index behind its closing quote. -/
def stringEnd (quote : UInt8) (i : Nat) : Checked (Option Nat) :=
  if _h : i < width cs then do
    let b ← byteAt cs i
    if b = byte '\\' then stringEnd quote (i + 2)
    else if b = quote then return some (i + 1)
    else stringEnd quote (i + 1)
  else return none
termination_by width cs - i

/-- The index behind the string that begins with the quote at an index. -/
def skipString (start : Nat) : Checked (Option Nat) := do stringEnd cs (← byteAt cs start) (start + 1)

/-- From an index in a regular expression: the index behind it and its flags. One that is not closed ends
with its line. -/
def regexEnd (inClass : Bool) (i : Nat) : Checked Nat :=
  if _h : i < width cs then do
    let b ← byteAt cs i
    if b = byte '\\' then regexEnd inClass (i + 2)
    else if b = byte '[' then regexEnd true (i + 1)
    else if b = byte ']' then regexEnd false (i + 1)
    else if b = byte '/' ∧ inClass = false then
      return i + 1 + scan (fun b _ => !onByte Char.isAlpha b) ((bytes cs).drop (i + 1))
    else if b = byte '\n' then return i
    else regexEnd inClass (i + 1)
  else return width cs
termination_by width cs - i

/-- What is done at an index of an expression. -/
inductive Move where
  /-- The closing brace stands here. -/
  | found
  /-- What begins here does not end. -/
  | unclosed
  /-- Reading goes on at another index, with what is open there and the last significant byte. -/
  | on (nests : List Nest) (last : UInt8) (i : Nat)

/-- At a byte of the text of a template. -/
def moveTemplate (nests : List Nest) (last : UInt8) (i : Nat) (b : UInt8) : Move :=
  if b = byte '\\' then .on nests last (i + 2)
  else if b = byte '`' then .on nests.tail (byte '`') (i + 1)
  else if b = byte '$' ∧ peek cs (i + 1) = some (byte '\x7b') then
    .on (.substitution :: nests) (byte '\x7b') (i + 2)
  else .on nests last (i + 1)

/-- At a closing brace of the code. -/
def moveBrace (nests : List Nest) (last : UInt8) (i : Nat) : Move :=
  match nests with
  | [] => .found
  | .substitution :: nests => .on nests last (i + 1)
  | _ :: nests => .on nests (byte '\x7d') (i + 1)

/-- At a byte of the code. -/
def moveCode (nests : List Nest) (last : UInt8) (i : Nat) (b : UInt8) : Checked Move :=
  if b = byte '\'' ∨ b = byte '"' then do
    match ← skipString cs i with
    | none => return .unclosed
    | some i' => return .on nests b i'
  else if b = byte '`' then .ok (.on (.template :: nests) b (i + 1))
  else if b = byte '/' ∧ peek cs (i + 1) = some (byte '/') then do
    return .on nests last (i + scan (fun b _ => b == byte '\n') (← bytesFrom cs i))
  else if b = byte '/' ∧ peek cs (i + 1) = some (byte '*') then do
    match find? ['*', '/'] (← after cs (i + 2)) with
    | none => return .unclosed
    | some n => return .on nests last (i + 2 + n + 2)
  else if b = byte '/' ∧ onByte startsRegex last = true then do
    return .on nests (byte 'a') (← regexEnd cs false (i + 1))
  else if b = byte '\x7b' then .ok (.on (.brace :: nests) b (i + 1))
  else if b = byte '(' then .ok (.on (.paren :: nests) b (i + 1))
  else if b = byte '[' then .ok (.on (.bracket :: nests) b (i + 1))
  else if b = byte '\x7d' then .ok (moveBrace nests last i)
  else if b = byte ')' ∨ b = byte ']' then .ok (.on nests.tail b (i + 1))
  else .ok (.on nests (if onByte isBlank b then last else b) (i + 1))

def move (nests : List Nest) (last : UInt8) (i : Nat) : Checked Move := do
  let b ← byteAt cs i
  if nests.head? = some .template then return moveTemplate cs nests last i b
  else moveCode cs nests last i b

/-- The index of the brace that closes an expression, from an index in it on, with what is open there and
the last significant byte. -/
def closing (nests : List Nest) (last : UInt8) (i : Nat) : Checked (Option Nat) :=
  if _h : i < width cs then do
    match ← move cs nests last i with
    | .found => return some i
    | .unclosed => return none
    | .on nests last i' => if _hi : i < i' then closing nests last i' else throw .stuck
  else return none
termination_by width cs - i

/-- The offset of the brace that closes the expression at an offset. -/
def findClosingBrace (start : Nat) : Checked (Option Nat) := closing cs [] (byte '(') start

/-- An expression after its opening brace, and past the brace that closes it. -/
def Spot.braced (s : Spot) : Checked (Option Expression × Spot) := do
  match ← findClosingBrace cs s.offset with
  | some stop => return (some (← expression cs s.offset stop), ← s.moveTo cs (stop + 1))
  | none =>
    let s' ← s.moveTo cs (width cs)
    return (none, s'.fault .unclosedExpression ⟨s.offset - 1, width cs⟩)

end Offsets

/-! ### The automaton -/

namespace Embedded.Scanner

variable {s s' s'' : Scanner} {c : Char} {read more rest : List Char}

/-- The automaton gets from one state to another by reading a text in front of a rest. -/
def Leads (s s' : Scanner) (read rest : List Char) : Prop :=
  s.split? (read ++ rest) = (s'.split? rest).map fun x => (read ++ x.1, x.2)

theorem Leads.refl (s : Scanner) (rest : List Char) : s.Leads s [] rest := by
  simp [Leads]

theorem Leads.trans (h : s.Leads s' read (more ++ rest)) (h' : s'.Leads s'' more rest) :
    s.Leads s'' (read ++ more) rest := by
  rw [Leads, List.append_assoc, h, h', Option.map_map]
  simp [Function.comp_def]

theorem leads_step (h : s.step c rest.head? = some s') : s.Leads s' [c] rest := by
  rw [Leads, List.singleton_append, split?, h]
  rfl

theorem Leads.cons (h : s.step c (read ++ rest).head? = some s') (h' : s'.Leads s'' read rest) :
    s.Leads s'' (c :: read) rest := (leads_step h).trans h'

end Embedded.Scanner

/-! ### Single characters -/

namespace Offsets

open Embedded Cursor

variable {cs rest : List Char} {i j : Nat} {b : UInt8} {c d q : Char}

/-- A text is what is left at an offset. -/
abbrev At (cs : List Char) (i : Nat) (rest : List Char) : Prop := (⟨i, rest, []⟩ : Cursor).On cs

theorem At.read (read : List Char) (h : At cs i (read ++ rest)) : At cs (i + width read) rest :=
  h.reaches (reaches_moved rfl)

theorem At.char (h : At cs i (c :: rest)) : At cs (i + c.utf8Size) rest := by
  simpa using At.read [c] h

theorem At.eq_width (h : At cs i []) : i = width cs := by
  obtain ⟨before, rfl, hoffset⟩ := h
  simpa using hoffset

theorem lt_of_peek (h : peek cs i = some b) : i < width cs := by
  rw [← length_bytes]
  exact (List.getElem?_eq_some_iff.1 h).1

theorem byteAt_of_peek (h : peek cs i = some b) : byteAt cs i = .ok b := by
  rw [byteAt, h]
  rfl

/-- What passes over bytes with the high bit passes over the rest of a character. -/
theorem exists_of_high {α β : Type} {P : α → Prop} {F : α → Nat → β}
    (hF : ∀ a j b, P a → peek cs j = some b → 128 ≤ b.toNat → ∃ a', P a' ∧ F a j = F a' (j + 1))
    (h : At cs i (c :: rest)) {a : α} (ha : P a) : ∃ a', P a' ∧ F a (i + 1) = F a' (i + c.utf8Size) := by
  by_cases hc : c.utf8Size = 1
  · exact ⟨a, ha, by rw [hc]⟩
  · obtain ⟨b, bs, hbytes, hsize, -, hhigh⟩ := exists_bytes_cons hc rest
    have hstep : ∀ k, k ≤ bs.length → ∃ a', P a' ∧ F a (i + 1) = F a' (i + 1 + k) := by
      intro k hk
      induction k with
      | zero => exact ⟨a, ha, rfl⟩
      | succ k ih =>
        have hpeek : peek cs (i + 1 + k) = some bs[k] := by
          rw [Nat.add_assoc, h.peek_add, hbytes, Nat.add_comm 1, List.getElem?_cons_succ,
            List.getElem?_append_left hk, List.getElem?_eq_getElem]
        obtain ⟨a', ha', heq⟩ := ih (Nat.le_of_succ_le hk)
        obtain ⟨a'', ha'', heq'⟩ := hF a' _ _ ha' hpeek (hhigh _ (List.getElem_mem _))
        exact ⟨a'', ha'', heq.trans heq'⟩
    obtain ⟨a', ha', heq⟩ := hstep bs.length (Nat.le_refl _)
    refine ⟨a', ha', heq.trans (congrArg _ ?_)⟩
    omega

theorem eq_of_high {β : Type} {F : Nat → β}
    (hF : ∀ j b, peek cs j = some b → 128 ≤ b.toNat → F j = F (j + 1)) (h : At cs i (c :: rest)) :
    F (i + 1) = F (i + c.utf8Size) := by
  obtain ⟨_, -, heq⟩ := exists_of_high (P := fun _ : Unit => True) (F := fun _ => F)
    (fun a j b _ hb hhigh => ⟨a, trivial, hF j b hb hhigh⟩) h (a := ()) trivial
  exact heq

/-! ### Strings -/

theorem stringEnd_of_peek (h : peek cs i = some b) (quote : UInt8) : stringEnd cs quote i =
    if b = byte '\\' then stringEnd cs quote (i + 2)
    else if b = quote then .ok (some (i + 1))
    else stringEnd cs quote (i + 1) := by
  rw [stringEnd, dif_pos (lt_of_peek h), byteAt_of_peek h]
  rfl

theorem stringEnd_of_end (h : width cs ≤ i) (quote : UInt8) : stringEnd cs quote i = .ok none := by
  rw [stringEnd, dif_neg (Nat.not_lt.2 h)]
  rfl

/-- The rest of a character in a string is passed over. -/
theorem stringEnd_char (hq : q.utf8Size = 1) (h : At cs i (c :: rest)) :
    stringEnd cs (byte q) (i + 1) = stringEnd cs (byte q) (i + c.utf8Size) := by
  refine eq_of_high (F := stringEnd cs (byte q)) (fun j b hb hhigh => ?_) h
  rw [stringEnd_of_peek hb, if_neg (ne_byte_of_high (by decide) hhigh), if_neg (ne_byte_of_high hq hhigh)]

/-- Where a part of an expression ends, and that the automaton is through with it there. -/
inductive Closes (rest : List Char) (i : Nat) (s s' : Scanner) : Checked (Option Nat) → Prop where
  | closed {read rest' : List Char} (hrest : rest = read ++ rest') (hleads : s.Leads s' read rest') :
    Closes rest i s s' (.ok (some (i + width read)))
  | unclosed (hnone : s.split? rest = none) : Closes rest i s s' (.ok none)

variable {s s' s₀ : Scanner} {read : List Char} {result : Checked (Option Nat)}

theorem Closes.leads (hleads : s₀.Leads s read rest) (h : Closes rest (i + width read) s s' result) :
    Closes (read ++ rest) i s₀ s' result := by
  cases h with
  | @closed more rest' hrest hmore =>
    subst hrest
    rw [Nat.add_assoc, ← width_append]
    exact .closed (by simp) (hleads.trans hmore)
  | unclosed hnone => exact .unclosed (by rw [hleads, hnone]; rfl)

theorem Closes.step (hstep : s₀.step c rest.head? = some s) (h : Closes rest (i + c.utf8Size) s s' result) :
    Closes (c :: rest) i s₀ s' result :=
  Closes.leads (Scanner.leads_step hstep) (by simpa using h)

theorem exists_peek (h : At cs i (c :: rest)) : ∃ b, peek cs i = some b ∧
    (∀ d, d.utf8Size = 1 → (b = byte d ↔ c = d)) ∧
    ∀ p, (p c = true → c.utf8Size = 1) → onByte p b = p c := by
  obtain ⟨b, hb, hbytes⟩ := exists_head_bytes c rest
  exact ⟨b, h.peek.trans hb, hbytes⟩

theorem closes_stringEnd (hq : q.utf8Size = 1) (hslash : q ≠ '\\') (h : At cs i rest)
    (hmode : s.mode = .quoted q) (hplain : s.escaped = false) :
    Closes rest i s { s with mode := .plain } (stringEnd cs (byte q) i) := by
  induction hn : rest.length using Nat.strongRecOn generalizing i rest with
  | ind n ih =>
  cases rest with
  | nil =>
    rw [stringEnd_of_end (Nat.le_of_eq h.eq_width.symm)]
    exact .unclosed rfl
  | cons c rest =>
    obtain ⟨b, hb, hbyte, -⟩ := exists_peek h
    have hrest : At cs (i + c.utf8Size) rest := h.char
    rw [stringEnd_of_peek hb]
    by_cases hc : c = '\\'
    · -- A backslash and the character after it are passed over together.
      subst hc
      have hescape : s.step '\\' rest.head? = some { s with escaped := true } := by
        simp [Scanner.step, hplain, hmode]
      rw [if_pos ((hbyte _ (by decide)).2 rfl)]
      refine Closes.step hescape ?_
      cases rest with
      | nil =>
        rw [stringEnd_of_end (by rw [← hrest.eq_width]; exact Nat.add_le_add_left (by decide) i)]
        exact .unclosed rfl
      | cons d rest =>
        have hskip : { s with escaped := true }.step d rest.head? = some s := by
          obtain ⟨mode, escaped, dollar, nests, last⟩ := s
          cases hplain
          rfl
        have hchar := stringEnd_char hq hrest
        rw [show i + 2 = i + '\\'.utf8Size + 1 from rfl, hchar]
        exact Closes.step hskip (ih _ (by simp only [List.length_cons] at hn; omega) hrest.char rfl)
    rw [if_neg (mt (hbyte _ (by decide)).1 hc)]
    by_cases hclose : c = q
    · subst hclose
      have hstep : s.step c rest.head? = some { s with mode := .plain } := by
        simp [Scanner.step, hplain, hmode, hc]
      rw [if_pos ((hbyte _ hq).2 rfl)]
      have hone : i + 1 = i + width [c] := by simp [hq]
      rw [hone]
      exact .closed rfl (Scanner.leads_step hstep)
    · have hstep : s.step c rest.head? = some s := by
        simp [Scanner.step, hplain, hmode, hc, hclose]
      rw [if_neg (mt (hbyte _ hq).1 hclose), stringEnd_char hq h]
      exact Closes.step hstep (ih _ (by simp only [List.length_cons] at hn; omega) hrest rfl)

/-! ### Regular expressions -/

theorem regexEnd_of_peek (h : peek cs i = some b) (inClass : Bool) : regexEnd cs inClass i =
    if b = byte '\\' then regexEnd cs inClass (i + 2)
    else if b = byte '[' then regexEnd cs true (i + 1)
    else if b = byte ']' then regexEnd cs false (i + 1)
    else if b = byte '/' ∧ inClass = false then
      .ok (i + 1 + scan (fun b _ => !onByte Char.isAlpha b) ((bytes cs).drop (i + 1)))
    else if b = byte '\n' then .ok i
    else regexEnd cs inClass (i + 1) := by
  rw [regexEnd, dif_pos (lt_of_peek h), byteAt_of_peek h]
  rfl

theorem regexEnd_of_end (h : width cs ≤ i) (inClass : Bool) : regexEnd cs inClass i = .ok (width cs) := by
  rw [regexEnd, dif_neg (Nat.not_lt.2 h)]
  rfl

theorem regexEnd_char (inClass : Bool) (h : At cs i (c :: rest)) :
    regexEnd cs inClass (i + 1) = regexEnd cs inClass (i + c.utf8Size) := by
  refine eq_of_high (F := regexEnd cs inClass) (fun j b hb hhigh => ?_) h
  have hne : ∀ d : Char, d.utf8Size = 1 → b ≠ byte d := fun d hd => ne_byte_of_high hd hhigh
  rw [regexEnd_of_peek hb, if_neg (hne _ (by decide)), if_neg (hne _ (by decide)), if_neg (hne _ (by decide)),
    if_neg fun hslash => hne _ (by decide) hslash.1, if_neg (hne _ (by decide))]

/-! ### The code -/

/-- A character of the code that neither opens nor closes anything. -/
def Ordinary (c : Char) : Prop := c ∉ ['\'', '"', '`', '/', '\x7b', '(', '[', ')', ']', '\x7d']

instance : DecidablePred Ordinary := fun _ => inferInstanceAs (Decidable (_ ∉ _))

/-- The state in the code, or in the text of a template. -/
def plain (nests : List Nest) (last : Char) : Scanner := { nests, last }

variable {nests : List Nest} {last : Char} {next : Option Char}

theorem step_ordinary (last : Char) (next : Option Char) (h : Ordinary c) (hcode : nests.head? ≠ some .template) :
    (plain nests last).step c next = some (plain nests (if isBlank c then last else c)) := by
  simp only [Ordinary, List.mem_cons, List.not_mem_nil, or_false, not_or] at h
  obtain ⟨hsingle, hdouble, htemplate, hslash, hbrace, hparen, hbracket, hparen', hbracket', hbrace'⟩ := h
  have hcode' : (plain nests last).nests.head? ≠ some .template := hcode
  simp only [Scanner.step, plain, if_neg hcode, if_neg hbrace']
  simp [Scanner.stepCode, hsingle, hdouble, htemplate, hslash, hbrace, hparen, hbracket, hparen', hbracket',
    Scanner.seen]
  split <;> rfl

theorem ordinary_of_isAlpha (h : c.isAlpha = true) : Ordinary c := by
  intro hmem
  simp only [List.mem_cons, List.not_mem_nil, or_false] at hmem
  rcases hmem with rfl | rfl | rfl | rfl | rfl | rfl | rfl | rfl | rfl | rfl <;> revert h <;> decide

theorem startsRegex_of_isAlpha (h : c.isAlpha = true) : startsRegex c = false := by
  rw [startsRegex, List.contains_eq_mem, decide_eq_false_iff_not]
  intro hmem
  have hall : ("=!+-*%<>&|^~?:([\x7b,;".toList.all fun d => !d.isAlpha) = true := by decide +kernel
  simpa [h] using List.all_eq_true.1 hall c hmem

theorem isBlank_eq_false_of_isAlpha (h : c.isAlpha = true) : isBlank c = false := by
  refine eq_false_of_ne_true fun hb => ?_
  simp only [isBlank, Bool.or_eq_true, beq_iff_eq] at hb
  rcases hb with (((rfl | rfl) | rfl) | rfl) | rfl <;> revert h <;> decide

/-- Significant characters that neither open nor close anything are read as code. -/
theorem leads_ordinary (hcode : nests.head? ≠ some .template) {text : List Char}
    (h : ∀ c ∈ text, Ordinary c ∧ isBlank c = false) (rest : List Char) :
    (plain nests last).Leads (plain nests (text.getLastD last)) text rest := by
  induction text generalizing last with
  | nil => exact .refl _ _
  | cons c text ih =>
    obtain ⟨⟨hc, hblank⟩, htext⟩ := List.forall_mem_cons.1 h
    have hstep := step_ordinary last (text ++ rest).head? hc hcode
    rw [hblank] at hstep
    rw [List.getLastD_cons]
    exact (ih htext).cons hstep

/-- Letters are read as code, as the flags of a regular expression are. -/
theorem leads_letters (hcode : nests.head? ≠ some .template) {letters : List Char}
    (hletters : ∀ c ∈ letters, c.isAlpha = true) (rest : List Char) :
    (plain nests last).Leads (plain nests (letters.getLastD last)) letters rest :=
  leads_ordinary hcode (fun c hc => ⟨ordinary_of_isAlpha (hletters c hc), isBlank_eq_false_of_isAlpha (hletters c hc)⟩) rest

/-- No expression begins behind letters. -/
theorem startsRegex_getLastD {letters : List Char} (hletters : ∀ c ∈ letters, c.isAlpha = true)
    (hlast : startsRegex last = false) : startsRegex (letters.getLastD last) = false := by
  rcases List.mem_cons.1 (List.getLastD_mem_cons (l := letters) (a := last)) with h | h
  · rwa [h]
  · exact startsRegex_of_isAlpha (hletters _ h)

/-- A line feed after which the automaton is in the code may as well be read there. -/
theorem leads_newline {s : Scanner} (hcode : nests.head? ≠ some .template)
    (hstep : s.step '\n' rest.head? = some (plain nests last)) : s.Leads (plain nests last) [] ('\n' :: rest) := by
  have hline : Ordinary '\n' := by simp [Ordinary]
  have hread : s.split? ('\n' :: rest) = (plain nests last).split? ('\n' :: rest) := by
    rw [Scanner.split?, Scanner.split?, hstep, step_ordinary last rest.head? hline hcode]
    rfl
  simp [Scanner.Leads, hread]

/-- Where a regular expression ends, with its flags, and that the automaton is in the code there. -/
inductive RegexCloses (cs rest : List Char) (i : Nat) (s : Scanner) (nests : List Nest) : Checked Nat → Prop where
  | closed (read : List Char) {rest' : List Char} {last : Char} (hrest : rest = read ++ rest')
    (hlast : startsRegex last = false) (hleads : s.Leads (plain nests last) read rest') :
    RegexCloses cs rest i s nests (.ok (i + width read))
  | unclosed (hnone : s.split? rest = none) : RegexCloses cs rest i s nests (.ok (width cs))

theorem RegexCloses.step {result : Checked Nat} (hstep : s₀.step c rest.head? = some s)
    (h : RegexCloses cs rest (i + c.utf8Size) s nests result) : RegexCloses cs (c :: rest) i s₀ nests result := by
  cases h with
  | @closed read rest' last hrest hlast hleads =>
    subst hrest
    have hwidth : i + c.utf8Size + width read = i + width (c :: read) := by simp [Nat.add_assoc]
    rw [hwidth]
    exact .closed _ rfl hlast (hleads.cons hstep)
  | unclosed hnone => exact .unclosed (by simp [Scanner.split?, hstep, hnone])

/-- The slash that ends a regular expression, with the letters behind it. -/
theorem closes_slash (hcode : nests.head? ≠ some .template) (h : At cs i ('/' :: rest)) :
    RegexCloses cs ('/' :: rest) i { mode := .regex false, nests, last := '/' } nests
      (.ok (i + 1 + scan (fun b _ => !onByte Char.isAlpha b) ((bytes cs).drop (i + 1)))) := by
  have hrest : At cs (i + '/'.utf8Size) rest := h.char
  have hflags : scan (fun b _ => !onByte Char.isAlpha b) ((bytes cs).drop (i + 1))
      = width (rest.takeWhile Char.isAlpha) := by
    rw [← scan_while fun _ => size_of_isAlpha, ← hrest.drop_bytes]
    rfl
  have hletters : ∀ c ∈ rest.takeWhile Char.isAlpha, c.isAlpha = true := fun c => List.mem_takeWhile_imp
  have hdivides : startsRegex '/' = false := by decide +kernel
  have hleads : (plain nests '/').Leads _ _ _ := leads_letters hcode hletters (rest.dropWhile Char.isAlpha)
  have hwidth : i + 1 + width (rest.takeWhile Char.isAlpha) = i + width ('/' :: rest.takeWhile Char.isAlpha) := by
    rw [width_cons, ← Nat.add_assoc]
    rfl
  rw [hflags, hwidth]
  exact .closed _ (by rw [List.cons_append, List.takeWhile_append_dropWhile])
    (startsRegex_getLastD hletters hdivides) (hleads.cons rfl)

/-- A line feed ends a regular expression that is not closed: it is not part of it, but the automaton reads it either
way. -/
theorem closes_newline {inClass : Bool} (hcode : nests.head? ≠ some .template) :
    RegexCloses cs ('\n' :: rest) i { mode := .regex inClass, nests, last := '/' } nests (.ok i) := by
  have hdivides : startsRegex '/' = false := by decide +kernel
  exact .closed [] rfl hdivides (leads_newline hcode rfl)

theorem closes_regexEnd (hcode : nests.head? ≠ some .template) (h : At cs i rest) (inClass : Bool) :
    RegexCloses cs rest i { mode := .regex inClass, nests, last := '/' } nests (regexEnd cs inClass i) := by
  induction hn : rest.length using Nat.strongRecOn generalizing i rest inClass with
  | ind n ih =>
  cases rest with
  | nil =>
    rw [regexEnd_of_end (Nat.le_of_eq h.eq_width.symm)]
    exact .unclosed rfl
  | cons c rest =>
    obtain ⟨b, hb, hbyte, -⟩ := exists_peek h
    have hrest : At cs (i + c.utf8Size) rest := h.char
    have hshorter : rest.length < n := by rw [← hn]; exact Nat.lt_succ_self _
    rw [regexEnd_of_peek hb]
    by_cases hc : c = '\\'
    · subst hc
      rw [if_pos ((hbyte _ (by decide)).2 rfl)]
      refine RegexCloses.step (s := { mode := .regex inClass, escaped := true, nests, last := '/' }) rfl ?_
      cases rest with
      | nil =>
        rw [regexEnd_of_end (by rw [← hrest.eq_width]; exact Nat.add_le_add_left (by decide) i)]
        exact .unclosed rfl
      | cons d rest =>
        have hchar := regexEnd_char inClass hrest
        rw [show i + 2 = i + '\\'.utf8Size + 1 from rfl, hchar]
        exact RegexCloses.step rfl (ih _ (by simp only [List.length_cons] at hn; omega) hrest.char inClass rfl)
    rw [if_neg (mt (hbyte _ (by decide)).1 hc)]
    by_cases hopen : c = '['
    · subst hopen
      rw [if_pos ((hbyte _ (by decide)).2 rfl)]
      exact RegexCloses.step rfl (ih _ hshorter hrest true rfl)
    rw [if_neg (mt (hbyte _ (by decide)).1 hopen)]
    by_cases hclose : c = ']'
    · subst hclose
      rw [if_pos ((hbyte _ (by decide)).2 rfl)]
      exact RegexCloses.step rfl (ih _ hshorter hrest false rfl)
    rw [if_neg (mt (hbyte _ (by decide)).1 hclose)]
    by_cases hslash : c = '/' ∧ inClass = false
    · obtain ⟨rfl, rfl⟩ := hslash
      rw [if_pos ⟨(hbyte _ (by decide)).2 rfl, rfl⟩]
      exact closes_slash hcode h
    rw [if_neg (by rwa [hbyte _ (by decide)])]
    by_cases hline : c = '\n'
    · subst hline
      rw [if_pos ((hbyte _ (by decide)).2 rfl)]
      exact closes_newline hcode
    rw [if_neg (mt (hbyte _ (by decide)).1 hline), regexEnd_char inClass h]
    refine RegexCloses.step ?_ (ih _ hshorter hrest inClass rfl)
    have hnot : (c = '\n' || (c = '/' && !inClass)) = false := by
      cases inClass <;> simp_all
    simp [Scanner.step, hc, hopen, hclose, hnot]

/-! ### Comments -/

/-- A line comment is read up to its line feed, which is code again. -/
theorem leads_lineComment (hcode : nests.head? ≠ some .template) (rest : List Char) :
    Scanner.Leads { mode := .lineComment, nests, last } (plain nests last) (rest.takeWhile (· ≠ '\n'))
      (rest.dropWhile (· ≠ '\n')) := by
  induction rest with
  | nil => exact rfl
  | cons c rest ih =>
    by_cases hc : c = '\n'
    · subst hc
      exact leads_newline hcode rfl
    · simp only [List.takeWhile_cons, List.dropWhile_cons, ne_eq, hc, not_false_eq_true, decide_true, if_true]
      exact Scanner.Leads.cons (by simp [Scanner.step, hc]) ih

/-- A block comment is read up to the first star with a slash after it; a star before the rest does not
count if no slash follows. -/
theorem split?_blockComment {star : Bool} (hstar : star = true → rest.head? ≠ some '/') :
    Scanner.split? { mode := .blockComment star, nests, last } rest
      = (breakOn? ['*', '/'] rest).bind fun x =>
        ((plain nests last).split? (x.2.drop 2)).map fun y => (x.1 ++ '*' :: '/' :: y.1, y.2) := by
  induction rest generalizing star with
  | nil => rfl
  | cons c rest ih =>
    have hopen : (star && decide (c = '/')) = false := by
      cases star <;> simp_all
    have hstep : Scanner.step { mode := .blockComment star, nests, last } c rest.head?
        = some { mode := .blockComment (c = '*'), nests, last } := by
      simp only [Scanner.step, Bool.false_eq_true, if_false, hopen]
    rw [Scanner.split?, hstep, breakOn?]
    by_cases hends : Text.startsWith ['*', '/'] (c :: rest) = true
    · obtain ⟨after, hafter⟩ := Option.isSome_iff_exists.1 hends
      obtain ⟨rfl, rfl⟩ := List.cons.inj (strip?_eq_some_iff.1 hafter)
      have hslash : Scanner.step { mode := .blockComment true, nests, last } '/' after.head?
          = some (plain nests last) := rfl
      have hread := Scanner.leads_step hslash
      rw [Scanner.Leads, List.singleton_append] at hread
      rw [if_pos hends]
      show Option.map _ (Scanner.split? { mode := .blockComment true, nests, last } ('/' :: after)) = _
      rw [hread, Option.map_map]
      rfl
    · rw [if_neg hends]
      have hnext : decide (c = '*') = true → rest.head? ≠ some '/' := by
        intro hc hslash
        rw [decide_eq_true_eq] at hc
        cases rest with
        | nil => cases hslash
        | cons d rest =>
          cases hslash
          exact hends (by rw [hc]; rfl)
      dsimp only
      rw [ih hnext, Option.bind_map, Option.map_bind]
      simp [Function.comp_def]

/-! ### Moves -/

/-- What is done at an index is what the automaton does: it finds the brace, it ends with the text, or it
reads on to where the scan goes on. -/
inductive Follows (cs rest : List Char) (i : Nat) (s : Scanner) : Move → Prop where
  | found {after : List Char} (h : s.split? rest = some ([], after)) : Follows cs rest i s .found
  | unclosed (h : s.split? rest = none) : Follows cs rest i s .unclosed
  | on (read : List Char) {after : List Char} {nests : List Nest} {prev prev' : UInt8} {i' : Nat} {last : Char}
    (hrest : rest = read ++ after) (hread : read ≠ []) (hi : i < i')
    (hclosing : closing cs nests prev i' = closing cs nests prev' (i + width read))
    (hprev : onByte startsRegex prev' = startsRegex last) (hleads : s.Leads (plain nests last) read after) :
    Follows cs rest i s (.on nests prev i')

variable {nests' : List Nest} {last' : Char} {prev prev' : UInt8} {i' : Nat} {m : Move}

/-- A character of one byte is read. -/
theorem Follows.one (hc : c.utf8Size = 1) (hstep : s.step c rest.head? = some (plain nests last))
    (hprev : onByte startsRegex prev = startsRegex last) : Follows cs (c :: rest) i s (.on nests prev (i + 1)) := by
  refine .on [c] rfl (by simp) (Nat.lt_succ_self i) ?_ hprev (Scanner.leads_step hstep)
  simp [hc]

theorem move_template (htemplate : nests.head? = some .template) (hb : peek cs i = some b) :
    move cs nests prev i = .ok (moveTemplate cs nests prev i b) := by
  rw [move, byteAt_of_peek hb, ok_bind, if_pos htemplate, pure_eq_ok]

theorem move_code (hcode : nests.head? ≠ some .template) (hb : peek cs i = some b) :
    move cs nests prev i = moveCode cs nests prev i b := by
  rw [move, byteAt_of_peek hb, ok_bind, if_neg hcode]

theorem closing_of_on (hi : i < width cs) (hmove : move cs nests prev i = .ok (.on nests' prev' i'))
    (hlt : i < i') : closing cs nests prev i = closing cs nests' prev' i' := by
  rw [closing, dif_pos hi, hmove]
  exact dif_pos hlt

/-- The rest of a character in a template is passed over. -/
theorem closing_template (htemplate : nests.head? = some .template) (prev : UInt8) (h : At cs i (c :: rest)) :
    closing cs nests prev (i + 1) = closing cs nests prev (i + c.utf8Size) := by
  refine eq_of_high (F := closing cs nests prev) (fun j b hb hhigh => ?_) h
  have hne : ∀ d : Char, d.utf8Size = 1 → b ≠ byte d := fun d hd => ne_byte_of_high hd hhigh
  refine closing_of_on (lt_of_peek hb) ?_ (Nat.lt_succ_self j)
  rw [move_template htemplate hb, moveTemplate, if_neg (hne _ (by decide)), if_neg (hne _ (by decide)),
    if_neg fun hdollar => hne _ (by decide) hdollar.1]

/-- A dollar sign only matters before a brace. -/
theorem split?_dollar (htemplate : nests.head? = some .template) (hnext : rest.head? ≠ some '\x7b') :
    ({ plain nests last with dollar := true } : Scanner).split? rest = (plain nests last).split? rest := by
  cases rest with
  | nil => rfl
  | cons d rest =>
    have hd : d ≠ '\x7b' := fun he => hnext (he ▸ rfl)
    simp [Scanner.split?, Scanner.step, plain, htemplate, Scanner.stepTemplate, hd]

theorem closing_of_end (h : width cs ≤ i) : closing cs nests prev i = .ok none := by
  rw [closing, dif_neg (Nat.not_lt.2 h)]
  rfl

/-- An escaped character of a template may be a wide one, or there may be none. -/
theorem follows_escape (htemplate : nests.head? = some .template) (h : At cs i ('\\' :: rest))
    (hprev : onByte startsRegex prev = startsRegex last) :
    Follows cs ('\\' :: rest) i (plain nests last) (.on nests prev (i + 2)) := by
  have hrest : At cs (i + 1) rest := h.char
  have hescape : (plain nests last).step '\\' rest.head? = some { plain nests last with escaped := true } := by
    simp [Scanner.step, plain, htemplate, Scanner.stepTemplate]
  cases rest with
  | nil =>
    have hend : width cs ≤ i + 1 := Nat.le_of_eq hrest.eq_width.symm
    refine .on ['\\'] rfl (by simp) (Nat.lt_add_of_pos_right Nat.two_pos) ?_ hprev
      (.trans (Scanner.leads_step hescape) rfl)
    rw [closing_of_end (Nat.le_succ_of_le hend)]
    exact (closing_of_end hend).symm
  | cons d rest =>
    have hskip : ({ plain nests last with escaped := true } : Scanner).step d rest.head? = some (plain nests last) := rfl
    refine .on ['\\', d] rfl (by simp) (Nat.lt_add_of_pos_right Nat.two_pos) ?_ hprev
      (.cons hescape (Scanner.leads_step hskip))
    rw [closing_template htemplate prev hrest, width_cons, width_cons, ← Nat.add_assoc]
    rfl

/-- In a template. -/
theorem follows_template (htemplate : nests.head? = some .template) (h : At cs i (c :: rest))
    (hbyte : ∀ d, d.utf8Size = 1 → (b = byte d ↔ c = d)) (hprev : onByte startsRegex prev = startsRegex last) :
    Follows cs (c :: rest) i (plain nests last) (moveTemplate cs nests prev i b) := by
  rw [moveTemplate]
  by_cases hescape : c = '\\'
  · subst hescape
    rw [if_pos ((hbyte _ (by decide)).2 rfl)]
    exact follows_escape htemplate h hprev
  rw [if_neg (mt (hbyte _ (by decide)).1 hescape)]
  by_cases hclose : c = '`'
  · subst hclose
    rw [if_pos ((hbyte _ (by decide)).2 rfl)]
    have hsize : Char.utf8Size '`' = 1 := by decide
    refine .one hsize ?_ (onByte_byte hsize)
    simp [Scanner.step, plain, htemplate, Scanner.stepTemplate]
  rw [if_neg (mt (hbyte _ (by decide)).1 hclose)]
  have hstep : (plain nests last).step c rest.head?
      = some { plain nests last with dollar := decide (c = '$') } := by
    simp [Scanner.step, plain, htemplate, Scanner.stepTemplate, hescape, hclose]
  by_cases hopen : c = '$' ∧ rest.head? = some '\x7b'
  · obtain ⟨rfl, hnext⟩ := hopen
    obtain ⟨after, rfl⟩ := List.head?_eq_some_iff.1 hnext
    have hpeek : peek cs (i + 1) = some (byte '\x7b') := (h.char.peek_iff (by decide)).2 rfl
    have hinside : ({ plain nests last with dollar := true } : Scanner).step '\x7b' after.head?
        = some (plain (.substitution :: nests) '\x7b') := by
      simp [Scanner.step, plain, htemplate, Scanner.stepTemplate]
    rw [if_pos ⟨(hbyte _ (by decide)).2 rfl, hpeek⟩]
    exact .on ['$', '\x7b'] rfl (by simp) (Nat.lt_add_of_pos_right Nat.two_pos) rfl
      (by decide +kernel) (.cons hstep (Scanner.leads_step hinside))
  · have hpeek : ¬(b = byte '$' ∧ peek cs (i + 1) = some (byte '\x7b')) := by
      rintro ⟨hb, hp⟩
      obtain rfl : c = '$' := (hbyte _ (by decide)).1 hb
      exact hopen ⟨rfl, (h.char.peek_iff (by decide)).1 hp⟩
    rw [if_neg hpeek]
    refine .on [c] rfl (by simp) (Nat.lt_succ_self i) ?_ hprev ?_
    · rw [closing_template htemplate prev h, width_cons, width_nil, Nat.add_zero]
    · show Scanner.Leads _ _ ([c] ++ []) rest
      refine .trans (Scanner.leads_step hstep) ?_
      by_cases hdollar : c = '$'
      · rw [decide_eq_true hdollar, Scanner.Leads, List.nil_append,
          split?_dollar htemplate fun hnext => hopen ⟨hdollar, hnext⟩]
        simp
      · rw [decide_eq_false hdollar]
        exact .refl _ _

/-- A byte of the code that neither opens nor closes anything. -/
theorem moveCode_ordinary (hbyte : ∀ d, d.utf8Size = 1 → (b = byte d ↔ c = d)) (hc : Ordinary c) :
    moveCode cs nests prev i b = .ok (.on nests (if onByte isBlank b then prev else b) (i + 1)) := by
  simp only [Ordinary, List.mem_cons, List.not_mem_nil, or_false, not_or] at hc
  obtain ⟨hsingle, hdouble, htemplate, hslash, hbrace, hparen, hbracket, hparen', hbracket', hbrace'⟩ := hc
  simp only [moveCode, hbyte '\'' (by decide), hbyte '"' (by decide), hbyte '`' (by decide), hbyte '/' (by decide),
    hbyte '\x7b' (by decide), hbyte '(' (by decide), hbyte '[' (by decide), hbyte '\x7d' (by decide),
    hbyte ')' (by decide), hbyte ']' (by decide), hsingle, hdouble, htemplate, hslash, hbrace, hparen, hbracket,
    hparen', hbracket', hbrace', or_self, false_and, if_false]

theorem ordinary_of_wide (hc : c.utf8Size ≠ 1) : Ordinary c := by
  intro hmem
  simp only [List.mem_cons, List.not_mem_nil, or_false] at hmem
  rcases hmem with rfl | rfl | rfl | rfl | rfl | rfl | rfl | rfl | rfl | rfl <;> exact hc (by decide)

/-- A byte of a wide character belongs to no character of one byte. -/
theorem not_byte_of_high (hhigh : 128 ≤ b.toNat) (hc : c.utf8Size ≠ 1) (d : Char) (hd : d.utf8Size = 1) :
    b = byte d ↔ c = d :=
  iff_of_false (ne_byte_of_high hd hhigh) fun he => hc (he ▸ hd)

/-- In the code the bytes of a wide character are significant, but none of them begins a regular
expression. -/
theorem closing_wide (hcode : nests.head? ≠ some .template) (hc : c.utf8Size ≠ 1) (h : At cs i (c :: rest))
    (hhigh : 128 ≤ prev.toNat) : ∃ prev', 128 ≤ prev'.toNat ∧
      closing cs nests prev (i + 1) = closing cs nests prev' (i + c.utf8Size) := by
  refine exists_of_high (P := fun prev : UInt8 => 128 ≤ prev.toNat) (F := closing cs nests) ?_ h hhigh
  intro prev j b _ hb hhigh
  refine ⟨b, hhigh, closing_of_on (lt_of_peek hb) ?_ (Nat.lt_succ_self j)⟩
  rw [move_code hcode hb, moveCode_ordinary (not_byte_of_high hhigh hc) (ordinary_of_wide hc),
    onByte_of_high hhigh]
  rfl

theorem startsRegex_of_wide (hc : c.utf8Size ≠ 1) : startsRegex c = false := by
  rw [startsRegex, List.contains_eq_mem, decide_eq_false_iff_not]
  intro hmem
  have hall : ("=!+-*%<>&|^~?:([\x7b,;".toList.all fun d => d.utf8Size == 1) = true := by decide +kernel
  exact hc (eq_of_beq (List.all_eq_true.1 hall c hmem))

theorem follows_ordinary (hcode : nests.head? ≠ some .template) (h : At cs i (c :: rest)) (hb : peek cs i = some b)
    (hc : Ordinary c) (hprev : onByte startsRegex prev = startsRegex last) :
    Follows cs (c :: rest) i (plain nests last) (.on nests (if onByte isBlank b then prev else b) (i + 1)) := by
  have hstep := step_ordinary last rest.head? hc hcode
  by_cases hsize : c.utf8Size = 1
  · obtain rfl : b = byte c := Option.some.inj (hb.symm.trans ((h.peek_iff hsize).2 rfl))
    refine .one hsize hstep ?_
    rw [onByte_byte hsize]
    cases isBlank c with
    | true => exact hprev
    | false => exact onByte_byte hsize
  · obtain ⟨b', bs, hbytes, -, hhigh, -⟩ := exists_bytes_cons hsize rest
    obtain rfl : b = b' := by
      rw [h.peek, hbytes] at hb
      exact (Option.some.inj hb).symm
    have hblank : isBlank c = false := eq_false_of_ne_true fun hblank => hsize (size_of_isBlank hblank)
    obtain ⟨prev', hhigh', hclosing⟩ := closing_wide hcode hsize h hhigh
    rw [hblank, if_neg Bool.false_ne_true] at hstep
    rw [onByte_of_high hhigh]
    refine .on [c] rfl (by simp) (Nat.lt_succ_self i) (by simpa using hclosing) ?_
      (Scanner.leads_step hstep)
    rw [onByte_of_high hhigh', startsRegex_of_wide hsize]

theorem follows_string (hcode : nests.head? ≠ some .template) (hc : c = '\'' ∨ c = '"') (h : At cs i (c :: rest)) :
    ∃ m, moveCode cs nests prev i (byte c) = .ok m ∧ Follows cs (c :: rest) i (plain nests last) m := by
  have hsize : c.utf8Size = 1 := by
    rcases hc with rfl | rfl <;> decide
  have hslash : c ≠ '\\' := by
    rcases hc with rfl | rfl <;> decide
  have hopen : (plain nests last).step c rest.head? = some { mode := .quoted c, nests, last := c } := by
    rcases hc with rfl | rfl <;>
      simp [Scanner.step, plain, hcode, Scanner.stepCode, Scanner.seen, isBlank]
  have hrest : At cs (i + 1) rest := hsize ▸ h.char
  have hskip : skipString cs i = stringEnd cs (byte c) (i + 1) := by
    rw [skipString, byteAt_of_peek ((h.peek_iff hsize).2 rfl), ok_bind]
  have hmove : moveCode cs nests prev i (byte c) = (do
      match ← skipString cs i with
      | none => return .unclosed
      | some i' => return .on nests (byte c) i') := by
    rcases hc with rfl | rfl <;> rfl
  have hcloses := closes_stringEnd (s := { mode := .quoted c, nests, last := c }) hsize hslash hrest rfl rfl
  rw [hmove, hskip]
  generalize stringEnd cs (byte c) (i + 1) = result at hcloses
  cases hcloses with
  | @closed read after hread hleads =>
    subst hread
    have hwidth : i + 1 + width read = i + width (c :: read) := by simp [hsize, Nat.add_assoc]
    rw [hwidth]
    have hlt : i < i + width (c :: read) := by omega
    exact ⟨_, rfl, .on (c :: read) rfl (by simp) hlt rfl (onByte_byte hsize)
      (.cons hopen hleads)⟩
  | unclosed hnone => exact ⟨_, rfl, .unclosed (by simp [Scanner.split?, hopen, hnone])⟩

/-- Two slashes begin a comment up to the end of the line. -/
theorem follows_lineComment (hcode : nests.head? ≠ some .template) (h : At cs i ('/' :: '/' :: rest))
    (hprev : onByte startsRegex prev = startsRegex last) :
    ∃ m, moveCode cs nests prev i (byte '/') = .ok m ∧ Follows cs ('/' :: '/' :: rest) i (plain nests last) m := by
  have hpeek : peek cs (i + 1) = some (byte '/') := (h.char.peek_iff (by decide)).2 rfl
  have hscan : scan (fun b _ => b == byte '\n') ((bytes cs).drop i)
      = width ('/' :: ('/' :: rest).takeWhile (· ≠ '\n')) := by
    rw [h.drop_bytes, scan_to (by decide), List.takeWhile_cons_of_pos (by decide)]
  have hmove : moveCode cs nests prev i (byte '/')
      = .ok (.on nests prev (i + width ('/' :: ('/' :: rest).takeWhile (· ≠ '\n')))) := by
    rw [moveCode, if_neg (by decide), if_neg (by decide), if_pos ⟨rfl, hpeek⟩, bytesFrom, if_pos h.offset_le,
      ok_bind, hscan, pure_eq_ok]
  have hopen : (plain nests last).step '/' (some '/') = some { mode := .lineComment, nests, last } := by
    simp [Scanner.step, plain, hcode, Scanner.stepCode]
  have hpos := Char.utf8Size_pos '/'
  refine ⟨_, hmove, .on _ ?_ (List.cons_ne_nil _ _) (by rw [width_cons]; omega) rfl hprev
    (.cons ?_ (leads_lineComment hcode ('/' :: rest)))⟩
  · rw [List.cons_append, List.takeWhile_append_dropWhile]
  · rw [List.takeWhile_append_dropWhile]
    exact hopen

/-- A slash with a star begins a comment up to a star with a slash. -/
theorem follows_blockComment (hcode : nests.head? ≠ some .template) (h : At cs i ('/' :: '*' :: rest))
    (hprev : onByte startsRegex prev = startsRegex last) :
    ∃ m, moveCode cs nests prev i (byte '/') = .ok m ∧ Follows cs ('/' :: '*' :: rest) i (plain nests last) m := by
  have hpeek : peek cs (i + 1) = some (byte '*') := (h.char.peek_iff (by decide)).2 rfl
  have hafter : after cs (i + 2) = .ok rest := h.char.char.rest
  have hopen : (plain nests last).step '/' (some '*') = some { mode := .blockOpening, nests, last } := by
    simp [Scanner.step, plain, hcode, Scanner.stepCode]
  have hstar : Scanner.step { mode := .blockOpening, nests, last } '*' rest.head?
      = some { mode := .blockComment false, nests, last } := rfl
  have hsplit : Scanner.split? { mode := .blockComment false, nests, last } rest = _ :=
    split?_blockComment (by simp)
  have hmove : moveCode cs nests prev i (byte '/') = .ok ((find? ['*', '/'] rest).elim .unclosed
      fun n => .on nests prev (i + 2 + n + 2)) := by
    rw [moveCode, if_neg (by decide), if_neg (by decide), if_neg (by rw [hpeek]; decide), if_pos ⟨rfl, hpeek⟩,
      hafter, ok_bind]
    cases find? ['*', '/'] rest <;> rfl
  refine ⟨_, hmove, ?_⟩
  rw [find?]
  cases hbreak : breakOn? ['*', '/'] rest with
  | none =>
    rw [hbreak, Option.bind_none] at hsplit
    exact .unclosed (by simp [Scanner.split?, hopen, hstar, hsplit])
  | some x =>
    obtain ⟨inside, tail⟩ := x
    obtain ⟨rfl, hends⟩ := breakOn?_append hbreak
    obtain ⟨after, htail⟩ := Option.isSome_iff_exists.1 hends
    obtain rfl : tail = '*' :: '/' :: after := strip?_eq_some_iff.1 htail
    have hleads : Scanner.Leads { mode := .blockComment false, nests, last } (plain nests last)
        (inside ++ ['*', '/']) after := by
      simpa [hbreak, Scanner.Leads] using hsplit
    have hwidth : i + 2 + width inside + 2 = i + width ('/' :: '*' :: (inside ++ ['*', '/'])) := by
      have hslash : Char.utf8Size '/' = 1 := by decide
      have hstar : Char.utf8Size '*' = 1 := by decide
      simp only [width_cons, width_append, width_nil, hslash, hstar]
      omega
    have hlt : i < i + 2 + width inside + 2 := by omega
    exact .on ('/' :: '*' :: (inside ++ ['*', '/'])) (by simp) (List.cons_ne_nil _ _) hlt (by rw [hwidth]) hprev
      (.cons (by simpa using hopen) (.cons (by simpa using hstar) hleads))

/-- A slash where an expression may begin begins a regular expression. -/
theorem follows_regex (hcode : nests.head? ≠ some .template) (h : At cs i ('/' :: rest))
    (hslash : rest.head? ≠ some '/') (hstar : rest.head? ≠ some '*')
    (hprev : onByte startsRegex prev = startsRegex last) (hlast : startsRegex last = true) :
    ∃ m, moveCode cs nests prev i (byte '/') = .ok m ∧ Follows cs ('/' :: rest) i (plain nests last) m := by
  have hrest : At cs (i + 1) rest := h.char
  have hmove : moveCode cs nests prev i (byte '/')
      = (do return .on nests (byte 'a') (← regexEnd cs false (i + 1))) := by
    rw [moveCode, if_neg (by decide), if_neg (by decide),
      if_neg fun hp => hslash ((hrest.peek_iff (by decide)).1 hp.2),
      if_neg fun hp => hstar ((hrest.peek_iff (by decide)).1 hp.2), if_pos ⟨rfl, hprev.trans hlast⟩]
  have hopen : (plain nests last).step '/' rest.head? = some { mode := .regex false, nests, last := '/' } := by
    simp [Scanner.step, plain, hcode, Scanner.stepCode, Scanner.seen, isBlank, hslash, hstar, hlast]
  have hletter : onByte startsRegex (byte 'a') = false := by decide +kernel
  have hcloses := closes_regexEnd hcode hrest false
  rw [hmove]
  generalize regexEnd cs false (i + 1) = result at hcloses
  cases hcloses with
  | @closed read after last' hread hlast' hleads =>
    subst hread
    have hwidth : i + 1 + width read = i + width ('/' :: read) := by
      rw [width_cons, ← Nat.add_assoc]
      rfl
    have hlt : i < i + 1 + width read := by omega
    exact ⟨_, rfl, .on ('/' :: read) rfl (List.cons_ne_nil _ _) hlt (by rw [hwidth]) (hletter.trans hlast'.symm)
      (.cons hopen hleads)⟩
  | unclosed hnone =>
    have hsplit : (plain nests last).split? ('/' :: rest) = none := by simp [Scanner.split?, hopen, hnone]
    have hend : i + width ('/' :: rest) = width cs := (At.read ('/' :: rest) (by simpa using h)).eq_width
    have hlt : i < width cs := by
      rw [← hend, width_cons]
      exact Nat.lt_add_of_pos_right (Nat.add_pos_left (Char.utf8Size_pos '/') _)
    refine ⟨_, rfl, .on ('/' :: rest) (List.append_nil _).symm (List.cons_ne_nil _ _) hlt (by rw [hend])
      (hletter.trans (by decide +kernel : false = startsRegex 'a')) ?_⟩
    rw [Scanner.Leads, List.append_nil, hsplit]
    rfl

/-- A slash where no expression may begin divides. -/
theorem follows_division (hcode : nests.head? ≠ some .template) (h : At cs i ('/' :: rest))
    (hslash : rest.head? ≠ some '/') (hstar : rest.head? ≠ some '*')
    (hprev : onByte startsRegex prev = startsRegex last) (hlast : startsRegex last = false) :
    ∃ m, moveCode cs nests prev i (byte '/') = .ok m ∧ Follows cs ('/' :: rest) i (plain nests last) m := by
  have hrest : At cs (i + 1) rest := h.char
  have hsize : Char.utf8Size '/' = 1 := by decide
  have hstep : (plain nests last).step '/' rest.head? = some (plain nests '/') := by
    simp [Scanner.step, plain, hcode, Scanner.stepCode, Scanner.seen, isBlank, hslash, hstar, hlast]
  refine ⟨.on nests (byte '/') (i + 1), ?_, .one hsize hstep (onByte_byte hsize)⟩
  rw [moveCode, if_neg (by decide), if_neg (by decide),
    if_neg fun hp => hslash ((hrest.peek_iff (by decide)).1 hp.2),
    if_neg fun hp => hstar ((hrest.peek_iff (by decide)).1 hp.2),
    if_neg fun hp => Bool.false_ne_true ((hprev.trans hlast).symm.trans hp.2)]
  rfl

theorem follows_slash (hcode : nests.head? ≠ some .template) (h : At cs i ('/' :: rest))
    (hprev : onByte startsRegex prev = startsRegex last) :
    ∃ m, moveCode cs nests prev i (byte '/') = .ok m ∧ Follows cs ('/' :: rest) i (plain nests last) m := by
  by_cases hslash : rest.head? = some '/'
  · obtain ⟨rest, rfl⟩ := List.head?_eq_some_iff.1 hslash
    exact follows_lineComment hcode h hprev
  by_cases hstar : rest.head? = some '*'
  · obtain ⟨rest, rfl⟩ := List.head?_eq_some_iff.1 hstar
    exact follows_blockComment hcode h hprev
  cases hlast : startsRegex last with
  | true => exact follows_regex hcode h hslash hstar hprev hlast
  | false => exact follows_division hcode h hslash hstar hprev hlast

theorem follows_brace (hcode : nests.head? ≠ some .template) (hprev : onByte startsRegex prev = startsRegex last) :
    Follows cs ('\x7d' :: rest) i (plain nests last) (moveBrace nests prev i) := by
  have hsize : Char.utf8Size '\x7d' = 1 := by decide
  have hstep : (plain nests last).step '\x7d' rest.head? = (plain nests last).stepBrace := by
    simp [Scanner.step, plain, hcode]
  cases nests with
  | nil => exact .found (by rw [Scanner.split?, hstep]; rfl)
  | cons nest nests =>
    cases nest with
    | template => exact absurd rfl hcode
    | substitution => exact .one hsize hstep hprev
    | brace => exact .one hsize hstep (onByte_byte hsize)
    | paren => exact .one hsize hstep (onByte_byte hsize)
    | bracket => exact .one hsize hstep (onByte_byte hsize)

theorem follows_code (hcode : nests.head? ≠ some .template) (h : At cs i (c :: rest)) (hb : peek cs i = some b)
    (hbyte : ∀ d, d.utf8Size = 1 → (b = byte d ↔ c = d)) (hprev : onByte startsRegex prev = startsRegex last) :
    ∃ m, moveCode cs nests prev i b = .ok m ∧ Follows cs (c :: rest) i (plain nests last) m := by
  by_cases hc : Ordinary c
  · exact ⟨_, moveCode_ordinary hbyte hc, follows_ordinary hcode h hb hc hprev⟩
  simp only [Ordinary, not_not, List.mem_cons, List.not_mem_nil, or_false] at hc
  have hsize : c.utf8Size = 1 := by
    rcases hc with rfl | rfl | rfl | rfl | rfl | rfl | rfl | rfl | rfl | rfl <;> decide
  obtain rfl := (hbyte c hsize).2 rfl
  rcases hc with rfl | rfl | rfl | rfl | rfl | rfl | rfl | rfl | rfl | rfl
  · exact follows_string hcode (.inl rfl) h
  · exact follows_string hcode (.inr rfl) h
  case inr.inr.inr.inl => exact follows_slash hcode h hprev
  case inr.inr.inr.inr.inr.inr.inr.inr.inr => exact ⟨_, rfl, follows_brace hcode hprev⟩
  all_goals
    refine ⟨_, rfl, .one hsize ?_ (onByte_byte hsize)⟩
    simp [Scanner.step, plain, hcode, Scanner.stepCode, Scanner.seen, isBlank]

/-- Any byte at which a character begins is treated as the automaton treats the character. -/
theorem follows (h : At cs i (c :: rest)) (hprev : onByte startsRegex prev = startsRegex last) :
    ∃ m, move cs nests prev i = .ok m ∧ Follows cs (c :: rest) i (plain nests last) m := by
  obtain ⟨b, hb, hbyte, -⟩ := exists_peek h
  by_cases htemplate : nests.head? = some .template
  · rw [move_template htemplate hb]
    exact ⟨_, rfl, follows_template htemplate h hbyte hprev⟩
  · rw [move_code htemplate hb]
    exact follows_code htemplate h hb hbyte hprev

/-- The scan finds the brace that the automaton finds. -/
theorem closing_eq (h : At cs i rest) (hprev : onByte startsRegex prev = startsRegex last) :
    closing cs nests prev i = .ok (((plain nests last).split? rest).map fun x => i + width x.1) := by
  induction hn : rest.length using Nat.strongRecOn generalizing i rest nests prev last with
  | ind n ih =>
  cases rest with
  | nil => exact closing_of_end (Nat.le_of_eq h.eq_width.symm)
  | cons c rest =>
    obtain ⟨m, hmove, hfollows⟩ := follows h hprev
    obtain ⟨b, hb, -⟩ := exists_peek h
    have hi := lt_of_peek hb
    cases hfollows with
    | found hfound =>
      rw [closing, dif_pos hi, hmove, hfound]
      rfl
    | unclosed hnone =>
      rw [closing, dif_pos hi, hmove, hnone]
      rfl
    | @on read after nests' prev' prev'' i' last' hrest hread hlt hclosing hprev hleads =>
      rw [hrest] at h hn ⊢
      have hshorter : after.length < n := by
        rw [← hn, List.length_append]
        exact Nat.lt_add_of_pos_left (List.length_pos_iff.2 hread)
      rw [closing_of_on hi hmove hlt, hclosing, ih _ hshorter (h.read read) hprev rfl, hleads, Option.map_map]
      simp only [Function.comp_def, width_append, Nat.add_assoc]

end Offsets

namespace Cursor

open Offsets Embedded

variable {cs : List Char} {c : Cursor}

/-- The closing brace is found where the expression ends. -/
theorem On.findClosingBrace (h : c.On cs) :
    findClosingBrace cs c.offset = .ok ((Embedded.split? c.rest).map fun x => c.offset + width x.1) := by
  have hcall : onByte startsRegex (byte '(') = startsRegex '(' := by decide +kernel
  exact closing_eq h hcall

theorem On.braced (h : c.On cs) : c.spot.braced cs = .ok (c.braced.1, c.braced.2.spot) := by
  rw [Spot.braced, offset_spot, h.findClosingBrace, ok_bind, Cursor.braced]
  cases hsplit : Embedded.split? c.rest with
  | none =>
    have hon : c.toEnd.On cs := h.reaches (reaches_toEnd c)
    have hend : c.toEnd.offset = width cs := At.eq_width hon
    simp only [Option.map_none, h.toEnd, ok_bind, pure_eq_ok, fault_spot, hend]
  | some x =>
    obtain ⟨raw, rest⟩ := x
    have hrest : c.rest = (raw ++ ['\x7d']) ++ rest := by
      rw [Embedded.eq_of_split? hsplit, List.append_assoc]
      rfl
    have hmove : c.spot.moveTo cs (c.offset + width raw + 1) = .ok (c.moved (raw ++ ['\x7d']) rest).spot :=
      h.moveTo hrest (by rw [width_append, ← Nat.add_assoc]; rfl)
    have hraw : Stands cs c.offset raw := h.stands (Embedded.eq_of_split? hsplit)
    simp only [Option.map_some, expression_of_stands hraw rfl, ok_bind, hmove, pure_eq_ok]
    rw [moved, width_append, ← Nat.add_assoc]
    rfl

end Cursor

end Restyle.Markup
