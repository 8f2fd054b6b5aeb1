import Restyle.Proofs.Offsets.Scanning

/-! What an expression may be built from. A grammar of bodies, with strings, templates, comments, regular
expressions and brackets nested in each other, says what stands between the braces. The automaton reads each
of its items and is in the code again behind it with the same things open, so the brace behind a body is the
one that closes it. -/

namespace Restyle.Markup

open Text

/-! ### Bodies -/

namespace Embedded

open Offsets (Ordinary)

/-- Characters of one kind, and characters of another kind behind backslashes. -/
inductive Escaping (bare escaped : Char → Prop) : List Char → Prop where
  | nil : Escaping bare escaped []
  | bare {c : Char} {cs : List Char} (hc : bare c) (h : Escaping bare escaped cs) : Escaping bare escaped (c :: cs)
  | escaped {c : Char} {cs : List Char} (hc : escaped c) (h : Escaping bare escaped cs) :
    Escaping bare escaped ('\\' :: c :: cs)

/-- The text of a string between its quotes. -/
def StringText (quote : Char) : List Char → Prop := Escaping (fun c => c ≠ '\\' ∧ c ≠ quote) fun _ => True

/-- The text of a class of a regular expression between its brackets. -/
def ClassText : List Char → Prop := Escaping (fun c => c ∉ ['\\', ']', '\n']) (· ≠ '\n')

/-- The text of a regular expression between its slashes. -/
inductive RegexText : List Char → Prop where
  | nil : RegexText []
  | char {c : Char} {cs : List Char} (hc : c ∉ ['\\', '[', '/', '\n']) (h : RegexText cs) : RegexText (c :: cs)
  | escape {c : Char} {cs : List Char} (hc : c ≠ '\n') (h : RegexText cs) : RegexText ('\\' :: c :: cs)
  | charClass {inside cs : List Char} (hinside : ClassText inside) (h : RegexText cs) :
    RegexText ('[' :: (inside ++ ']' :: cs))

/-- The brackets of the code, and what is open between them. -/
def brackets : List (Char × Char × Nest) := [('(', ')', .paren), ('[', ']', .bracket), ('{', '}', .brace)]

mutual

/-- A body of an expression, between the last significant character before it and the last one up to its
end. -/
inductive Body : Char → List Char → Char → Prop where
  | nil {last : Char} : Body last [] last
  | char {last c last' : Char} {cs : List Char} (hc : Ordinary c) (h : Body (if isBlank c then last else c) cs last') :
    Body last (c :: cs) last'
  | string {last quote last' : Char} {text cs : List Char} (hquote : quote = '\'' ∨ quote = '"')
    (htext : StringText quote text) (h : Body quote cs last') : Body last (quote :: (text ++ quote :: cs)) last'
  | template {last last' : Char} {text cs : List Char} (htext : TemplateText text) (h : Body '`' cs last') :
    Body last ('`' :: (text ++ '`' :: cs)) last'
  | blockComment {last last' : Char} {text cs : List Char} (htext : ¬ ['*', '/'] <:+: text) (h : Body last cs last') :
    Body last ('/' :: '*' :: (text ++ '*' :: '/' :: cs)) last'
  | lineComment {last last' : Char} {text cs : List Char} (htext : '\n' ∉ text) (h : Body last cs last') :
    Body last ('/' :: '/' :: (text ++ '\n' :: cs)) last'
  | bracketed {last opening closing inner last' : Char} {nest : Nest} {inside cs : List Char}
    (hpair : (opening, closing, nest) ∈ brackets) (hinside : Body opening inside inner) (h : Body closing cs last') :
    Body last (opening :: (inside ++ closing :: cs)) last'
  | division {last last' : Char} {cs : List Char} (hlast : startsRegex last = false)
    (hslash : cs.head? ≠ some '/') (hstar : cs.head? ≠ some '*') (h : Body '/' cs last') : Body last ('/' :: cs) last'
  | regex {last last' : Char} {text flags cs : List Char} (hlast : startsRegex last = true) (htext : RegexText text)
    (hne : text ≠ []) (hstar : text.head? ≠ some '*') (hflags : ∀ c ∈ flags, c.isAlpha = true)
    (h : Body (flags.getLastD '/') cs last') : Body last ('/' :: (text ++ '/' :: (flags ++ cs))) last'

/-- The text of a template between its backticks. -/
inductive TemplateText : List Char → Prop where
  | nil : TemplateText []
  | char {c : Char} {cs : List Char} (hc : c ≠ '\\' ∧ c ≠ '`') (hdollar : c = '$' → cs.head? ≠ some '{')
    (h : TemplateText cs) : TemplateText (c :: cs)
  | escape {c : Char} {cs : List Char} (h : TemplateText cs) : TemplateText ('\\' :: c :: cs)
  | substitution {last : Char} {inside cs : List Char} (hinside : Body '{' inside last) (h : TemplateText cs) :
    TemplateText ('$' :: '{' :: (inside ++ '}' :: cs))

end

/-! ### Items -/

section Items

open Offsets (plain step_ordinary leads_letters)

variable {s : Scanner} {nests : List Nest} {last : Char} {text rest : List Char}

theorem Scanner.Leads.append_cons {s s' s'' : Scanner} {c : Char} {read : List Char} (h : s.Leads s' read (c :: rest))
    (hstep : s'.step c rest.head? = some s'') : s.Leads s'' (read ++ [c]) rest :=
  .trans (by simpa using h) (leads_step hstep)

/-- Where a backslash only takes the character behind it along, what stays is read over. -/
theorem Escaping.leads {bare escaped : Char → Prop} (hs : s.escaped = false)
    (hbare : ∀ c next, bare c → s.step c next = some s)
    (hescape : ∀ next, s.step '\\' next = some { s with escaped := true }) (h : Escaping bare escaped text)
    (rest : List Char) : s.Leads s text rest := by
  induction h with
  | nil => exact .refl s rest
  | bare hc _ ih => exact .cons (hbare _ _ hc) ih
  | escaped _ _ ih =>
    have hskip : ∀ c next, { s with escaped := true }.step c next = some s := by
      intro c next
      simp only [Scanner.step, if_true, ← hs]
    exact .cons (hescape _) (.cons (hskip _ _) ih)

/-- The text of a regular expression is read, up to the slash that closes it. -/
theorem RegexText.leads (htext : RegexText text) (rest : List Char) :
    Scanner.Leads { mode := .regex false, nests, last } { mode := .regex false, nests, last } text rest := by
  induction htext with
  | nil => exact .refl _ rest
  | char hc _ ih =>
    simp only [List.mem_cons, List.not_mem_nil, or_false, not_or] at hc
    obtain ⟨hbackslash, hbracket, hslash, hline⟩ := hc
    refine .cons ?_ ih
    simp only [Scanner.step, Bool.false_eq_true, if_false, if_neg hbackslash, if_neg hbracket]
    simp [hslash, hline]
  | escape _ _ ih => exact .cons rfl (.cons rfl ih)
  | @charClass inside cs hinside _ ih =>
    have hread : Scanner.Leads { mode := .regex true, nests, last } { mode := .regex true, nests, last } inside
        ((']' :: cs) ++ rest) := by
      refine hinside.leads rfl (fun c next hc => ?_) (fun _ => rfl) _
      simp only [List.mem_cons, List.not_mem_nil, or_false, not_or] at hc
      obtain ⟨hbackslash, hbracket, hline⟩ := hc
      simp only [Scanner.step, Bool.false_eq_true, if_false, if_neg hbackslash, if_neg hbracket]
      simp [hline]
    exact .cons rfl (hread.trans (.cons rfl ih))

namespace Body

/-- A string is read with its quotes. -/
theorem leads_string (hcode : nests.head? ≠ some .template) {quote : Char} (hquote : quote = '\'' ∨ quote = '"')
    (htext : StringText quote text) (rest : List Char) :
    (plain nests last).Leads (plain nests quote) (quote :: (text ++ [quote])) rest := by
  have hopen : ∀ next, (plain nests last).step quote next = some { mode := .quoted quote, nests, last := quote } := by
    intro next
    rcases hquote with rfl | rfl <;>
      simp [Scanner.step, plain, hcode, Scanner.stepCode, Scanner.seen, isBlank]
  have hbackslash : quote ≠ '\\' := by
    rcases hquote with rfl | rfl <;> decide
  have hclose : ∀ next, Scanner.step { mode := .quoted quote, nests, last := quote } quote next
      = some (plain nests quote) := by
    intro next
    simp [Scanner.step, plain, hbackslash]
  refine .cons (hopen _) (.append_cons (htext.leads rfl (fun c next hc => ?_) (fun next => ?_) _) (hclose _))
  · simp [Scanner.step, hc.1, hc.2]
  · simp [Scanner.step]

/-- What is in a block comment is read with the end of the comment, if that does not stand in it before. -/
theorem leads_commented (htext : ¬ ['*', '/'] <:+: text) (rest : List Char) {star : Bool}
    (hstar : star = true → text.head? ≠ some '/') :
    Scanner.Leads { mode := .blockComment star, nests, last } (plain nests last) (text ++ ['*', '/']) rest := by
  induction text generalizing star with
  | nil =>
    have hopen : Scanner.step { mode := .blockComment star, nests, last } '*' (some '/')
        = some { mode := .blockComment true, nests, last } := by
      simp [Scanner.step]
    exact .cons hopen (Scanner.leads_step rfl)
  | cons c text ih =>
    rw [List.infix_cons_iff, not_or] at htext
    have hopen : (star && decide (c = '/')) = false := by
      cases star <;> simp_all
    have hnext : decide (c = '*') = true → text.head? ≠ some '/' := by
      intro hc hslash
      obtain ⟨tail, rfl⟩ := List.head?_eq_some_iff.1 hslash
      exact htext.1 ⟨tail, by simp_all⟩
    refine .cons ?_ (ih htext.2 hnext)
    simp only [Scanner.step, Bool.false_eq_true, if_false, hopen]

theorem leads_blockComment (hcode : nests.head? ≠ some .template) (htext : ¬ ['*', '/'] <:+: text) (rest : List Char) :
    (plain nests last).Leads (plain nests last) ('/' :: '*' :: (text ++ ['*', '/'])) rest := by
  have hopen : (plain nests last).step '/' (some '*') = some { mode := .blockOpening, nests, last } := by
    simp [Scanner.step, plain, hcode, Scanner.stepCode]
  exact .cons hopen (.cons rfl (leads_commented htext rest (by simp)))

/-- A line comment is read with its line feed. -/
theorem leads_lineComment (hcode : nests.head? ≠ some .template) (htext : '\n' ∉ text) (rest : List Char) :
    (plain nests last).Leads (plain nests last) ('/' :: '/' :: (text ++ ['\n'])) rest := by
  have hopen : (plain nests last).step '/' (some '/') = some { mode := .lineComment, nests, last } := by
    simp [Scanner.step, plain, hcode, Scanner.stepCode]
  have hread : Scanner.Leads { mode := .lineComment, nests, last } (plain nests last) _ _ :=
    Offsets.leads_lineComment hcode ('/' :: (text ++ '\n' :: rest))
  have hall : ∀ c ∈ '/' :: text, decide (c ≠ '\n') = true := by
    intro c hc
    rcases List.mem_cons.1 hc with rfl | hc
    · decide
    · exact decide_eq_true (ne_of_mem_of_not_mem hc htext)
  rw [← List.cons_append, List.takeWhile_append_of_pos hall, List.dropWhile_append_of_pos hall,
    List.takeWhile_cons_of_neg (by decide), List.dropWhile_cons_of_neg (by decide), List.append_nil] at hread
  have hline : Ordinary '\n' := by simp [Ordinary]
  exact .cons hopen (hread.append_cons (step_ordinary last rest.head? hline hcode))

/-- A regular expression is read with its slashes and flags. -/
theorem leads_regex (hcode : nests.head? ≠ some .template) (hlast : startsRegex last = true) (htext : RegexText text)
    (hne : text ≠ []) (hstar : text.head? ≠ some '*') {flags : List Char} (hflags : ∀ c ∈ flags, c.isAlpha = true)
    (rest : List Char) : (plain nests last).Leads (plain nests (flags.getLastD '/'))
      ('/' :: (text ++ '/' :: flags)) rest := by
  have hslash : text.head? ≠ some '/' := by
    cases htext <;> simp_all
  have hhead : (text ++ ('/' :: flags) ++ rest).head? = text.head? := by
    rw [List.append_assoc, List.head?_append_of_ne_nil _ hne]
  have hopen : (plain nests last).step '/' (text ++ ('/' :: flags) ++ rest).head?
      = some { mode := .regex false, nests, last := '/' } := by
    rw [hhead]
    simp [Scanner.step, plain, hcode, Scanner.stepCode, Scanner.seen, isBlank, hslash, hstar, hlast]
  exact .cons hopen ((htext.leads _).trans (.cons rfl (leads_letters hcode hflags rest)))

/-- A slash divides where no expression may begin and no comment does. -/
theorem step_division (hcode : nests.head? ≠ some .template) (hlast : startsRegex last = false)
    (hslash : rest.head? ≠ some '/') (hstar : rest.head? ≠ some '*') :
    (plain nests last).step '/' rest.head? = some (plain nests '/') := by
  simp [Scanner.step, plain, hcode, Scanner.stepCode, Scanner.seen, isBlank, hslash, hstar, hlast]

variable {opening closing : Char} {nest : Nest}

/-- A bracket opens, and nothing in it is the text of a template. -/
theorem step_opening (hcode : nests.head? ≠ some .template) (hpair : (opening, closing, nest) ∈ brackets)
    (next : Option Char) : (plain nests last).step opening next = some (plain (nest :: nests) opening) := by
  simp only [brackets, List.mem_cons, List.not_mem_nil, or_false, Prod.mk.injEq] at hpair
  obtain ⟨rfl, rfl, rfl⟩ | ⟨rfl, rfl, rfl⟩ | ⟨rfl, rfl, rfl⟩ := hpair <;>
    simp [Scanner.step, plain, hcode, Scanner.stepCode, Scanner.seen, isBlank]

theorem step_closing (hpair : (opening, closing, nest) ∈ brackets) (next : Option Char) :
    (plain (nest :: nests) last).step closing next = some (plain nests closing) := by
  simp only [brackets, List.mem_cons, List.not_mem_nil, or_false, Prod.mk.injEq] at hpair
  obtain ⟨rfl, rfl, rfl⟩ | ⟨rfl, rfl, rfl⟩ | ⟨rfl, rfl, rfl⟩ := hpair <;> rfl

theorem ne_template_of_brackets (hpair : (opening, closing, nest) ∈ brackets) : nest ≠ .template := by
  rintro rfl
  simp [brackets] at hpair

theorem closing_of_brackets (hpair : (opening, closing, nest) ∈ brackets) : closing ≠ '/' ∧ closing ≠ '*' := by
  simp only [brackets, List.mem_cons, List.not_mem_nil, or_false, Prod.mk.injEq] at hpair
  obtain ⟨rfl, rfl, rfl⟩ | ⟨rfl, rfl, rfl⟩ | ⟨rfl, rfl, rfl⟩ := hpair <;> decide

end Body

end Items

/-! ### Reading a body -/

section Reading

open Offsets (plain step_ordinary)

/-- Neither a slash nor a star stands first, so a slash before it begins no comment. -/
structure OpensNoComment (rest : List Char) : Prop where
  slash : rest.head? ≠ some '/'
  star : rest.head? ≠ some '*'

theorem opensNoComment_cons {c : Char} (h : c ≠ '/' ∧ c ≠ '*') (rest : List Char) : OpensNoComment (c :: rest) :=
  ⟨by simpa using h.1, by simpa using h.2⟩

mutual

/-- Behind a body the automaton is in the code again, with the same things open. -/
theorem Body.leads : ∀ {last last' : Char} {cs : List Char}, Body last cs last' →
    ∀ {nests : List Nest} {rest : List Char}, nests.head? ≠ some .template → OpensNoComment rest →
      (plain nests last).Leads (plain nests last') cs rest
  | _, _, _, .nil, _, rest, _, _ => .refl _ rest
  | last, _, _, .char hc h, _, _, hcode, hrest => .cons (step_ordinary last _ hc hcode) (h.leads hcode hrest)
  | last, last', _, @Body.string _ quote _ text cs hquote htext h, nests, rest, hcode, hrest => by
    have hread : (plain nests last).Leads (plain nests last') (quote :: (text ++ [quote]) ++ cs) rest :=
      (Body.leads_string hcode hquote htext _).trans (h.leads hcode hrest)
    simpa using hread
  | last, last', _, @Body.template _ _ text cs htext h, nests, rest, hcode, hrest => by
    obtain ⟨inner, hinside⟩ := htext.leads nests '`' (cs ++ rest)
    have hopen : ∀ next, (plain nests last).step '`' next = some (plain (.template :: nests) '`') := by
      intro next
      simp [Scanner.step, plain, hcode, Scanner.stepCode, Scanner.seen, isBlank]
    have hread : (plain nests last).Leads (plain nests last') ('`' :: (text ++ ['`']) ++ cs) rest :=
      .trans (.cons (hopen _) (hinside.append_cons rfl)) (h.leads hcode hrest)
    simpa using hread
  | last, last', _, @Body.blockComment _ _ text cs htext h, nests, rest, hcode, hrest => by
    have hread : (plain nests last).Leads (plain nests last') ('/' :: '*' :: (text ++ ['*', '/']) ++ cs) rest :=
      (Body.leads_blockComment hcode htext _).trans (h.leads hcode hrest)
    simpa using hread
  | last, last', _, @Body.lineComment _ _ text cs htext h, nests, rest, hcode, hrest => by
    have hread : (plain nests last).Leads (plain nests last') ('/' :: '/' :: (text ++ ['\n']) ++ cs) rest :=
      (Body.leads_lineComment hcode htext _).trans (h.leads hcode hrest)
    simpa using hread
  | last, last', _, @Body.bracketed _ opening closing _ _ nest inside cs hpair hinside h, nests, rest, hcode, hrest => by
    have hnest : (nest :: nests).head? ≠ some .template := by
      simpa using Body.ne_template_of_brackets hpair
    have hends : OpensNoComment (closing :: (cs ++ rest)) := opensNoComment_cons (Body.closing_of_brackets hpair) _
    have hbracketed := (hinside.leads hnest hends).append_cons (Body.step_closing hpair _)
    have hread : (plain nests last).Leads (plain nests last') (opening :: (inside ++ [closing]) ++ cs) rest :=
      .trans (.cons (Body.step_opening hcode hpair _) hbracketed) (h.leads hcode hrest)
    simpa using hread
  | last, last', _, @Body.division _ _ cs hlast hslash hstar h, nests, rest, hcode, hrest => by
    -- behind the last item of the body stands the rest
    have hnext : OpensNoComment (cs ++ rest) := by
      cases cs with
      | nil => exact hrest
      | cons c cs => exact ⟨hslash, hstar⟩
    exact .cons (Body.step_division hcode hlast hnext.slash hnext.star) (h.leads hcode hrest)
  | last, last', _, @Body.regex _ _ text flags cs hlast htext hne hstar hflags h, nests, rest, hcode, hrest => by
    have hread : (plain nests last).Leads (plain nests last') ('/' :: (text ++ '/' :: flags) ++ cs) rest :=
      (Body.leads_regex hcode hlast htext hne hstar hflags _).trans (h.leads hcode hrest)
    simpa using hread

/-- In a template the automaton stays in it up to its backtick. -/
theorem TemplateText.leads : ∀ {text : List Char}, TemplateText text → ∀ (nests : List Nest) (last : Char)
    (rest : List Char), ∃ last',
      (plain (.template :: nests) last).Leads (plain (.template :: nests) last') text ('`' :: rest)
  | _, .nil, _, last, _ => ⟨last, .refl _ _⟩
  | _, @TemplateText.char c cs hc hdollar h, nests, last, rest => by
    obtain ⟨last', hread⟩ := h.leads nests last rest
    have hstep : ∀ next, (plain (.template :: nests) last).step c next
        = some { plain (.template :: nests) last with dollar := decide (c = '$') } := by
      intro next
      simp [Scanner.step, plain, Scanner.stepTemplate, hc.1, hc.2]
    refine ⟨last', .cons (hstep _) ?_⟩
    by_cases hc : c = '$'
    · have hnext : (cs ++ '`' :: rest).head? ≠ some '{' := by
        cases cs with
        | nil => simp
        | cons d cs => exact hdollar hc
      rw [decide_eq_true hc, Scanner.Leads, Offsets.split?_dollar rfl hnext]
      exact hread
    · rw [decide_eq_false hc]
      exact hread
  | _, .escape h, nests, last, rest => by
    obtain ⟨last', hread⟩ := h.leads nests last rest
    exact ⟨last', .cons rfl (.cons rfl hread)⟩
  | _, @TemplateText.substitution inner inside cs hinside h, nests, last, rest => by
    obtain ⟨last', hread⟩ := h.leads nests inner rest
    have hcode : (Nest.substitution :: .template :: nests).head? ≠ some .template := by simp
    have hends : OpensNoComment ('}' :: (cs ++ '`' :: rest)) := opensNoComment_cons (by decide) _
    have hclose : (plain (.substitution :: .template :: nests) inner).step '}' (cs ++ '`' :: rest).head?
        = some (plain (.template :: nests) inner) := rfl
    have hsubstituted : (plain (.template :: nests) last).Leads (plain (.template :: nests) last')
        ('$' :: '{' :: (inside ++ ['}'] ++ cs)) ('`' :: rest) :=
      .cons rfl (.cons rfl (.trans ((hinside.leads hcode hends).append_cons hclose) hread))
    exact ⟨last', by simpa using hsubstituted⟩

end

end Reading

/-! ### The closing brace -/

/-- A body is what stands before the brace behind it. -/
theorem Body.split? {body : List Char} {last : Char} (h : Body '(' body last) (rest : List Char) :
    Embedded.split? (body ++ '}' :: rest) = some (body, rest) := by
  have hends : OpensNoComment ('}' :: rest) := opensNoComment_cons (by decide) rest
  have hread := h.leads (by simp : ([] : List Nest).head? ≠ _) hends
  have hbrace : (Offsets.plain [] last).split? ('}' :: rest) = some ([], rest) := rfl
  rw [Scanner.Leads, hbrace] at hread
  show (Offsets.plain [] '(').split? _ = _
  simpa using hread

end Embedded

namespace Offsets

open Embedded

/-- The scan finds the brace that is split off, at its offset. -/
theorem findClosingBrace_of_split? {code rest : List Char} (h : Embedded.split? (code ++ '}' :: rest) = some (code, rest))
    (before : List Char) :
    findClosingBrace (before ++ (code ++ '}' :: rest)) (width before) = .ok (some (width before + width code)) := by
  have hon : (⟨width before, code ++ '}' :: rest, []⟩ : Cursor).On (before ++ (code ++ '}' :: rest)) :=
    ⟨before, rfl, rfl⟩
  rw [hon.findClosingBrace, h]
  rfl

/-- Whatever stands before and behind, the closing brace of a body is the one behind it, and the scan finds
it at its offset. -/
theorem findClosingBrace_of_body {body : List Char} {last : Char} (h : Body '(' body last)
    (before rest : List Char) : Embedded.split? (body ++ '}' :: rest) = some (body, rest) ∧
      findClosingBrace (before ++ (body ++ '}' :: rest)) (width before) =
        .ok (some (width before + width body)) :=
  ⟨h.split? rest, findClosingBrace_of_split? (h.split? rest) before⟩

/-- A template with a regular expression in it that has a brace in a class, divided by a number. -/
theorem findClosingBrace_of_quotient :
    ∃ last, Body '(' ['`', '$', '{', '/', '[', '}', ']', '/', 'g', '}', '`', '/', '2'] last ∧
      Embedded.split? ['`', '$', '{', '/', '[', '}', ']', '/', 'g', '}', '`', '/', '2', '}', '<']
        = some (['`', '$', '{', '/', '[', '}', ']', '/', 'g', '}', '`', '/', '2'], ['<']) ∧
      findClosingBrace ['>', '{', '`', '$', '{', '/', '[', '}', ']', '/', 'g', '}', '`', '/', '2', '}', '<'] 2
        = .ok (some 15) := by
  have hclass : RegexText ['[', '}', ']'] := .charClass (.bare (by decide) .nil) .nil
  have hregex : Body '{' ['/', '[', '}', ']', '/', 'g'] 'g' :=
    @Body.regex '{' _ _ ['g'] [] (by decide +kernel) hclass (by decide) (by decide) (forall_mem_of_all rfl) .nil
  have hquotient : Body '`' ['/', '2'] '2' :=
    .division (by decide +kernel) (by decide) (by decide) (.char (by simp [Ordinary]) .nil)
  have hbody : Body '(' ['`', '$', '{', '/', '[', '}', ']', '/', 'g', '}', '`', '/', '2'] '2' :=
    .template (.substitution hregex .nil) hquotient
  exact ⟨'2', hbody, findClosingBrace_of_body hbody ['>', '{'] ['<']⟩

end Offsets

end Restyle.Markup
