import Restyle.Proofs.Offsets.Bodies

/-! What a slash means. In the language of the expressions the token before a slash says whether the slash
divides or begins a regular expression: it divides an operand, also one that ends in an increment, a decrement
or the mark that it is not null, and behind a word as `typeof` an operand begins. The scan goes by the last
character of the token instead. The two agree behind all tokens but a few, and where no slash stands behind
one of these, the scan finds the brace that closes the expression. -/

namespace Restyle.Markup

open Text

namespace Embedded

open Offsets (Ordinary plain step_ordinary)

/-! ### Tokens -/

/-- What the last token says of a slash behind it. -/
inductive Before where
  /-- An operand has ended. -/
  | operand
  /-- An operand has ended, in an operator that stands behind it. -/
  | suffixed
  /-- An operand is to come, behind an operator or an opening bracket. -/
  | operator
  /-- An operand is to come, behind a word, a spread or a slash. -/
  | awaiting
  deriving Repr, DecidableEq

namespace Before

/-- An operand has ended, so a slash divides it. -/
def ended : Before → Bool
  | operand | suffixed => true
  | operator | awaiting => false

/-- The last character of the token is one behind which a regular expression is taken to begin. -/
def opens : Before → Bool
  | operand | awaiting => false
  | suffixed | operator => true

/-- The last character tells what the token does, as it does of operands and of operators between them. -/
def Tells (b : Before) : Prop := b.opens = !b.ended

instance : DecidablePred Tells := fun b => inferInstanceAs (Decidable (b.opens = !b.ended))

end Before

/-- A place between tokens. -/
structure Context where
  before : Before
  /-- The last significant character. -/
  last : Char
  /-- A line ends between the last token and here. -/
  broken : Bool := false

namespace Context

/-- At the start of an expression an operand is to come. -/
def start : Context := ⟨.operator, '(', false⟩

def ends (c : Char) : Bool := c = '\n' || c = '\r' || c = '\u2028' || c = '\u2029'

/-- Behind blanks or a comment. -/
def past (x : Context) (text : List Char) : Context := { x with broken := x.broken || text.any ends }

/-- What an operator says that may stand behind an operand, in the same line, or in front of one. -/
def suffix (x : Context) : Before := if x.before.ended && !x.broken then .suffixed else .operator

theorem opens_suffix (x : Context) : x.suffix.opens = true := by
  unfold suffix
  split <;> rfl

/-- The last character is one that the token may have. -/
def Shows (x : Context) : Prop := startsRegex x.last = x.before.opens

instance : DecidablePred Shows := fun x => inferInstanceAs (Decidable (startsRegex x.last = x.before.opens))

end Context

/-- A character of names, numbers and words. -/
def isWordChar (c : Char) : Bool :=
  c.isAlphanum || c = '_' || c = '$' || c = '#' || (128 ≤ c.toNat && !isSpace c)

/-- The words that an operand stands behind. -/
def awaitingWords : List (List Char) :=
  ["return", "typeof", "void", "delete", "in", "of", "instanceof", "case", "throw", "await"].map String.toList

/-- The characters that operators are made of. -/
def operators : List Char := "=+-*%<>&|^~?:,;".toList

mutual

/-- The text of an expression from token to token. What a slash means is told by the token before it, and
`slash` is the condition on that token. A bracket that is closed ends an operand. That it may end the condition of
a statement instead, as in the body of a function, is left out. -/
inductive Code (slash : Before → Prop) : Context → List Char → Context → Prop where
  | nil {x : Context} : Code slash x [] x
  | blank {x y : Context} {c : Char} {cs : List Char} (hc : isBlank c = true) (h : Code slash (x.past [c]) cs y) :
    Code slash x (c :: cs) y
  | blockComment {x y : Context} {text cs : List Char} (htext : ¬ ['*', '/'] <:+: text)
    (h : Code slash (x.past text) cs y) : Code slash x ('/' :: '*' :: (text ++ '*' :: '/' :: cs)) y
  | lineComment {x y : Context} {text cs : List Char} (htext : '\n' ∉ text) (h : Code slash (x.past ['\n']) cs y) :
    Code slash x ('/' :: '/' :: (text ++ '\n' :: cs)) y
  | word {x y : Context} {w cs : List Char} (hne : w ≠ []) (hw : ∀ c ∈ w, isWordChar c = true)
    (hend : ∀ c ∈ cs.head?, isWordChar c = false)
    (h : Code slash ⟨if w ∈ awaitingWords then .awaiting else .operand, w.getLastD x.last, false⟩ cs y) :
    Code slash x (w ++ cs) y
  /-- A member is an operand whatever its name is. Behind a question mark an index or a call has none. -/
  | member {x y : Context} {w cs : List Char} (hw : ∀ c ∈ w, isWordChar c = true)
    (hend : ∀ c ∈ cs.head?, isWordChar c = false) (hempty : w = [] → cs.head? = some '(' ∨ cs.head? = some '[')
    (h : Code slash ⟨.operand, w.getLastD '.', false⟩ cs y) : Code slash x ('.' :: (w ++ cs)) y
  | spread {x y : Context} {cs : List Char} (h : Code slash ⟨.awaiting, '.', false⟩ cs y) :
    Code slash x ('.' :: '.' :: '.' :: cs) y
  | operator {x y : Context} {c : Char} {cs : List Char} (hc : c ∈ operators)
    (hlong : c = '+' ∨ c = '-' → cs.head? ≠ some c) (h : Code slash ⟨.operator, c, false⟩ cs y) :
    Code slash x (c :: cs) y
  /-- An increment or a decrement. -/
  | update {x y : Context} {c : Char} {cs : List Char} (hc : c = '+' ∨ c = '-')
    (h : Code slash ⟨x.suffix, c, false⟩ cs y) : Code slash x (c :: c :: cs) y
  /-- A negation, an inequality, or the mark of an operand that is not null. -/
  | bang {x y : Context} {cs : List Char}
    (h : Code slash ⟨if cs.head? = some '=' then .operator else x.suffix, '!', false⟩ cs y) :
    Code slash x ('!' :: cs) y
  | string {x y : Context} {quote : Char} {text cs : List Char} (hquote : quote = '\'' ∨ quote = '"')
    (htext : StringText quote text) (h : Code slash ⟨.operand, quote, false⟩ cs y) :
    Code slash x (quote :: (text ++ quote :: cs)) y
  | template {x y : Context} {text cs : List Char} (htext : CodeTemplate slash text)
    (h : Code slash ⟨.operand, '`', false⟩ cs y) : Code slash x ('`' :: (text ++ '`' :: cs)) y
  | bracketed {x y inner : Context} {opening closing : Char} {nest : Nest} {inside cs : List Char}
    (hpair : (opening, closing, nest) ∈ brackets) (hinside : Code slash ⟨.operator, opening, false⟩ inside inner)
    (h : Code slash ⟨.operand, closing, false⟩ cs y) : Code slash x (opening :: (inside ++ closing :: cs)) y
  | division {x y : Context} {cs : List Char} (hslash : slash x.before) (hended : x.before.ended = true)
    (hcomment : cs.head? ≠ some '/') (hstar : cs.head? ≠ some '*') (h : Code slash ⟨.awaiting, '/', false⟩ cs y) :
    Code slash x ('/' :: cs) y
  | regex {x y : Context} {text flags cs : List Char} (hslash : slash x.before) (hended : x.before.ended = false)
    (htext : RegexText text) (hne : text ≠ []) (hstar : text.head? ≠ some '*')
    (hflags : ∀ c ∈ flags, c.isAlpha = true) (h : Code slash ⟨.operand, flags.getLastD '/', false⟩ cs y) :
    Code slash x ('/' :: (text ++ '/' :: (flags ++ cs))) y

/-- The text of a template between its backticks. -/
inductive CodeTemplate (slash : Before → Prop) : List Char → Prop where
  | nil : CodeTemplate slash []
  | char {c : Char} {cs : List Char} (hc : c ≠ '\\' ∧ c ≠ '`') (hdollar : c = '$' → cs.head? ≠ some '{')
    (h : CodeTemplate slash cs) : CodeTemplate slash (c :: cs)
  | escape {c : Char} {cs : List Char} (h : CodeTemplate slash cs) : CodeTemplate slash ('\\' :: c :: cs)
  | substitution {inner : Context} {inside cs : List Char} (hinside : Code slash ⟨.operator, '{', false⟩ inside inner)
    (h : CodeTemplate slash cs) : CodeTemplate slash ('$' :: '{' :: (inside ++ '}' :: cs))

end

/-! ### Last characters -/

section Last

variable {c last last' : Char} {w cs : List Char}

/-- The signs of the code: quotes, brackets, blanks and what operators are made of. -/
def signs : List Char := "'\"`/([)]\x7b\x7d \t\n\x0c\r=!+-*%<>&|^~?:,;".toList

/-- A character of a word is none of the signs of the code. -/
theorem ordinary_of_isWordChar (h : isWordChar c = true) : Ordinary c ∧ isBlank c = false ∧ startsRegex c = false := by
  have hsigns : ∀ d ∈ signs, isWordChar d = false := forall_mem_of_all (by decide +kernel)
  have hnone {ds : List Char} (hds : ds ⊆ signs) : c ∉ ds := by
    intro hmem
    rw [hsigns c (hds hmem)] at h
    cases h
  refine ⟨hnone (by decide), ?_, ?_⟩
  · have hblank : c ∉ [' ', '\t', '\n', '\x0c', '\r'] := hnone (by decide)
    simpa [isBlank, and_assoc] using hblank
  · have hregex : c ∉ "=!+-*%<>&|^~?:([\x7b,;".toList := hnone (by decide)
    rw [startsRegex, ← Bool.not_eq_true]
    exact fun hmem => hregex (List.contains_iff_mem.1 hmem)

theorem ordinary_of_operator (h : c ∈ operators) : Ordinary c ∧ isBlank c = false ∧ startsRegex c = true := by
  have hall : ∀ d ∈ operators, Ordinary d ∧ isBlank d = false ∧ startsRegex d = true :=
    forall_mem_of_all (by decide +kernel)
  exact hall c h

theorem ordinary_of_isBlank (h : isBlank c = true) : Ordinary c := by
  simp only [isBlank, Bool.or_eq_true, beq_iff_eq] at h
  rcases h with (((rfl | rfl) | rfl) | rfl) | rfl <;> decide

theorem ordinary_dot : Ordinary '.' ∧ isBlank '.' = false := ⟨by decide, rfl⟩

theorem ordinary_bang : Ordinary '!' ∧ isBlank '!' = false := ⟨by decide, rfl⟩

theorem startsRegex_word (hw : ∀ c ∈ w, isWordChar c = true) (hlast : startsRegex last = false) :
    startsRegex (w.getLastD last) = false := by
  rcases List.mem_cons.1 (List.getLastD_mem_cons (l := w) (a := last)) with h | h
  · rwa [h]
  · exact (ordinary_of_isWordChar (hw _ h)).2.2

/-- A significant character that neither opens nor closes anything. -/
theorem Body.sign (hc : Ordinary c ∧ isBlank c = false) (h : Body c cs last') : Body last (c :: cs) last' :=
  .char hc.1 (by rwa [hc.2])

theorem Body.word (hw : ∀ c ∈ w, isWordChar c = true) (h : Body (w.getLastD last) cs last') :
    Body last (w ++ cs) last' := by
  induction w generalizing last with
  | nil => exact h
  | cons c w ih =>
    obtain ⟨hc, hw⟩ := List.forall_mem_cons.1 hw
    rw [List.getLastD_cons] at h
    obtain ⟨hordinary, hblank, -⟩ := ordinary_of_isWordChar hc
    exact .sign ⟨hordinary, hblank⟩ (ih hw h)

end Last

/-! ### Code that is read as it is meant -/

mutual

/-- Where slashes stand behind tokens only of which the last character tells what they do, the text is a body. -/
theorem Code.body : ∀ {x y : Context} {cs : List Char}, Code Before.Tells x cs y → x.Shows →
    Body x.last cs y.last ∧ y.Shows
  | _, _, _, .nil, hx => ⟨.nil, hx⟩
  | x, _, _, @Code.blank _ _ _ c cs hc h, hx => by
    obtain ⟨hbody, hy⟩ := h.body hx
    exact ⟨.char (ordinary_of_isBlank hc) (by rwa [if_pos hc]), hy⟩
  | x, _, _, .blockComment htext h, hx => by
    obtain ⟨hbody, hy⟩ := h.body hx
    exact ⟨.blockComment htext hbody, hy⟩
  | x, _, _, .lineComment htext h, hx => by
    obtain ⟨hbody, hy⟩ := h.body hx
    exact ⟨.lineComment htext hbody, hy⟩
  | x, y, _, @Code.word _ _ _ w cs hne hw _ h, hx => by
    have hshows : startsRegex (w.getLastD x.last) = false := by
      cases w with
      | nil => exact absurd rfl hne
      | cons c w =>
        obtain ⟨hc, hw⟩ := List.forall_mem_cons.1 hw
        rw [List.getLastD_cons]
        exact startsRegex_word hw (ordinary_of_isWordChar hc).2.2
    obtain ⟨hbody, hy⟩ := h.body (by rw [Context.Shows, hshows]; split <;> rfl)
    exact ⟨.word hw hbody, hy⟩
  | x, y, _, @Code.member _ _ _ w cs hw _ _ h, hx => by
    have hshows : startsRegex (w.getLastD '.') = false := startsRegex_word hw (by decide +kernel)
    obtain ⟨hbody, hy⟩ := h.body hshows
    exact ⟨.sign ordinary_dot (.word hw hbody), hy⟩
  | x, y, _, .spread h, hx => by
    obtain ⟨hbody, hy⟩ := h.body (by decide +kernel)
    exact ⟨.sign ordinary_dot (.sign ordinary_dot (.sign ordinary_dot hbody)), hy⟩
  | x, y, _, @Code.operator _ _ _ c cs hc _ h, hx => by
    obtain ⟨hordinary, hblank, hregex⟩ := ordinary_of_operator hc
    obtain ⟨hbody, hy⟩ := h.body hregex
    exact ⟨.sign ⟨hordinary, hblank⟩ hbody, hy⟩
  | x, y, _, @Code.update _ _ _ c cs hc h, hx => by
    have hc : c ∈ operators := by rcases hc with rfl | rfl <;> decide +kernel
    obtain ⟨hordinary, hblank, hregex⟩ := ordinary_of_operator hc
    obtain ⟨hbody, hy⟩ := h.body (hregex.trans x.opens_suffix.symm)
    exact ⟨.sign ⟨hordinary, hblank⟩ (.sign ⟨hordinary, hblank⟩ hbody), hy⟩
  | x, y, _, .bang h, hx => by
    have hshows : ∀ b : Before, b.opens = true → Context.Shows ⟨b, '!', false⟩ := fun b hb => by
      have hbang : startsRegex '!' = true := by decide +kernel
      exact hbang.trans hb.symm
    obtain ⟨hbody, hy⟩ := h.body (hshows _ (by split; exacts [rfl, x.opens_suffix]))
    exact ⟨.sign ordinary_bang hbody, hy⟩
  | x, y, _, .string hquote htext h, hx => by
    obtain ⟨hbody, hy⟩ := h.body (by rcases hquote with rfl | rfl <;> decide +kernel)
    exact ⟨.string hquote htext hbody, hy⟩
  | x, y, _, .template htext h, hx => by
    obtain ⟨hbody, hy⟩ := h.body (by decide +kernel)
    exact ⟨.template htext.text hbody, hy⟩
  | x, y, _, @Code.bracketed _ _ _ _ opening closing _ _ _ hpair hinside h, hx => by
    have hshows : startsRegex opening = true ∧ startsRegex closing = false := by
      simp only [brackets, List.mem_cons, List.not_mem_nil, or_false, Prod.mk.injEq] at hpair
      obtain ⟨rfl, rfl, rfl⟩ | ⟨rfl, rfl, rfl⟩ | ⟨rfl, rfl, rfl⟩ := hpair <;> decide +kernel
    obtain ⟨hinner, -⟩ := hinside.body hshows.1
    obtain ⟨hbody, hy⟩ := h.body hshows.2
    exact ⟨.bracketed hpair hinner hbody, hy⟩
  | x, y, _, .division hslash hended hcomment hstar h, hx => by
    have hlast : startsRegex x.last = false := hx.trans (hslash.trans (by rw [hended]; rfl))
    obtain ⟨hbody, hy⟩ := h.body (by decide +kernel)
    exact ⟨.division hlast hcomment hstar hbody, hy⟩
  | x, y, _, @Code.regex _ _ _ text flags cs hslash hended htext hne hstar hflags h, hx => by
    have hlast : startsRegex x.last = true := hx.trans (hslash.trans (by rw [hended]; rfl))
    have hshows : startsRegex (flags.getLastD '/') = false := Offsets.startsRegex_getLastD hflags (by decide +kernel)
    obtain ⟨hbody, hy⟩ := h.body hshows
    exact ⟨.regex hlast htext hne hstar hflags hbody, hy⟩

theorem CodeTemplate.text : ∀ {text : List Char}, CodeTemplate Before.Tells text → TemplateText text
  | _, .nil => .nil
  | _, .char hc hdollar h => .char hc hdollar h.text
  | _, .escape h => .escape h.text
  | _, .substitution hinside h => .substitution (hinside.body (by decide +kernel)).1 h.text

end

/-! ### Slashes that are misread -/

section Misread

variable {nests : List Nest} {last last' : Char} {cs w blanks text rest : List Char}

theorem Scanner.leads_blanks (hcode : nests.head? ≠ some .template) (h : ∀ c ∈ blanks, isBlank c = true)
    (rest : List Char) : (plain nests last).Leads (plain nests last) blanks rest := by
  induction blanks with
  | nil => exact .refl _ rest
  | cons c blanks ih =>
    obtain ⟨hc, hblanks⟩ := List.forall_mem_cons.1 h
    have hstep := step_ordinary last (blanks ++ rest).head? (ordinary_of_isBlank hc) hcode
    rw [hc] at hstep
    exact (ih hblanks).cons hstep

/-- Where a slash is taken for the beginning of a regular expression and no other slash ends that in its line,
nothing closes. -/
theorem Scanner.split?_regex {s : Scanner} {inClass : Bool} (hmode : s.mode = .regex inClass) (hslash : '/' ∉ rest)
    (hline : '\n' ∉ rest) : s.split? rest = none := by
  induction rest generalizing s inClass with
  | nil => rfl
  | cons c rest ih =>
    rw [List.mem_cons, not_or] at hslash hline
    have hends : ¬ (decide (c = '\n') || decide (c = '/') && !inClass) = true := by
      simp [Ne.symm hslash.1, Ne.symm hline.1]
    have hstep : ∃ s' inClass', s.step c rest.head? = some s' ∧ s'.mode = .regex inClass' := by
      unfold Scanner.step
      rw [hmode]
      dsimp only
      rw [if_neg hends]
      split_ifs
      exacts [⟨_, inClass, rfl, rfl⟩, ⟨_, inClass, rfl, rfl⟩, ⟨_, true, rfl, rfl⟩, ⟨_, false, rfl, rfl⟩,
        ⟨s, inClass, rfl, hmode⟩]
    obtain ⟨s', inClass', hstep, hmode'⟩ := hstep
    rw [split?, hstep]
    dsimp only
    rw [ih hmode' hslash.2 hline.2]
    rfl

/-- A token behind a body, and blanks behind the token. -/
theorem Body.leads_token (h : Body '(' cs last) (hw : ∀ c ∈ w, (Ordinary c ∧ isBlank c = false) ∧ c ≠ '*')
    (hlast : w.getLast? = some last') (hblanks : ∀ c ∈ blanks, isBlank c = true) (rest : List Char) :
    (plain [] '(').Leads (plain [] last') (cs ++ (w ++ blanks)) rest := by
  have hopens : OpensNoComment (w ++ blanks ++ rest) := by
    cases w with
    | nil => cases hlast
    | cons c w =>
      obtain ⟨⟨hordinary, -⟩, hstar⟩ := hw c (List.mem_cons_self ..)
      exact opensNoComment_cons ⟨by rintro rfl; simp [Ordinary] at hordinary, hstar⟩ _
  have hcode : ([] : List Nest).head? ≠ some .template := by simp
  have hword : (plain [] last).Leads (plain [] (w.getLastD last)) w (blanks ++ rest) :=
    Offsets.leads_ordinary hcode (fun c hc => (hw c hc).1) _
  rw [List.getLastD_eq_getLast?, hlast] at hword
  exact (h.leads hcode hopens).trans (hword.trans (Scanner.leads_blanks hcode hblanks rest))

/-- Behind a word that awaits an operand a slash divides, and a brace in the regular expression that begins there
closes the expression. -/
theorem split?_of_awaiting (h : Body '(' cs last) (hw : w ∈ awaitingWords) (hblanks : ∀ c ∈ blanks, isBlank c = true)
    (htext : Body '/' text last') (hopens : OpensNoComment (text ++ '\x7d' :: rest)) :
    split? (cs ++ (w ++ blanks) ++ '/' :: (text ++ '\x7d' :: rest)) = some (cs ++ (w ++ blanks) ++ '/' :: text, rest) := by
  have hwords : ∀ w ∈ awaitingWords, w.getLast?.map startsRegex = some false ∧
      (w.all fun c => decide ((Ordinary c ∧ isBlank c = false) ∧ c ≠ '*')) = true := by
    decide +kernel
  obtain ⟨hregex, hchars⟩ := hwords w hw
  obtain ⟨d, hd, hregex⟩ := Option.map_eq_some_iff.1 hregex
  have hcode : ([] : List Nest).head? ≠ some .template := by simp
  have hdivision := Scanner.leads_step (Body.step_division hcode hregex hopens.slash hopens.star)
  have hends : OpensNoComment ('\x7d' :: rest) := opensNoComment_cons (by decide) rest
  have hinside := htext.leads hcode hends
  have hread := (h.leads_token (forall_mem_of_all hchars) hd hblanks _).trans (hdivision.trans hinside)
  have hbrace : (plain [] last').split? ('\x7d' :: rest) = some ([], rest) := rfl
  rw [Scanner.Leads, hbrace] at hread
  show (plain [] '(').split? _ = _
  simpa using hread

/-- Behind an operand that ends in an increment, a decrement or the mark that it is not null, a slash begins a
regular expression, and if no other slash ends it in the line, no brace closes the expression. -/
theorem split?_of_suffixed (h : Body '(' cs last) (hw : w ∈ [['+', '+'], ['-', '-'], ['!']])
    (hblanks : ∀ c ∈ blanks, isBlank c = true) (hstar : rest.head? ≠ some '*') (hslash : '/' ∉ rest)
    (hline : '\n' ∉ rest) : split? (cs ++ (w ++ blanks) ++ '/' :: rest) = none := by
  have hsuffixes : ∀ w ∈ [['+', '+'], ['-', '-'], ['!']], w.getLast?.map startsRegex = some true ∧
      (w.all fun c => decide ((Ordinary c ∧ isBlank c = false) ∧ c ≠ '*')) = true := by
    decide +kernel
  obtain ⟨hregex, hchars⟩ := hsuffixes w hw
  obtain ⟨d, hd, hregex⟩ := Option.map_eq_some_iff.1 hregex
  have hnext : rest.head? ≠ some '/' := fun hhead => hslash (List.mem_of_head? hhead)
  have hopen : (plain [] d).step '/' rest.head? = some { mode := .regex false, nests := [], last := '/' } := by
    simp [Scanner.step, plain, Scanner.stepCode, Scanner.seen, isBlank, hnext, hstar, hregex]
  have hread := (h.leads_token (forall_mem_of_all hchars) hd hblanks _).trans (Scanner.leads_step hopen)
  rw [Scanner.Leads, Scanner.split?_regex rfl hslash hline] at hread
  show (plain [] '(').split? _ = _
  simpa using hread

end Misread

end Embedded

namespace Offsets

open Embedded

/-- Where slashes stand behind tokens only of which the last character tells what they do, the scan finds the brace
behind the text. -/
theorem findClosingBrace_of_code {code : List Char} {y : Context} (h : Code Before.Tells .start code y)
    (before rest : List Char) : Embedded.split? (code ++ '\x7d' :: rest) = some (code, rest) ∧
      findClosingBrace (before ++ (code ++ '\x7d' :: rest)) (width before) = .ok (some (width before + width code)) := by
  have hsplit := (h.body (by decide +kernel)).1.split? rest
  exact ⟨hsplit, findClosingBrace_of_split? hsplit before⟩

/-- Of a quotient of which the dividend is incremented, or is marked as not null, no brace is found that closes it,
and behind `typeof` it is the brace in a regular expression that is found. -/
theorem findClosingBrace_misread :
    (∃ y, Code (fun _ => True) .start "i++ / 2".toList y) ∧ findClosingBrace "i++ / 2\x7d".toList 0 = .ok none ∧
    (∃ y, Code (fun _ => True) .start "a! / 2".toList y) ∧ findClosingBrace "a! / 2\x7d".toList 0 = .ok none ∧
    (∃ y, Code (fun _ => True) .start "typeof /\x7d/".toList y) ∧
      findClosingBrace "typeof /\x7d/\x7d".toList 0 = .ok (some 8) ∧
    (Markup.read "<p>\x7bi++ / 2\x7d</p>").faults = [⟨.unclosedExpression, ⟨3, 16⟩⟩, ⟨.unclosedTag "p", ⟨0, 16⟩⟩] := by
  have hclosing (text : String) :
      findClosingBrace text.toList 0 = .ok ((Embedded.split? text.toList).map fun x => 0 + width x.1) :=
    (Cursor.on_ofText text.toList).findClosingBrace
  have htwo {x : Context} : Code (fun _ => True) x [' ', '2'] ⟨.operand, '2', false⟩ :=
    .blank rfl (.word (w := ['2']) (by decide) (forall_mem_of_all rfl) nofun .nil)
  have hupdated : Code (fun _ => True) .start "i++ / 2".toList ⟨.operand, '2', false⟩ :=
    .word (w := ['i']) (by decide) (forall_mem_of_all rfl) (by simp; decide)
      (.update (.inl rfl) (.blank rfl (.division trivial (by decide +kernel) (by decide) (by decide) htwo)))
  have hmarked : Code (fun _ => True) .start "a! / 2".toList ⟨.operand, '2', false⟩ :=
    .word (w := ['a']) (by decide) (forall_mem_of_all rfl) (by simp; decide)
      (.bang (.blank rfl (.division trivial (by decide +kernel) (by decide) (by decide) htwo)))
  have hregex : Code (fun _ => True) .start "typeof /\x7d/".toList ⟨.operand, '/', false⟩ :=
    .word (w := "typeof".toList) (by decide) (forall_mem_of_all rfl) (by simp; decide) (.blank rfl
      (@Code.regex _ _ _ ['\x7d'] [] [] trivial (by decide +kernel) (.char (by decide) .nil) (by decide) (by decide)
        nofun .nil))
  refine ⟨⟨_, hupdated⟩, ?_, ⟨_, hmarked⟩, ?_, ⟨_, hregex⟩, ?_, by decide +kernel⟩ <;> rw [hclosing] <;> rfl

end Offsets

end Restyle.Markup
