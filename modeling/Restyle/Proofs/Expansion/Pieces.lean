import Mathlib.Algebra.BigOperators.Group.List.Basic
import Restyle.Proofs.Expansion.Arguments
import Restyle.Proofs.Expansion.Statements
import Restyle.Proofs.Offsets.Bodies

/-! The pieces that a list in the generated code has, where commas separate them that are outside of brackets,
strings and templates. Texts that are closed by a brace behind them keep their pieces in a list, so an
argument of a call is one piece of it if it has no comma outside, and so is a definition. -/

namespace Restyle

open Markup Text

/-! ### Commas outside -/

namespace Markup.Embedded.Scanner

variable {s t s' : Scanner} {c : Char} {next : Option Char} {raw rest : List Char}

/-- The next character is one of the code, and nothing is open. -/
def AtTop (s : Scanner) : Prop := s.mode = .plain ∧ s.escaped = false ∧ s.nests = []

instance (s : Scanner) : Decidable s.AtTop := inferInstanceAs (Decidable (_ ∧ _ ∧ _))

/-- The number of commas in the code, while nothing is open. -/
def commas (s : Scanner) : List Char → Nat
  | [] => 0
  | c :: cs =>
    match s.step c cs.head? with
    | none => 0
    | some s' => (if c = ',' ∧ s.AtTop then 1 else 0) + s'.commas cs

/-- The states differ in the last significant character alone, and a slash has the same meaning in both. -/
def Alike (s t : Scanner) : Prop := ∃ last, t = { s with last } ∧ startsRegex last = startsRegex s.last

theorem Alike.refl (s : Scanner) : s.Alike s := ⟨s.last, rfl, rfl⟩

theorem Alike.mk {last : Char} (h : startsRegex last = startsRegex s.last) : s.Alike { s with last } := ⟨last, rfl, h⟩

theorem Alike.ite {b : Prop} [Decidable b] {s' t' : Scanner} (h : s.Alike t) (h' : s'.Alike t') :
    (if b then s else s').Alike (if b then t else t') := by
  split
  · exact h
  · exact h'

theorem Alike.seen (h : s.Alike t) (c : Char) : (s.seen c).Alike (t.seen c) := by
  obtain ⟨last, rfl, hlast⟩ := h
  unfold Scanner.seen
  split
  · exact ⟨last, rfl, hlast⟩
  · exact .refl _

theorem Alike.stepTemplate (h : s.Alike t) (c : Char) : (s.stepTemplate c).Alike (t.stepTemplate c) := by
  obtain ⟨last, rfl, hlast⟩ := h
  unfold Scanner.stepTemplate
  split
  · exact ⟨last, rfl, hlast⟩
  · split
    · exact .refl _
    · dsimp only
      split
      · exact .refl _
      · exact ⟨last, rfl, hlast⟩

theorem Alike.stepCode (h : s.Alike t) (c : Char) (next : Option Char) : (s.stepCode c next).Alike (t.stepCode c next) := by
  have hseen := h.seen c
  obtain ⟨last, rfl, hlast⟩ := h
  obtain ⟨last', hseen', hlast'⟩ := hseen
  unfold Scanner.stepCode
  rw [hseen', hlast]
  refine .ite (.mk hlast') (.ite (.mk hlast') (.ite (.mk hlast) (.ite (.mk hlast) (.ite (.mk hlast') ?_))))
  exact .ite (.mk hlast') (.ite (.mk hlast') (.ite (.mk hlast') (.ite (.mk hlast') (.mk hlast'))))

theorem Alike.stepBrace (h : s.Alike t) : Option.Rel Alike s.stepBrace t.stepBrace := by
  have hseen := h.seen '\x7d'
  obtain ⟨last, rfl, hlast⟩ := h
  obtain ⟨last', hseen', hlast'⟩ := hseen
  unfold Scanner.stepBrace
  dsimp only
  split
  · exact .none
  · exact .some ⟨last, rfl, hlast⟩
  · rw [hseen']
    exact .some ⟨last', rfl, hlast'⟩

theorem Alike.step (h : s.Alike t) (c : Char) (next : Option Char) : Option.Rel Alike (s.step c next) (t.step c next) := by
  have htemplate := h.stepTemplate c
  have hcode := h.stepCode c next
  have hbrace := h.stepBrace
  obtain ⟨last, rfl, hlast⟩ := h
  unfold Scanner.step
  by_cases hescaped : s.escaped = true
  · rw [if_pos hescaped, if_pos hescaped]
    exact .some ⟨last, rfl, hlast⟩
  · rw [if_neg hescaped, if_neg hescaped]
    dsimp only
    split
    · split_ifs
      · exact .some htemplate
      · exact hbrace
      · exact .some hcode
    · split_ifs <;> exact .some ⟨last, rfl, hlast⟩
    · split_ifs <;> exact .some ⟨last, rfl, hlast⟩
    · exact .some ⟨last, rfl, hlast⟩
    · exact .some ⟨last, rfl, hlast⟩
    · split_ifs <;> exact .some ⟨last, rfl, hlast⟩

theorem Alike.commas_eq (h : s.Alike t) (cs : List Char) : s.commas cs = t.commas cs := by
  induction cs generalizing s t with
  | nil => rfl
  | cons c cs ih =>
    have htop : t.AtTop ↔ s.AtTop := by
      obtain ⟨last, rfl, -⟩ := h
      exact Iff.rfl
    have hstep := h.step c cs.head?
    unfold commas
    generalize s.step c cs.head? = left at hstep
    generalize t.step c cs.head? = right at hstep
    cases hstep with
    | none => rfl
    | some hs => simp only [htop, ih hs]

/-- A dollar sign counts in the text of a template alone. -/
def Settled (s : Scanner) : Prop := s.dollar = true → s.nests.head? = some .template

theorem dollar_seen (s : Scanner) (c : Char) : (s.seen c).dollar = s.dollar := by
  unfold seen
  split <;> rfl

theorem dollar_stepCode (s : Scanner) (c : Char) (next : Option Char) : (s.stepCode c next).dollar = s.dollar := by
  simp only [stepCode, apply_ite dollar, dollar_seen, ite_self]

theorem dollar_stepBrace (h : s.stepBrace = some s') : s'.dollar = s.dollar := by
  unfold stepBrace at h
  split at h
  · cases h
  · cases h
    rfl
  · cases h
    exact dollar_seen s '\x7d'

theorem Settled.stepTemplate (h : s.nests.head? = some .template) (c : Char) : (s.stepTemplate c).Settled := by
  unfold Scanner.stepTemplate
  split
  · exact nofun
  · split
    · exact nofun
    · split
      · exact nofun
      · exact fun _ => h

theorem Settled.step (h : s.Settled) (hstep : s.step c next = some s') : s'.Settled := by
  have hcode (hnests : s.nests.head? ≠ some .template) (hdollar : s'.dollar = s.dollar) : s'.Settled :=
    fun htrue => absurd (h (hdollar ▸ htrue)) hnests
  unfold Scanner.step at hstep
  split at hstep
  · cases hstep
    exact h
  · split at hstep
    · split at hstep
      · next htemplate =>
        cases hstep
        exact .stepTemplate htemplate c
      · next hnests =>
        split at hstep
        · exact hcode hnests (dollar_stepBrace hstep)
        · cases hstep
          exact hcode hnests (dollar_stepCode s c next)
    -- in a string, a comment or a regular expression nothing is opened
    all_goals
      repeat' split at hstep
      all_goals
        cases hstep
        exact h

/-- The character behind counts if a comment may begin. -/
theorem step_of_opensNoComment (hslash : next ≠ some '/') (hstar : next ≠ some '*') : s.step c next = s.step c none := by
  have hcode : s.stepCode c next = s.stepCode c none := by
    simp [stepCode, hslash, hstar]
  unfold Scanner.step
  rw [hcode]

theorem commas_cons_of_step (hstep : s.step c rest.head? = some s') :
    s.commas (c :: rest) = (if c = ',' ∧ s.AtTop then 1 else 0) + s'.commas rest := by
  rw [commas, hstep]

theorem commas_cons_of_ne (hc : c ≠ ',') (hstep : s.step c rest.head? = some s') :
    s.commas (c :: rest) = s'.commas rest := by
  rw [commas_cons_of_step hstep, if_neg fun h => hc h.1, Nat.zero_add]

theorem commas_cons_of_mode (hmode : s.mode ≠ .plain) (hstep : s.step c rest.head? = some s') :
    s.commas (c :: rest) = s'.commas rest := by
  rw [commas_cons_of_step hstep, if_neg fun h => hmode h.2.1, Nat.zero_add]

/-- Only in the code where nothing is open a brace closes. -/
theorem atTop_of_step_eq_none (h : s.step c next = none) : s.AtTop := by
  unfold Scanner.step at h
  split at h
  · cases h
  · next hescaped =>
    split at h
    · next hmode =>
      split at h
      · cases h
      · split at h
        · unfold stepBrace at h
          split at h
          · next hnests => exact ⟨hmode, Bool.not_eq_true _ ▸ hescaped, hnests⟩
          · cases h
          · cases h
        · cases h
    · split at h
      · cases h
      · split at h <;> cases h
    · cases h
    · cases h
    · cases h
    · repeat' split at h
      all_goals cases h

/-- A comma in the code where nothing is open leaves nothing else behind. -/
theorem step_comma (hs : s.Settled) (htop : s.AtTop) (next : Option Char) :
    s.step ',' next = some { last := ',' } := by
  obtain ⟨mode, escaped, dollar, nests, last⟩ := s
  obtain ⟨rfl, rfl, rfl⟩ := htop
  cases dollar with
  | true => cases hs rfl
  | false => rfl

theorem step_head?_append (hne : c ≠ '/' ∧ c ≠ '*') (d : Char) (raw rest : List Char) :
    s.step d (raw ++ c :: rest).head? = s.step d raw.head? := by
  cases raw with
  | nil => exact step_of_opensNoComment (by simpa using hne.1) (by simpa using hne.2)
  | cons e raw => rfl

/-- Where only a brace is missing to close a text, a comma takes its place. -/
theorem commas_append (hs : s.Settled) (h : s.split? (raw ++ ['\x7d']) = some (raw, [])) (rest : List Char) :
    s.commas (raw ++ ',' :: rest) = s.commas raw + (1 + ({ last := ',' } : Scanner).commas rest) := by
  induction raw generalizing s with
  | nil =>
    have htop : s.AtTop := by
      rw [List.nil_append, split?] at h
      split at h
      · next hstep => exact atTop_of_step_eq_none hstep
      · cases h
    rw [List.nil_append, commas_cons_of_step (step_comma hs htop _), if_pos ⟨rfl, htop⟩]
    exact (Nat.zero_add _).symm
  | cons c raw ih =>
    rw [List.cons_append, split?, step_head?_append (by decide)] at h
    split at h
    · cases h
    · next s' hstep =>
      obtain ⟨⟨a, b⟩, hsplit, heq⟩ := Option.map_eq_some_iff.1 h
      cases heq
      have hstep' : s.step c (raw ++ ',' :: rest).head? = some s' := by rw [step_head?_append (by decide), hstep]
      rw [List.cons_append, commas_cons_of_step hstep', commas_cons_of_step hstep, ih (hs.step hstep) hsplit]
      omega

theorem Alike.split?_eq (h : s.Alike t) (cs : List Char) : s.split? cs = t.split? cs := by
  induction cs generalizing s t with
  | nil => rfl
  | cons c cs ih =>
    have hstep := h.step c cs.head?
    unfold split?
    generalize s.step c cs.head? = left at hstep
    generalize t.step c cs.head? = right at hstep
    cases hstep with
    | none => rfl
    | some hs => simp only [ih hs]

theorem alike_of_startsRegex {a b : Char} (h : startsRegex b = startsRegex a) : Alike { last := a } { last := b } :=
  ⟨b, rfl, h⟩

/-- Behind a comma and a blank nothing is known but that an expression may begin. -/
theorem commas_of_separated (h : Closed raw) (rest : List Char) :
    ({} : Scanner).commas (raw ++ ',' :: ' ' :: rest) = ({} : Scanner).commas raw + (1 + ({} : Scanner).commas rest) := by
  have hsettled : ({} : Scanner).Settled := nofun
  have hblank : ({ last := ',' } : Scanner).commas (' ' :: rest) = ({ last := ',' } : Scanner).commas rest :=
    commas_cons_of_ne (by decide) rfl
  rw [commas_append hsettled h, hblank, (alike_of_startsRegex (a := ',') (b := '(') (by decide)).commas_eq]

theorem commas_quoted {text : List Char} (h : ∀ c ∈ text, c ≠ '\\' ∧ c ≠ '"') :
    ({ mode := .quoted '"', last := '"' } : Scanner).commas (text ++ '"' :: rest) =
      ({ last := '"' } : Scanner).commas rest := by
  induction text with
  | nil => exact commas_cons_of_ne (by decide) rfl
  | cons c text ih =>
    obtain ⟨hslash, hquote⟩ := h c (List.mem_cons_self ..)
    have hmode : Mode.quoted '"' ≠ .plain := nofun
    have hstep (next : Option Char) : Scanner.step { mode := .quoted '"', last := '"' } c next =
        some { mode := .quoted '"', last := '"' } := by
      simp [Scanner.step, hslash, hquote]
    rw [List.cons_append, commas_cons_of_mode hmode (hstep _)]
    exact ih fun d hd => h d (List.mem_cons_of_mem c hd)

/-- The key of a member has no comma outside, and behind its colon an expression may begin. -/
theorem commas_member {key : List Char} (h : ∀ c ∈ key, c ≠ '\\' ∧ c ≠ '"') :
    ({} : Scanner).commas ('"' :: (key ++ '"' :: ':' :: ' ' :: rest)) = ({} : Scanner).commas rest :=
  calc ({} : Scanner).commas ('"' :: (key ++ '"' :: ':' :: ' ' :: rest))
    _ = Scanner.commas { mode := .quoted '"', last := '"' } (key ++ '"' :: ':' :: ' ' :: rest) :=
      commas_cons_of_ne (by decide) rfl
    _ = Scanner.commas { last := '"' } (':' :: ' ' :: rest) := commas_quoted h
    _ = Scanner.commas { last := ':' } (' ' :: rest) := commas_cons_of_ne (by decide) rfl
    _ = Scanner.commas { last := ':' } rest := commas_cons_of_ne (by decide) rfl
    _ = ({} : Scanner).commas rest := (alike_of_startsRegex (by decide)).commas_eq rest

end Markup.Embedded.Scanner

/-! ### Lists -/

/-- The number of pieces of a list: the commas separate them that are outside of brackets, strings and
templates. -/
def pieces (list : String) : Nat := ({} : Embedded.Scanner).commas list.toList + 1

theorem pieces_separated {text : String} (h : Embedded.Closed text.toList) (list : String) :
    pieces (text ++ ", " ++ list) = pieces text + pieces list := by
  have hlist : (text ++ ", " ++ list).toList = text.toList ++ ',' :: ' ' :: list.toList := by simp
  rw [pieces, hlist, Embedded.Scanner.commas_of_separated h, pieces, pieces]
  omega

/-- A list has the pieces of its members. -/
theorem pieces_intercalate {texts : List String} (hne : texts ≠ []) (h : ∀ text ∈ texts, Embedded.Closed text.toList) :
    pieces (String.intercalate ", " texts) = (texts.map pieces).sum := by
  induction texts with
  | nil => exact absurd rfl hne
  | cons text texts ih =>
    cases texts with
    | nil => simp
    | cons text' texts =>
      rw [String.intercalate_cons_cons, pieces_separated (h _ (List.mem_cons_self ..)),
        ih (by simp) fun text ht => h text (List.mem_cons_of_mem _ ht)]
      rfl

theorem sum_eq_length_iff {β : Type} {xs : List β} {size : β → Nat} (h : ∀ x ∈ xs, 1 ≤ size x) :
    (xs.map size).sum = xs.length ↔ ∀ x ∈ xs, size x = 1 := by
  induction xs with
  | nil => simp
  | cons x xs ih =>
    have hmore := ih fun y hy => h y (List.mem_cons_of_mem x hy)
    have hx := h x (List.mem_cons_self ..)
    have hle : xs.length ≤ (xs.map size).sum := by
      simpa using List.length_le_sum_of_one_le (xs.map size) (by simpa using fun y hy => h y (List.mem_cons_of_mem x hy))
    rw [List.map_cons, List.sum_cons, List.length_cons, List.forall_mem_cons, ← hmore]
    omega

/-- Texts in a list are as many pieces as they are texts just if none of them has a comma outside. -/
theorem pieces_intercalate_eq_length_iff {texts : List String} (hne : texts ≠ [])
    (h : ∀ text ∈ texts, Embedded.Closed text.toList) :
    pieces (String.intercalate ", " texts) = texts.length ↔ ∀ text ∈ texts, pieces text = 1 := by
  rw [pieces_intercalate hne h]
  exact sum_eq_length_iff fun text _ => Nat.succ_le_succ (Nat.zero_le _)

/-! ### Generated lists -/

section Generated

open Embedded
open Offsets (Ordinary plain step_ordinary)

variable {o : Options} {f : SourceFile} {e : ElementView} {raw : List Char} {last : Char}

theorem exists_body_of_ordinary (h : ∀ c ∈ raw, Ordinary c) (last : Char) : ∃ last', Body last raw last' := by
  induction raw generalizing last with
  | nil => exact ⟨last, .nil⟩
  | cons c raw ih =>
    obtain ⟨last', hbody⟩ := ih (fun d hd => h d (List.mem_cons_of_mem c hd)) (if isBlank c then last else c)
    exact ⟨last', .char (h c (List.mem_cons_self ..)) hbody⟩

theorem commas_of_ordinary (h : ∀ c ∈ raw, Ordinary c ∧ c ≠ ',') (last : Char) : (plain [] last).commas raw = 0 := by
  induction raw generalizing last with
  | nil => rfl
  | cons c raw ih =>
    obtain ⟨hc, hcomma⟩ := h c (List.mem_cons_self ..)
    rw [Scanner.commas_cons_of_ne hcomma (step_ordinary last _ hc (by simp))]
    exact ih (fun d hd => h d (List.mem_cons_of_mem c hd)) _

/-- A character of names and references. -/
theorem ordinary_of_plain {c : Char} (h : (c.isAlphanum = true ∨ c = '_' ∨ c = '$') ∨ c = '.') :
    Ordinary c ∧ c ≠ ',' := by
  have hnone : ∀ d ∈ [',', '\'', '"', '`', '/', '\x7b', '(', '[', ')', ']', '\x7d'],
      ¬ ((d.isAlphanum = true ∨ d = '_' ∨ d = '$') ∨ d = '.') := forall_mem_of_all rfl
  exact ⟨fun hmem => hnone c (List.mem_cons_of_mem _ hmem) h, fun hc => hnone c (hc ▸ List.mem_cons_self ..) h⟩

/-- The reference to a definition is one piece. -/
theorem closed_reference (ho : o.invalid? = none) (f : SourceFile) (e : ElementView) (definition : Expression) :
    Closed (e.reference o f definition).toList ∧ pieces (e.reference o f definition) = 1 := by
  have hplain : ∀ c ∈ (e.reference o f definition).toList, Ordinary c ∧ c ≠ ',' := by
    have hvariable := isPlainIdentifier_cases (isPlainIdentifier_of_valid ho (n := .hoistVariable) (by decide) rfl)
    obtain ⟨tag, htag, hname⟩ := Hoisted.nameOf_eq f e.name definition
    have hlist : (e.reference o f definition).toList =
        o.hoistVariable.toList ++ '.' :: (Hoisted.nameOf f e.name definition).toList := by
      simp [ElementView.reference]
    rw [hlist, hname]
    intro c hc
    refine ordinary_of_plain ?_
    rcases List.mem_append.1 hc with hc | hc
    · exact .inl (hvariable c hc)
    · rcases List.mem_cons.1 hc with rfl | hc
      · exact .inr rfl
      · exact .inl (Hoisted.plain_nameAt htag _ c hc)
  obtain ⟨last, hbody⟩ := exists_body_of_ordinary (fun c hc => (hplain c hc).1) '('
  exact ⟨hbody.split? [], congrArg Nat.succ (commas_of_ordinary hplain '(')⟩

/-- A member with a quoted key is a piece as its value is. -/
theorem closed_member {key value : List Char} (hkey : ∀ c ∈ key, c ≠ '\\' ∧ c ≠ '"') (h : Closed value) :
    Closed ('"' :: (key ++ '"' :: ':' :: ' ' :: value)) := by
  have htext : StringText '"' key := by
    induction key with
    | nil => exact .nil
    | cons c key ih => exact .bare (hkey c (List.mem_cons_self ..)) (ih fun d hd => hkey d (List.mem_cons_of_mem c hd))
  have hopening : (plain [] '(').Leads (plain [] ':') ('"' :: (key ++ ['"']) ++ [':', ' ']) (value ++ ['\x7d']) :=
    (Body.leads_string (by simp) (.inr rfl) htext _).trans (.cons rfl (Scanner.leads_step rfl))
  have hvalue : (plain [] ':').split? (value ++ ['\x7d']) = some (value, []) :=
    ((Scanner.alike_of_startsRegex (by decide)).split?_eq _).trans h
  rw [Scanner.Leads, hvalue] at hopening
  show (plain [] '(').split? _ = _
  simpa using hopening

variable [Script.ExpressionReader]

/-- A call has as many pieces as arguments just if no given one has a comma outside. -/
theorem pieces_callArguments (ho : o.invalid? = none) (hne : e.callArguments o f ≠ [])
    (h : ∀ text ∈ e.given o f, Closed text.toList) :
    pieces (String.intercalate ", " (e.callArguments o f)) = (e.callArguments o f).length ↔
      ∀ text ∈ e.given o f, pieces text = 1 := by
  have hmem : ∀ text ∈ e.callArguments o f,
      text ∈ e.given o f ∨ ∃ definition, text = e.reference o f definition := by
    intro text htext
    rw [ElementView.callArguments] at htext
    split at htext
    · exact .inl htext
    · next definition _ =>
      rcases (List.mem_insertIdx (index_le o f e)).1 htext with heq | htext
      · exact .inr ⟨definition, heq⟩
      · exact .inl htext
  have hgiven : ∀ text ∈ e.given o f, text ∈ e.callArguments o f := by
    intro text htext
    rw [ElementView.callArguments]
    split
    · exact htext
    · exact (List.mem_insertIdx (index_le o f e)).2 (.inr htext)
  have hclosed : ∀ text ∈ e.callArguments o f, Closed text.toList := by
    intro text htext
    rcases hmem text htext with htext | ⟨definition, rfl⟩
    · exact h text htext
    · exact (closed_reference ho f e definition).1
  rw [pieces_intercalate_eq_length_iff hne hclosed]
  refine ⟨fun hone text htext => hone text (hgiven text htext), fun hone text htext => ?_⟩
  rcases hmem text htext with htext | ⟨definition, rfl⟩
  · exact hone text htext
  · exact (closed_reference ho f e definition).2

/-- The declaration has as many pieces as definitions just if none of these has a comma outside. -/
theorem pieces_hoists (hne : hoists o f (read f.text).document ≠ [])
    (h : ∀ definition ∈ hoists o f (read f.text).document, Closed definition.text.toList) :
    pieces (String.intercalate ", " ((hoists o f (read f.text).document).map fun h => Json.quote h.name ++ ": " ++ h.text)) =
        (hoists o f (read f.text).document).length ↔
      ∀ definition ∈ hoists o f (read f.text).document, pieces definition.text = 1 := by
  have hmember : ∀ definition ∈ hoists o f (read f.text).document,
      Closed (Json.quote definition.name ++ ": " ++ definition.text).toList ∧
        pieces (Json.quote definition.name ++ ": " ++ definition.text) = pieces definition.text := by
    intro definition hdefinition
    obtain ⟨p, hp, hh⟩ := List.mem_filterMap.1 hdefinition
    obtain ⟨create, -, rfl⟩ := Option.map_eq_some_iff.1 hh
    obtain ⟨tag, htag, hname⟩ := Hoisted.nameOf_eq f p.tag create.value
    have hkey : ∀ c ∈ (Hoisted.nameAt tag (f.location create.value.span.start)).toList, c ≠ '\\' ∧ c ≠ '"' := by
      intro c hc
      have hplain := Hoisted.plain_nameAt htag _ c hc
      constructor <;> rintro rfl <;> exact absurd hplain (by decide)
    have hlist : (Json.quote (Hoisted.nameOf f p.tag create.value) ++ ": " ++ create.value.text).toList =
        '"' :: ((Hoisted.nameAt tag (f.location create.value.span.start)).toList ++
          '"' :: ':' :: ' ' :: create.value.text.toList) := by
      rw [hname, Hoisted.quote_nameAt htag]
      simp
    dsimp only
    rw [pieces, hlist, Scanner.commas_member hkey]
    exact ⟨closed_member hkey (h _ hdefinition), rfl⟩
  have hlength : (hoists o f (read f.text).document).length =
      ((hoists o f (read f.text).document).map fun h => Json.quote h.name ++ ": " ++ h.text).length :=
    (List.length_map ..).symm
  rw [hlength, pieces_intercalate_eq_length_iff (by simpa using hne) (List.forall_mem_map.2 fun d hd => (hmember d hd).1),
    List.forall_mem_map]
  exact forall₂_congr fun d hd => by rw [(hmember d hd).2]

end Generated

/-- A file with a sequence of two expressions for the runtime. -/
def sequenceFile : SourceFile := ⟨none, "<div stylex=\x7ba, b\x7d></div>"⟩

/-- A sequence is no array, it is given as one argument, and is two of them in the call. -/
theorem pieces_sequenceFile : ∃ x e, (({} : Journal).expand {} sequenceFile).1 = .ok (some x) ∧
    x.code = "<script>import * as __stylex from \"@stylexjs/stylex\";</script>"
      ++ "<div \x7b...__stylex.attrs(a, b)\x7d></div>" ∧
    e ∈ (read sequenceFile.text).document.fragment.elements ∧
    (e.last? ({} : Options).given?).map (fun value => (Script.Shape.ofText? value.text).toOption) = some (some .other) ∧
    e.callArguments {} sequenceFile = ["a, b"] ∧ Embedded.Closed "a, b".toList ∧ pieces "a, b" = 2 := by
  have hcode : (({} : Journal).expand {} sequenceFile).1.toOption.join.map Expanded.code =
      some ("<script>import * as __stylex from \"@stylexjs/stylex\";</script>"
        ++ "<div \x7b...__stylex.attrs(a, b)\x7d></div>") := by decide +kernel
  obtain ⟨x, hx, hcode⟩ := exists_expanded hcode
  have helements : (read sequenceFile.text).document.fragment.elements.map
      (fun e => ((e.last? ({} : Options).given?).map fun value => (Script.Shape.ofText? value.text).toOption,
        e.callArguments {} sequenceFile)) = [(some (some .other), ["a, b"])] := by decide +kernel
  obtain ⟨e, he, heq⟩ := List.mem_map.1 (helements ▸ List.mem_singleton_self _)
  obtain ⟨hshape, harguments⟩ := Prod.mk.inj heq
  exact ⟨x, e, hx, hcode, he, hshape, harguments, rfl, by decide +kernel⟩

/-- A file with a definition that has no text. -/
def blankFile : SourceFile := ⟨none, "<p stylex-create=\x7b\x7d/>"⟩

/-- A definition without text leaves a key without a value. -/
theorem hoists_blankFile : (({} : Journal).expand {} blankFile).1.toOption.join.map Expanded.code =
      some ("<script module>const __styles = __stylex.create(\x7b\"p$1_18\": \x7d);</script>"
        ++ "<script>import * as __stylex from \"@stylexjs/stylex\";</script>"
        ++ "<p \x7b...__stylex.attrs(__styles.p$1_18)\x7d/>") ∧
    (hoists {} blankFile (read blankFile.text).document).map Hoisted.text = [""] := by
  constructor <;> decide +kernel

end Restyle
