import Restyle.Proofs.Expansion.Amending
import Restyle.Script.Module

/-! The names that generated code declares: the import declares that of the runtime, the declaration of the definitions
that of their constant. Both are read off the tokens of the statements. Two names can be declared in one module if they
are different and neither is reserved there; options are not checked for that. -/

namespace Restyle

open Markup Text

/-! ### Reading names -/

namespace Script

theorem continuesIdentifier_of_plain {c : Char} (h : c.isAlphanum = true ∨ c = '_' ∨ c = '$') :
    continuesIdentifier c = true := by
  rcases h with h | rfl | rfl
  · have hrange := range_of_isAlphanum h
    rw [continuesIdentifier, if_pos (by omega), h]
    rfl
  · rfl
  · rfl

/-- A word ends where no letter goes on. -/
theorem WordRun.read_append {name rest : List Char} {steps : Nat} (hname : ∀ c ∈ name, continuesIdentifier c = true)
    (hrest : ∀ c ∈ rest.head?, continuesIdentifier c = false ∧ c ≠ '\\') (hsteps : name.length ≤ steps) :
    WordRun.read steps (name ++ rest) = { name, length := name.length } := by
  induction name generalizing steps with
  | nil =>
    cases rest with
    | nil => cases steps <;> rfl
    | cons c rest =>
      obtain ⟨hc, hslash⟩ := hrest c rfl
      cases steps with
      | zero => rfl
      | succ steps => simp [WordRun.read, hc, hslash]
  | cons c name ih =>
    obtain ⟨hc, hname⟩ := List.forall_mem_cons.1 hname
    obtain ⟨steps, rfl⟩ : ∃ n, steps = n + 1 := ⟨steps - 1, by rw [List.length_cons] at hsteps; omega⟩
    have hmore := ih hname (Nat.le_of_succ_le_succ hsteps)
    rw [List.cons_append, WordRun.read, if_pos hc, hmore]
    rfl

/-- The number of bytes before does not matter for the text behind a gap. -/
theorem Gap.rest_skip (mode : GapMode) (lineBreak : Bool) (skipped : Nat) (cs : List Char) :
    (Gap.skip mode lineBreak skipped cs).rest = (Gap.skip mode lineBreak 0 cs).rest := by
  induction cs generalizing mode lineBreak skipped with
  | nil => rfl
  | cons c cs ih =>
    cases mode <;> simp only [Gap.skip]
    case space => split_ifs <;> first | rfl | rw [ih, ih _ _ (0 + _)]
    all_goals rw [ih, ih _ _ (0 + _)]

/-- Characters that begin another token or a gap. -/
def otherHeads : List Char := ['"', '\'', '.', '/', '<', '\\', '\u200b', '\ufeff']

/-- They are none of a name. -/
theorem ne_of_plain {c d : Char} (h : c.isAlphanum = true ∨ c = '_' ∨ c = '$') (hd : d ∈ otherHeads) : c ≠ d := by
  have hnone : ∀ d ∈ otherHeads, ¬ (d.isAlphanum = true ∨ d = '_' ∨ d = '$') := forall_mem_of_all rfl
  rintro rfl
  exact hnone c hd h

/-- A name begins with a letter or one of two marks. -/
theorem startsIdentifier_of_plain {c : Char} (h : c.isAlpha = true ∨ c = '_' ∨ c = '$') :
    startsIdentifier c = true ∧ c.isDigit = false := by
  rcases h with h | rfl | rfl
  · have hrange := range_of_isAlphanum (c := c) (by simp [Char.isAlphanum, h])
    refine ⟨by rw [startsIdentifier, if_pos (by omega), h]; rfl, ?_⟩
    have hdigit : c.isDigit = (decide (c.val ≥ '0'.val) && decide (c.val ≤ '9'.val)) := rfl
    have halpha : (decide (c.val ≥ 'A'.val ∧ c.val ≤ 'Z'.val) || c.val ≥ 'a'.val && c.val ≤ 'z'.val) = true := h
    have hnine : '9'.val.toNat < 'A'.val.toNat ∧ '9'.val.toNat < 'a'.val.toNat := by decide
    simp only [Bool.or_eq_true, Bool.and_eq_true, decide_eq_true_eq, ge_iff_le, UInt32.le_iff_toNat_le] at halpha
    simp only [hdigit, Bool.and_eq_false_iff, decide_eq_false_iff_not, ge_iff_le, UInt32.le_iff_toNat_le]
    omega
  · decide
  · decide

/-- A plain name is the token in front of a text that does not go on with it. -/
theorem Lexeme.read_name {name rest : List Char} (h : isPlainIdentifier name = true)
    (hrest : ∀ c ∈ rest.head?, continuesIdentifier c = false ∧ c ≠ '\\') :
    Lexeme.read (name ++ rest) = ⟨.word (String.ofList name) false, name.length, []⟩ := by
  have hplain := isPlainIdentifier_cases h
  have hrun : WordRun.read (name ++ rest).length (name ++ rest) = { name, length := name.length } :=
    WordRun.read_append (fun c hc => continuesIdentifier_of_plain (hplain c hc)) hrest (by simp)
  have hword : readWord (name ++ rest) = ⟨.word (String.ofList name) false, name.length, []⟩ := by
    rw [readWord, hrun]
    rfl
  rw [← hword]
  cases name with
  | nil => cases h
  | cons c name =>
    simp only [isPlainIdentifier, Bool.and_eq_true, Bool.or_eq_true, beq_iff_eq, or_assoc] at h
    obtain ⟨hstarts, hdigit⟩ := startsIdentifier_of_plain h.1
    have hne : ∀ d ∈ otherHeads, c ≠ d := fun d => ne_of_plain (hplain c (List.mem_cons_self ..))
    simp only [otherHeads, List.forall_mem_cons] at hne
    simp [Lexeme.read, hstarts, hdigit, hne]

/-- The first tokens of a text. -/
def tokens : Nat → List Char → List Token
  | 0, _ => []
  | n + 1, cs =>
    let source := (Gap.ofText cs).rest
    let l := Lexeme.read source
    l.token :: tokens n (source.drop l.length)

theorem tokens_space (n : Nat) (cs : List Char) : tokens n (' ' :: cs) = tokens n cs := by
  have hgap : (Gap.ofText (' ' :: cs)).rest = (Gap.ofText cs).rest := Gap.rest_skip .space false _ cs
  cases n with
  | zero => rfl
  | succ n => rw [tokens, tokens, hgap]

theorem tokens_name {name : List Char} (h : isPlainIdentifier name = true) (n : Nat) (rest : List Char) :
    tokens (n + 1) (name ++ ' ' :: rest) = .word (String.ofList name) false :: tokens n rest := by
  have hgap : (Gap.ofText (name ++ ' ' :: rest)).rest = name ++ ' ' :: rest := by
    cases name with
    | nil => cases h
    | cons c name =>
      have hplain := isPlainIdentifier_cases h c (List.mem_cons_self ..)
      have hslash : c ≠ '/' := ne_of_plain hplain (by decide)
      have hangle : '<' ≠ c := (ne_of_plain hplain (by decide)).symm
      have hzero : c ≠ '\u200b' ∧ c ≠ '\ufeff' := ⟨ne_of_plain hplain (by decide), ne_of_plain hplain (by decide)⟩
      have hgap : isGap c = false := by simp [isGap, isSpace_of_plain hplain, hzero]
      have hmark : beginsMarkupComment false (c :: (name ++ ' ' :: rest)) = false := by
        simp [beginsMarkupComment, startsWith, strip?, hangle]
      simp [Gap.ofText, Gap.skip, hgap, hslash, hmark]
  rw [tokens, hgap, Lexeme.read_name h (by simp; decide), ← tokens_space n rest]
  simp

/-- The name that a namespace import or a constant declares. -/
def declared? (statement : String) : Option Token :=
  match tokens 4 statement.toList with
  | [.word "import" false, .mark "*", .word "as" false, name] | .word "const" false :: name :: _ => some name
  | _ => none

/-- The context of the items of a module. -/
def moduleContext : Context := { types := false, module := true, strict := true, limit := 0 }

/-- Statements of one module declare names, and different ones. -/
def Declarable (statements : List String) : Prop :=
  ∃ names : List Token, statements.map declared? = names.map some ∧ names.Nodup ∧
    ∀ name ∈ names, moduleContext.isName name = true

end Script

/-! ### The declarations of an expansion -/

section Statements

open Script

variable {o : Options}

theorem declared?_importStatement (ho : o.invalid? = none) :
    declared? o.importStatement = some (.word o.runtimeAlias false) := by
  have halias := isPlainIdentifier_of_valid ho (n := .runtimeAlias) (by decide) rfl
  have hstatement : o.importStatement =
      "import * as " ++ o.runtimeAlias ++ " from " ++ Json.quote o.importSource ++ ";" := rfl
  have hlist : o.importStatement.toList = "import".toList ++ ' ' :: '*' :: ' ' :: ("as".toList
      ++ ' ' :: (o.runtimeAlias.toList ++ ' ' :: ("from " ++ Json.quote o.importSource ++ ";").toList)) := by
    simp [hstatement]
  have hstar (n : Nat) (cs : List Char) : tokens (n + 1) ('*' :: ' ' :: cs) = .mark "*" :: tokens n (' ' :: cs) := rfl
  rw [declared?, hlist, tokens_name (by decide), hstar, tokens_space, tokens_name (by decide), tokens_name halias,
    tokens]
  simp

theorem declared?_hoistDeclaration (ho : o.invalid? = none) (definitions : List Hoisted) :
    declared? (o.hoistDeclaration definitions) = some (.word o.hoistVariable false) := by
  have hvariable := isPlainIdentifier_of_valid ho (n := .hoistVariable) (by decide) rfl
  have hlist : ∃ rest, (o.hoistDeclaration definitions).toList =
      "const".toList ++ ' ' :: (o.hoistVariable.toList ++ ' ' :: rest) := by
    simp [Options.hoistDeclaration]
  obtain ⟨rest, hlist⟩ := hlist
  rw [declared?, hlist, tokens_name (by decide), tokens_name hvariable]
  simp

/-- The statements of an expansion declare their names in one module just if these differ and none is reserved. -/
theorem declarable_statements_iff (ho : o.invalid? = none) (definitions : List Hoisted) :
    Declarable [o.importStatement, o.hoistDeclaration definitions] ↔ o.runtimeAlias ≠ o.hoistVariable
      ∧ moduleContext.reserves o.runtimeAlias = false ∧ moduleContext.reserves o.hoistVariable = false := by
  have hdeclared : [o.importStatement, o.hoistDeclaration definitions].map declared? =
      [Token.word o.runtimeAlias false, Token.word o.hoistVariable false].map some := by
    simp [declared?_importStatement ho, declared?_hoistDeclaration ho]
  have hnames : Declarable [o.importStatement, o.hoistDeclaration definitions] ↔
      [Token.word o.runtimeAlias false, Token.word o.hoistVariable false].Nodup ∧
        ∀ name ∈ [Token.word o.runtimeAlias false, Token.word o.hoistVariable false],
          moduleContext.isName name = true := by
    refine ⟨fun ⟨names, hmap, h⟩ => ?_, fun h => ⟨_, hdeclared, h⟩⟩
    rw [hdeclared] at hmap
    rw [List.map_injective_iff.2 (fun _ _ => Option.some.inj) hmap]
    exact h
  rw [hnames]
  simp [Context.isName]

section Reading

variable [Script.ExpressionReader]

/-- A statement that is brought in stands in the code. -/
theorem statement_infix_code {f : SourceFile} {x : Expanded} {j : Journal} (hx : (j.expand o f).1 = .ok (some x))
    (context : ScriptContext) {statement : String}
    (h : statement? o f (read f.text).document context = some statement) : statement.toList <:+: x.code.toList := by
  rw [toList_code hx]
  cases hs : (read f.text).document.script? context with
  | none =>
    have hnew : newScript? o f (read f.text).document context = some (scriptOf statement context) := by
      simp [newScript?, hs, h]
    have hprint : statement.toList <:+: (scriptOf statement context).print := by
      cases context <;> exact ⟨_, _, List.append_assoc ..⟩
    have hscripts : (scriptOf statement context).print <:+: (newScripts o f (read f.text).document).toList := by
      rw [toList_newScripts]
      cases context with
      | perModule =>
        rw [hnew, Option.toList_some, List.flatMap_singleton]
        exact (List.prefix_append ..).isInfix
      | perInstance =>
        rw [hnew, Option.toList_some, List.flatMap_singleton]
        exact (List.suffix_append ..).isInfix
    exact (hprint.trans hscripts).trans (List.prefix_append ..).isInfix
  | some s =>
    obtain ⟨a, b, htext, hwidth⟩ := isBoundary_iff.1 (isBoundary_intake hs)
    have hstatement : statement.toList <:+: (statementText statement context).toList := by
      cases context with
      | perModule => exact ⟨['\n'], ['\n'], by simp [statementText]⟩
      | perInstance => exact ⟨[], ['\n'], by simp [statementText]⟩
    have htaken : takenText o f (read f.text).document (s.intake context) context =
        statementText statement context := by simp [takenText, hs, h]
    have hput := takenText_infix_put o f (s.intake context) context
    rw [htaken] at hput
    have hweave := Weave.put_infix_text (f.weave o) 0 a b
    rw [Nat.zero_add, hwidth, ← htext] at hweave
    exact ((hstatement.trans hput).trans hweave).trans (List.suffix_append ..).isInfix

/-- A file that is expanded with valid options and has definitions takes in two statements: an import that declares the
runtime, and a constant with the definitions. A module takes both just if their names differ and neither is reserved. -/
theorem declarations_expand {j : Journal} {f : SourceFile} {x : Expanded} (ho : o.invalid? = none)
    (hx : (j.expand o f).1 = .ok (some x)) (hhoists : hoists o f (read f.text).document ≠ []) :
    let d := (read f.text).document
    o.importStatement.toList <:+: x.code.toList ∧ (o.hoistDeclaration (hoists o f d)).toList <:+: x.code.toList ∧
      declared? o.importStatement = some (.word o.runtimeAlias false) ∧
      declared? (o.hoistDeclaration (hoists o f d)) = some (.word o.hoistVariable false) ∧
      (Declarable [o.importStatement, o.hoistDeclaration (hoists o f d)] ↔ o.runtimeAlias ≠ o.hoistVariable
        ∧ moduleContext.reserves o.runtimeAlias = false ∧ moduleContext.reserves o.hoistVariable = false) := by
  have hruntime : needsRuntime o (read f.text).document = true := by
    obtain ⟨definition, hdefinition⟩ := List.exists_mem_of_ne_nil _ hhoists
    obtain ⟨p, hp, hdefinition⟩ := List.mem_filterMap.1 hdefinition
    obtain ⟨create, hcreate, -⟩ := Option.map_eq_some_iff.1 hdefinition
    exact List.any_eq_true.2 ⟨p, hp, by simp [ElementPlan.expands, hcreate]⟩
  exact ⟨statement_infix_code hx .perInstance (if_pos hruntime),
    statement_infix_code hx .perModule (if_pos hhoists), declared?_importStatement ho,
    declared?_hoistDeclaration ho _, declarable_statements_iff ho _⟩

end Reading

/-- A file with one definition. -/
def singleFile : SourceFile := ⟨none, "<p stylex-create=\x7ba\x7d></p>"⟩

/-- Options that name the runtime by a reserved word. -/
def reservedOptions : Options := { runtimeAlias := "class" }

/-- Options that name the runtime and the constant alike. -/
def sharedOptions : Options := { runtimeAlias := "sx", hoistVariable := "sx" }

/-- Valid options can have names that no module can declare; a reserved one is refused where the import is read. -/
theorem not_declarable_reservedOptions : (reservedOptions.invalid? = none ∧
      ∃ x, (({} : Journal).expand reservedOptions singleFile).1 = .ok (some x) ∧
        x.code = "<script module>const __styles = class.create(\x7b\"p$1_18\": a\x7d);</script>"
          ++ "<script>import * as class from \"@stylexjs/stylex\";</script>"
          ++ "<p \x7b...class.attrs(__styles.p$1_18)\x7d></p>" ∧
        ¬ Declarable [reservedOptions.importStatement, reservedOptions.hoistDeclaration
          (hoists reservedOptions singleFile (read singleFile.text).document)] ∧
        (defaultExports? false reservedOptions.importStatement).toOption = none) ∧
    sharedOptions.invalid? = none ∧
      ∃ x, (({} : Journal).expand sharedOptions singleFile).1 = .ok (some x) ∧
        x.code = "<script module>const sx = sx.create(\x7b\"p$1_18\": a\x7d);</script>"
          ++ "<script>import * as sx from \"@stylexjs/stylex\";</script>"
          ++ "<p \x7b...sx.attrs(sx.p$1_18)\x7d></p>" ∧
        ¬ Declarable [sharedOptions.importStatement, sharedOptions.hoistDeclaration
          (hoists sharedOptions singleFile (read singleFile.text).document)] := by
  have hvalid : reservedOptions.invalid? = none ∧ sharedOptions.invalid? = none := by decide +kernel
  have hreserved : (({} : Journal).expand reservedOptions singleFile).1.toOption.join.map Expanded.code =
      some ("<script module>const __styles = class.create(\x7b\"p$1_18\": a\x7d);</script>"
        ++ "<script>import * as class from \"@stylexjs/stylex\";</script>"
        ++ "<p \x7b...class.attrs(__styles.p$1_18)\x7d></p>") := by decide +kernel
  have hshared : (({} : Journal).expand sharedOptions singleFile).1.toOption.join.map Expanded.code =
      some ("<script module>const sx = sx.create(\x7b\"p$1_18\": a\x7d);</script>"
        ++ "<script>import * as sx from \"@stylexjs/stylex\";</script>"
        ++ "<p \x7b...sx.attrs(sx.p$1_18)\x7d></p>") := by decide +kernel
  have hrefused : (defaultExports? false reservedOptions.importStatement).toOption.isNone = true := by decide +kernel
  obtain ⟨x, hx, hcode⟩ := exists_expanded hreserved
  obtain ⟨x', hx', hcode'⟩ := exists_expanded hshared
  refine ⟨⟨hvalid.1, x, hx, hcode, fun h => ?_, Option.isNone_iff_eq_none.1 hrefused⟩, hvalid.2, x', hx', hcode',
    fun h => ?_⟩
  · exact absurd ((declarable_statements_iff hvalid.1 _).1 h).2.1 (by decide +kernel)
  · exact ((declarable_statements_iff hvalid.2 _).1 h).1 rfl

end Statements

end Restyle
