import Restyle.Proofs.Expansion.Hoists
import Restyle.Proofs.Markup.Amended
import Restyle.Proofs.Markup.PrintedDocuments

/-! The statements that an expansion puts into scripts: the declaration of the definitions into that of the module,
the import of the runtime into that of an instance. A statement does not end the script that it stands in, so
a script that is made for it is read back with the statement as its content. -/

namespace Restyle

open Markup Text

/-! ### Statements -/

/-- What a script that exists takes in with a statement. -/
def statementText (statement : String) : ScriptContext → String
  | .perModule => "\n" ++ statement ++ "\n"
  | .perInstance => statement ++ "\n"

/-- Where a script takes in its statement: a module at the end, an instance at the start. -/
def Markup.Script.intake (s : Script) : ScriptContext → Nat
  | .perModule => s.contentSpan.stop
  | .perInstance => s.contentSpan.start

theorem ite_and_eq_elim {p q : Prop} [Decidable p] [Decidable q] (statement : String) (text : String → String) :
    (if p ∧ q then text statement else "") = if q then (if p then some statement else none).elim "" text else "" := by
  by_cases hp : p <;> simp [hp]

/-- The content of a script with a statement. -/
def withStatement (content : List Char) (statement : Option String) (context : ScriptContext) : List Char :=
  match context with
  | .perModule => content ++ (statement.elim "" (statementText · context)).toList
  | .perInstance => (statement.elim "" (statementText · context)).toList ++ content

section Reading

variable [Script.ExpressionReader]

/-- What the script of a context takes in. -/
def statement? (o : Options) (f : SourceFile) (d : Document) : ScriptContext → Option String
  | .perModule => if hoists o f d ≠ [] then some (o.hoistDeclaration (hoists o f d)) else none
  | .perInstance => if needsRuntime o d then some o.importStatement else none

/-- What the script of a context takes in at an offset. -/
def takenText (o : Options) (f : SourceFile) (d : Document) (offset : Nat) (context : ScriptContext) : String :=
  if (d.script? context).any (·.intake context = offset) then
    (statement? o f d context).elim "" (statementText · context)
  else ""

theorem scriptText_eq (o : Options) (f : SourceFile) (d : Document) (offset : Nat) :
    scriptText o f d offset = takenText o f d offset .perModule ++ takenText o f d offset .perInstance :=
  congrArg₂ (· ++ ·) (ite_and_eq_elim _ (statementText · .perModule)) (ite_and_eq_elim _ (statementText · .perInstance))

end Reading

/-! ### What ends a script -/

section Ends

/-- A character stands for itself in a quoted text, or is told by a backslash and letters. -/
theorem escape_cases (c : Char) : Json.escape c = [c] ∨ ∃ t, Json.escape c = '\\' :: t ∧ '<' ∉ t := by
  unfold Json.escape
  split
  any_goals exact .inr ⟨_, rfl, by decide⟩
  split
  · next hlt =>
    have hdigit : ∀ n : Fin 16, '<' ≠ Json.hexDigit n.val := by decide
    have hfirst : '<' ≠ Json.hexDigit (c.toNat / 16) := hdigit ⟨c.toNat / 16, by omega⟩
    have hsecond : '<' ≠ Json.hexDigit (c.toNat % 16) := hdigit ⟨c.toNat % 16, by omega⟩
    exact .inr ⟨_, rfl, by simp [hfirst, hsecond]⟩
  · exact .inl rfl

/-- What a quoted text begins with is plain if it has no backslash. -/
theorem prefix_of_escape {piece cs : List Char} (hplain : '\\' ∉ piece) (h : piece <+: cs.flatMap Json.escape) :
    piece <+: cs := by
  induction piece generalizing cs with
  | nil => exact List.nil_prefix
  | cons p piece ih =>
    cases cs with
    | nil => simp at h
    | cons c cs =>
      rw [List.flatMap_cons] at h
      rcases escape_cases c with hself | ⟨t, htold, -⟩
      · rw [hself] at h
        obtain ⟨rfl, hmore⟩ := List.cons_prefix_cons.1 h
        exact List.cons_prefix_cons.2 ⟨rfl, ih (fun hmem => hplain (List.mem_cons_of_mem p hmem)) hmore⟩
      · rw [htold] at h
        obtain ⟨rfl, -⟩ := List.cons_prefix_cons.1 h
        exact absurd (List.mem_cons_self ..) hplain

/-- Quoting a text does not make a piece of markup. -/
theorem not_infix_escape {ps cs : List Char} (hplain : '\\' ∉ ps) (h : ¬ ('<' :: ps) <:+: cs) :
    ¬ ('<' :: ps) <:+: cs.flatMap Json.escape := by
  have hplain' : '\\' ∉ '<' :: ps := by simp [hplain]
  induction cs with
  | nil => simp
  | cons c cs ih =>
    have ih := ih fun hmore => h (List.infix_cons hmore)
    rw [List.flatMap_cons]
    intro hinfix
    rcases escape_cases c with hself | ⟨t, htold, ht⟩
    · rw [hself, List.singleton_append, List.infix_cons_iff] at hinfix
      rcases hinfix with hinfix | hinfix
      · have hbegins : ('<' :: ps) <+: (c :: cs).flatMap Json.escape := by
          rw [List.flatMap_cons, hself]
          exact hinfix
        exact h (prefix_of_escape hplain' hbegins).isInfix
      · exact ih hinfix
    · rw [htold] at hinfix
      exact ih (infix_of_append (by simp [ht]) hinfix)

/-- The text does not end a script that it stands in. -/
def StaysInside (text : String) : Prop := ¬ ('<' :: '/' :: "script".toList) <:+: text.toList

instance (text : String) : Decidable (StaysInside text) := inferInstanceAs (Decidable (¬ _))

theorem staysInside_quote {text : String} (h : StaysInside text) : StaysInside (Json.quote text) := by
  have hquoted := not_infix_escape (by decide) h
  have hmark : '"' ∉ '<' :: '/' :: "script".toList := by decide
  have hquote : (Json.quote text).toList = '"' :: text.toList.flatMap Json.escape ++ ['"'] := String.toList_ofList
  rw [StaysInside, hquote]
  exact not_infix_append_cons (a := []) hmark (by simp) (not_infix_append_cons hmark hquoted (by simp))

theorem staysInside_of_plain {text : String} (h : ∀ c ∈ text.toList, c.isAlphanum = true ∨ c = '_' ∨ c = '$') :
    StaysInside text := not_infix_of_not_mem fun hmem => by
  rcases h _ hmem with h | h | h <;> cases h

/-- Texts with a separator between them. -/
theorem StaysInside.joined {before after : String} {c : Char} (h : StaysInside before) (h' : StaysInside after)
    (hc : c ∉ '<' :: '/' :: "script".toList) :
    ¬ ('<' :: '/' :: "script".toList) <:+: before.toList ++ c :: ' ' :: after.toList :=
  not_infix_append_cons hc h (not_infix_append_cons (a := []) (by decide) (by simp) h')

theorem staysInside_intercalate {texts : List String} (h : ∀ text ∈ texts, StaysInside text) :
    StaysInside (String.intercalate ", " texts) := by
  induction texts with
  | nil =>
    rw [String.intercalate_nil]
    exact not_infix_of_not_mem (by simp)
  | cons text texts ih =>
    have hfirst := h text (List.mem_cons_self ..)
    have hmore := ih fun t ht => h t (List.mem_cons_of_mem text ht)
    cases texts with
    | nil =>
      rw [String.intercalate_singleton]
      exact hfirst
    | cons text' texts =>
      have hlist : (String.intercalate ", " (text :: text' :: texts)).toList =
          text.toList ++ ',' :: ' ' :: (String.intercalate ", " (text' :: texts)).toList := by
        simp [String.intercalate_cons_cons]
      rw [StaysInside, hlist]
      exact hfirst.joined hmore (by decide)

end Ends

section Valid

variable {o : Options} {f : SourceFile} {d : Document}

/-- The names that valid options give to code are identifiers. -/
theorem isPlainIdentifier_of_valid (ho : o.invalid? = none) {n : OptionName} (hn : n ∈ Options.identifiers)
    {value : String} (hvalue : o.get n = some value) : isPlainIdentifier value.toList = true := by
  simp only [Options.invalid?, Option.orElse_eq_or, Option.orElse_eq_orElse, Option.or_eq_none_iff,
    List.findSome?_eq_none_iff] at ho
  have hone := ho.2 n hn
  by_contra hnot
  simp [hvalue, hnot] at hone

theorem staysInside_identifier (ho : o.invalid? = none) {n : OptionName} (hn : n ∈ Options.identifiers)
    {value : String} (hvalue : o.get n = some value) : StaysInside value :=
  staysInside_of_plain (isPlainIdentifier_cases (isPlainIdentifier_of_valid ho hn hvalue))

theorem staysInside_importStatement (ho : o.invalid? = none) (h : StaysInside o.importSource) :
    StaysInside o.importStatement := by
  have halias : StaysInside o.runtimeAlias := staysInside_identifier ho (n := .runtimeAlias) (by decide) rfl
  have hstatement : o.importStatement =
      "import * as " ++ o.runtimeAlias ++ " from " ++ Json.quote o.importSource ++ ";" := rfl
  have hlist : o.importStatement.toList = "import * as".toList ++ ' ' :: (o.runtimeAlias.toList
      ++ ' ' :: ("from".toList ++ ' ' :: ((Json.quote o.importSource).toList ++ ';' :: []))) := by
    simp [hstatement]
  rw [StaysInside, hlist]
  refine not_infix_append_cons (by decide) (by decide) ?_
  refine not_infix_append_cons (by decide) halias ?_
  refine not_infix_append_cons (by decide) (by decide) ?_
  exact not_infix_append_cons (by decide) (staysInside_quote h) (by simp)

theorem staysInside_hoistDeclaration (ho : o.invalid? = none) {definitions : List Hoisted}
    (h : ∀ definition ∈ definitions, StaysInside definition.name ∧ StaysInside definition.text) :
    StaysInside (o.hoistDeclaration definitions) := by
  have halias : StaysInside o.runtimeAlias := staysInside_identifier ho (n := .runtimeAlias) (by decide) rfl
  have hvariable : StaysInside o.hoistVariable := staysInside_identifier ho (n := .hoistVariable) (by decide) rfl
  have hmembers : StaysInside (String.intercalate ", " (definitions.map fun h => Json.quote h.name ++ ": " ++ h.text)) := by
    refine staysInside_intercalate fun text htext => ?_
    obtain ⟨definition, hdefinition, rfl⟩ := List.mem_map.1 htext
    obtain ⟨hname, htext⟩ := h definition hdefinition
    have hlist : (Json.quote definition.name ++ ": " ++ definition.text).toList =
        (Json.quote definition.name).toList ++ ':' :: ' ' :: definition.text.toList := by simp
    rw [StaysInside, hlist]
    exact (staysInside_quote hname).joined htext (by decide)
  have hlist : (o.hoistDeclaration definitions).toList = "const".toList ++ ' ' :: (o.hoistVariable.toList
      ++ ' ' :: ("=".toList ++ ' ' :: (o.runtimeAlias.toList ++ '.' :: ("create(".toList
      ++ '\x7b' :: ((String.intercalate ", " (definitions.map fun h => Json.quote h.name ++ ": " ++ h.text)).toList
      ++ '\x7d' :: ");".toList))))) := by
    simp [Options.hoistDeclaration]
  rw [StaysInside, hlist]
  refine not_infix_append_cons (by decide) (by decide) ?_
  refine not_infix_append_cons (by decide) hvariable ?_
  refine not_infix_append_cons (by decide) (by decide) ?_
  refine not_infix_append_cons (by decide) halias ?_
  refine not_infix_append_cons (by decide) (by decide) ?_
  exact not_infix_append_cons (by decide) hmembers (by decide)

/-- A statement that joins the content of a script stays inside it. -/
theorem staysInside_withStatement {content : List Char} {statement : Option String} (context : ScriptContext)
    (hcontent : ¬ ('<' :: '/' :: "script".toList) <:+: content) (h : ∀ s ∈ statement, StaysInside s) :
    ¬ ('<' :: '/' :: "script".toList) <:+: withStatement content statement context := by
  have hbreak : '\n' ∉ '<' :: '/' :: "script".toList := by decide
  cases statement with
  | none => cases context <;> simpa [withStatement] using hcontent
  | some s =>
    have hs := h s rfl
    cases context with
    | perModule =>
      have hlist : withStatement content (some s) .perModule = content ++ '\n' :: (s.toList ++ '\n' :: []) := by
        simp [withStatement, statementText]
      rw [hlist]
      exact not_infix_append_cons hbreak hcontent (not_infix_append_cons hbreak hs (by simp))
    | perInstance =>
      have hlist : withStatement content (some s) .perInstance = s.toList ++ '\n' :: content := by
        simp [withStatement, statementText]
      rw [hlist]
      exact not_infix_append_cons hbreak hs hcontent

variable [Script.ExpressionReader]

/-- What is written into scripts stays inside them if what comes from the options and from the file does. -/
theorem staysInside_of_statement? (ho : o.invalid? = none) (hsource : StaysInside o.importSource)
    (hhoists : ∀ h ∈ hoists o f d, StaysInside h.text) {context : ScriptContext} {statement : String}
    (h : statement? o f d context = some statement) : StaysInside statement := by
  cases context with
  | perModule =>
    obtain ⟨-, rfl⟩ := Option.ite_some_none_eq_some.1 h
    refine staysInside_hoistDeclaration ho fun definition hdefinition => ⟨?_, hhoists definition hdefinition⟩
    obtain ⟨p, -, hp⟩ := List.mem_filterMap.1 hdefinition
    obtain ⟨create, -, rfl⟩ := Option.map_eq_some_iff.1 hp
    obtain ⟨tag, htag, hname⟩ := Hoisted.nameOf_eq f p.tag create.value
    dsimp only
    rw [hname]
    exact staysInside_of_plain (Hoisted.plain_nameAt htag _)
  | perInstance =>
    obtain ⟨-, rfl⟩ := Option.ite_some_none_eq_some.1 h
    exact staysInside_importStatement ho hsource

end Valid

/-! ### Scripts that are made -/

section New

variable {o : Options} {f : SourceFile} {d : Document} {z : List Char}

/-- A script of a context that holds only a statement. -/
def scriptOf (statement : String) : ScriptContext → Script
  | .perModule =>
    ⟨.point 0, .point 0, statement, .javaScript, .perModule, [.normal (.point 0) "module" .absent]⟩
  | .perInstance => ⟨.point 0, .point 0, statement, .javaScript, .perInstance, []⟩

theorem printable_scriptOf {statement : String} (h : StaysInside statement) (context : ScriptContext) :
    (scriptOf statement context).Printable ∧ (scriptOf statement context).context = context := by
  cases context with
  | perModule =>
    refine ⟨⟨fun a ha => ?_, h, rfl, rfl⟩, rfl⟩
    rw [List.mem_singleton.1 ha]
    exact .bare ⟨by decide, forall_mem_of_all rfl⟩
  | perInstance => exact ⟨⟨by simp [scriptOf], h, rfl, rfl⟩, rfl⟩

variable [Script.ExpressionReader]

/-- The script that is made for a context if the document has none. -/
def newScript? (o : Options) (f : SourceFile) (d : Document) (context : ScriptContext) : Option Script :=
  if (d.script? context).isSome then none else (statement? o f d context).map (scriptOf · context)

theorem toList_newScripts (o : Options) (f : SourceFile) (d : Document) : (newScripts o f d).toList =
    (newScript? o f d .perModule).toList.flatMap Script.print
      ++ (newScript? o f d .perInstance).toList.flatMap Script.print := by
  unfold newScripts newScript? statement? Document.script?
  cases d.moduleScript <;> cases d.instanceScript <;> cases needsRuntime o d <;> cases hoists o f d <;>
    simp [scriptOf, Script.print, printRaw, openingTag, printAttributes, Attribute.print, closingTag]

/-- The reader takes the scripts that are made, and comes to what follows them. -/
theorem exists_before {code : String} (hstatements : ∀ context, ∀ s ∈ statement? o f d context, StaysInside s)
    (hcode : code.toList = (newScripts o f d).toList ++ z) : ∃ first, (Reader.ofText code).Leads first
      ∧ first.Before z ∧ ∀ context, (first.script? context).map Script.unplaced =
        (newScript? o f d context).map Script.unplaced := by
  have hprintable : ∀ context, ∀ s ∈ newScript? o f d context, s.Printable ∧ s.context = context := by
    intro context s hs
    rw [newScript?] at hs
    split at hs
    · cases hs
    · obtain ⟨statement, hstatement, rfl⟩ := Option.map_eq_some_iff.1 hs
      exact printable_scriptOf (hstatements context statement hstatement) context
  have hstart : (Reader.ofText code).Has ⟨none, none, none, ⟨[], .point 0⟩, .point 0⟩
      ((newScript? o f d .perModule).toList.flatMap Script.print
        ++ ((newScript? o f d .perInstance).toList.flatMap Script.print ++ z)) := by
    refine ⟨rfl, ⟨?_, rfl⟩, rfl, rfl, rfl, rfl⟩
    rw [← List.append_assoc, ← toList_newScripts, ← hcode]
    rfl
  obtain ⟨first, hleads, hhas⟩ := (hstart.moduleScript_gets (hprintable .perModule) rfl).trans fun r hr =>
    hr.instanceScript_gets (hprintable .perInstance) rfl
  refine ⟨first, hleads, ⟨hhas.cursor, hhas.frames, ?_, by simpa using hhas.style⟩, fun context => ?_⟩
  · have hnodes : unplacedAll first.nodes.reverse = [] := hhas.nodes
    cases hlist : first.nodes.reverse with
    | nil => exact List.reverse_eq_nil_iff.1 hlist
    | cons n nodes =>
      rw [hlist] at hnodes
      cases hnodes
  · cases context with
    | perModule => exact hhas.moduleScript
    | perInstance => exact hhas.instanceScript

end New

end Restyle
