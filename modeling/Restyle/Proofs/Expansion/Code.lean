import Restyle.Proofs.Expansion.Edits

/-! The text of an expanded file. New scripts stand in front of it; the scripts that exist take in what
brings in the runtime and the definitions; each changed attribute gives way to its new text; and every
other byte of the source keeps its place in the order. -/

namespace Restyle

open Markup Remarking Text

/-! ### Changes and edits of scripts -/

/-- The new text of the change that starts at an offset. -/
def changedText (cs : List (Span × String)) (offset : Nat) : String :=
  (cs.find? (·.1.start = offset)).elim "" (·.2)

/-- Edits that replace spans insert nothing. -/
theorem filterMap_of_makes {edits : List Splice} {cs : List (Span × String)}
    (h : List.Forall₂ Splice.Makes edits cs) :
    edits.filterMap Splice.prepended? = [] ∧ edits.filterMap Splice.appended? = [] ∧
      ∀ side o, edits.filterMap (Splice.insertion? side o) = [] := by
  induction h with
  | nil => simp
  | cons hmake _ ih =>
    cases hmake with
    | update span text => exact ih
    | remove span => exact ih

theorem replacement?_of_makes {edits : List Splice} {cs : List (Span × String)}
    (h : List.Forall₂ Splice.Makes edits cs) (hne : ∀ c ∈ cs, c.1.start < c.1.stop) :
    edits.filterMap Splice.replacement? = cs := by
  induction h with
  | nil => rfl
  | cons hmake _ ih =>
    have ih := ih fun c hc => hne c (List.mem_cons_of_mem _ hc)
    have hlt := hne _ (List.mem_cons_self ..)
    cases hmake with
    | update span text => exact congrArg _ ih
    | remove span =>
      have hremove : (Splice.remove span).replacement? = some (span, "") :=
        if_neg (Nat.ne_of_lt hlt)
      rw [List.filterMap_cons_some hremove, ih]

theorem filterMap_hoisted?_filter (f : SourceFile) (ps : List ElementPlan) :
    (ps.filter ElementPlan.edits).filterMap (ElementPlan.hoisted? f) =
      ps.filterMap (ElementPlan.hoisted? f) := by
  rw [List.filterMap_filter]
  refine List.filterMap_congr fun p _ => ?_
  cases h : p.edits with
  | true => simp
  | false => simp [ElementPlan.hoisted?, (ElementPlan.changes_of_edits h "").2.2]

theorem any_expands_filter (ps : List ElementPlan) :
    (ps.filter ElementPlan.edits).any ElementPlan.expands = ps.any ElementPlan.expands := by
  rw [List.any_filter]
  refine congrArg ps.any (funext fun p => ?_)
  cases h : p.expands <;> simp [ElementPlan.edits, h]

/-- The edits of scripts put nothing behind the document and replace nothing. -/
theorem back_scriptSplices (o : Options) (f : SourceFile) (d : Document) (ps : List ElementPlan) :
    (scriptSplices o f d ps).filterMap Splice.appended? = [] ∧
      (scriptSplices o f d ps).filterMap Splice.replacement? = [] := by
  unfold scriptSplices importSplice hoistSplice
  cases d.instanceScript <;> cases d.moduleScript <;> split_ifs <;>
    simp [List.filterMap_cons, Splice.appended?, Splice.replacement?]

section Reading

variable [Script.ExpressionReader]

/-! ### What becomes of a file -/

/-- The definitions that are moved out of the elements of a document. -/
def hoists (o : Options) (f : SourceFile) (d : Document) : List Hoisted :=
  (d.fragment.elements.map (ElementPlan.of o)).filterMap (ElementPlan.hoisted? f)

/-- Some element of the document gets a call of the runtime. -/
def needsRuntime (o : Options) (d : Document) : Bool :=
  (d.fragment.elements.map (ElementPlan.of o)).any ElementPlan.expands

/-- The scripts in front of a document that has none of its own: first that with the definitions, then
that with the import. -/
def newScripts (o : Options) (f : SourceFile) (d : Document) : String :=
  (if hoists o f d ≠ [] ∧ d.moduleScript = none then
      "<script module>" ++ o.hoistDeclaration (hoists o f d) ++ "</script>"
    else "")
  ++ if needsRuntime o d ∧ d.instanceScript = none then
      "<script>" ++ o.importStatement ++ "</script>"
    else ""

/-- What the scripts of a document take in at an offset: the definitions at the end of the module script
and the import at the start of the instance script. -/
def scriptText (o : Options) (f : SourceFile) (d : Document) (offset : Nat) : String :=
  (if hoists o f d ≠ [] ∧ d.moduleScript.any (·.contentSpan.stop = offset) then
      "\n" ++ o.hoistDeclaration (hoists o f d) ++ "\n"
    else "")
  ++ if needsRuntime o d ∧ d.instanceScript.any (·.contentSpan.start = offset) then
      o.importStatement ++ "\n"
    else ""

/-- What becomes of an offset of a file: the texts that scripts take in there, the new text of an
attribute that starts there, and its byte unless that is changed. -/
def expandedAt (o : Options) (f : SourceFile) (d : Document) (offset : Nat) : List UInt8 :=
  bytes (scriptText o f d offset ++ changedText (changes o f d.fragment.elements) offset).toList
    ++ if (changes o f d.fragment.elements).any (·.1.contains offset) then []
      else (bytes f.text.toList)[offset]?.toList

/-! ### The meaning of the edits -/

/-- What the edits of scripts put in front of the document. -/
theorem front_scriptSplices (o : Options) (f : SourceFile) (d : Document) :
    Splice.front (scriptSplices o f d ((d.fragment.elements.map (.of o)).filter ElementPlan.edits)) =
      newScripts o f d := by
  rw [scriptSplices, any_expands_filter, filterMap_hoisted?_filter, ← hoists, ← needsRuntime, newScripts]
  unfold importSplice hoistSplice Splice.front
  cases hi : d.instanceScript <;> cases hm : d.moduleScript <;> cases hn : needsRuntime o d <;>
    cases hh : hoists o f d <;> simp [List.filterMap_cons, Splice.prepended?]

/-- What the edits of scripts put at an offset. -/
theorem leftRight_scriptSplices (o : Options) (f : SourceFile) (d : Document) (offset : Nat) :
    Splice.left (scriptSplices o f d ((d.fragment.elements.map (.of o)).filter ElementPlan.edits)) offset
      ++ Splice.right (scriptSplices o f d
        ((d.fragment.elements.map (.of o)).filter ElementPlan.edits)) offset =
      scriptText o f d offset := by
  rw [scriptSplices, any_expands_filter, filterMap_hoisted?_filter, ← hoists, ← needsRuntime, scriptText]
  unfold importSplice hoistSplice Splice.left Splice.right
  cases hi : d.instanceScript <;> cases hm : d.moduleScript <;> cases hn : needsRuntime o d <;>
    cases hh : hoists o f d <;> simp [List.filterMap_cons, Splice.insertion?] <;> split_ifs <;> simp

theorem meaning_allSplices (o : Options) (f : SourceFile) :
    Splice.meaning f.text (allSplices o f (read f.text).document (f.plans o)) =
      bytes (newScripts o f (read f.text).document).toList
        ++ (List.range (width f.text.toList + 1)).flatMap (expandedAt o f (read f.text).document) := by
  have hmakes := makes_flatMap o f (f.plans o)
  rw [SourceFile.plans, flatMap_changes_filter, ← SourceFile.plans] at hmakes
  obtain ⟨hfront, hback, hinsert⟩ := filterMap_of_makes hmakes
  have hreplace := replacement?_of_makes hmakes fun c hc => (placed_changes o f c hc).2.1
  obtain ⟨hback', hreplace'⟩ := back_scriptSplices o f (read f.text).document (f.plans o)
  have hempty : String.join [] = "" := rfl
  have hat : Splice.meaningAt (bytes f.text.toList)
      (allSplices o f (read f.text).document (f.plans o)) = expandedAt o f (read f.text).document := by
    funext offset
    have hscript := leftRight_scriptSplices o f (read f.text).document offset
    rw [← SourceFile.plans] at hscript
    rw [Splice.meaningAt, expandedAt, ← hscript]
    simp only [Splice.left, Splice.right, Splice.newText, Splice.replaces, allSplices,
      List.filterMap_append, hinsert, hreplace, hreplace', List.nil_append, List.append_nil]
    rfl
  have hnew := front_scriptSplices o f (read f.text).document
  rw [← SourceFile.plans] at hnew
  rw [Splice.meaning, hat, ← hnew]
  simp only [Splice.front, Splice.back, allSplices, List.filterMap_append, hfront, hback, hback',
    List.nil_append, List.append_nil, hempty]
  simp

theorem bytes_code {j : Journal} {o : Options} {f : SourceFile} {x : Expanded}
    (h : (j.expand o f).1 = .ok (some x)) :
    bytes x.code.toList = bytes (newScripts o f (read f.text).document).toList
      ++ (List.range (width f.text.toList + 1)).flatMap (expandedAt o f (read f.text).document) := by
  obtain ⟨-, hspliced, -⟩ := gives_expansion (gives_of_outcome h)
  unfold SourceFile.spliced at hspliced
  cases hrun : (allSplices o f (read f.text).document (f.plans o)).foldlM SpliceBuffer.splice
      (SpliceBuffer.ofSource f.text) with
  | error e =>
    rw [hrun] at hspliced
    cases hspliced
  | ok b =>
    rw [hrun] at hspliced
    cases hspliced
    obtain ⟨hs, hholds, hsource⟩ := (SpliceBuffer.holds_ofSource f.text).foldlM
      (SpliceBuffer.sound_ofSource f.text) hrun
    rw [hholds.bytes_code hs, hsource, List.nil_append]
    exact meaning_allSplices o f

/-- An expanded file is its source with new scripts in front, in which the scripts have taken in their
texts and every changed attribute has given way to its new text. The changed spans are not empty, end on
boundaries, and are apart, so every other byte of the source is there once and in its order. -/
theorem code_expand {j : Journal} {o : Options} {f : SourceFile} {x : Expanded}
    (h : (j.expand o f).1 = .ok (some x)) :
    let d := (read f.text).document
    bytes x.code.toList = bytes (newScripts o f d).toList
        ++ (List.range (width f.text.toList + 1)).flatMap (expandedAt o f d)
      ∧ (∀ c ∈ changes o f d.fragment.elements, c.1.Cuts f.text.toList ∧ c.1.start < c.1.stop)
      ∧ ((changes o f d.fragment.elements).map Prod.fst).Pairwise Span.Apart :=
  ⟨bytes_code h, fun c hc => ⟨(placed_changes o f c hc).1, (placed_changes o f c hc).2.1⟩,
    pairwise_changes (sound_read_cuts f.text).fragment o f⟩

end Reading

/-- A file with one element that has a definition and a value for the runtime. -/
def mixedFile : SourceFile := ⟨none, "<p stylex-create=\x7ba\x7d stylex=\x7bb\x7d></p>"⟩

def mixedCode : String :=
  "<script module>const __styles = __stylex.create(\x7b\"p$1_18\": a\x7d);</script>"
    ++ "<script>import * as __stylex from \"@stylexjs/stylex\";</script>"
    ++ "<p  \x7b...__stylex.attrs(__styles.p$1_18, b)\x7d></p>"

theorem code_expand_mixedFile : ∃ x, (({} : Journal).expand {} mixedFile).1 = .ok (some x) ∧
    x.code = mixedCode ∧
    bytes x.code.toList = bytes (newScripts {} mixedFile (read mixedFile.text).document).toList
      ++ (List.range (width mixedFile.text.toList + 1)).flatMap
        (expandedAt {} mixedFile (read mixedFile.text).document) := by
  have hsome : (({} : Journal).expand {} mixedFile).1.toOption.join.map Expanded.code =
      some mixedCode := by decide +kernel
  obtain ⟨x, hx, hcode⟩ := exists_expanded hsome
  exact ⟨x, hx, hcode, (code_expand hx).1⟩

/-- A file whose attribute ends in a comment up to the end of a line. -/
def commentedFile : SourceFile := ⟨none, "<div stylex=\x7bx // c\n\x7d></div>"⟩

/-- The comment goes on over the end of the call that it is put into. -/
theorem faults_read_expand_commentedFile : ∃ x,
    (({} : Journal).expand {} commentedFile).1 = .ok (some x) ∧ (read x.code).faults ≠ [] := by
  have hsome : ((({} : Journal).expand {} commentedFile).1.toOption.join.map fun x =>
      decide ((read x.code).faults = [])) = some false := by decide +kernel
  obtain ⟨x, hx, hfaults⟩ := exists_expanded hsome
  exact ⟨x, hx, of_decide_eq_false hfaults⟩

end Restyle
