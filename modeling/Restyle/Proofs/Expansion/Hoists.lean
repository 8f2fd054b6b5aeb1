import Restyle.Proofs.Expansion.Code
import Restyle.Proofs.Markup.DocumentOrder
import Restyle.Proofs.Markup.Slices
import Restyle.Proofs.Source.Places

/-! The definitions that are moved out of elements, and the references that are left behind. A name is told
from the place of its definition, and no two definitions of a file have one place, so no two have one name.
The main statement is that the calls of an expanded file refer to the members of its one declaration, each
of them once and in their order. -/

namespace Restyle

open Markup Remarking Text

/-! ### Names -/

namespace Text

/-- The last of a character in a text cuts it in one way. -/
theorem append_cons_inj_right {α : Type} {x : α} {a b a' b' : List α} (hb : x ∉ b) (hb' : x ∉ b')
    (h : a ++ x :: b = a' ++ x :: b') : a = a' ∧ b = b' := by
  rcases List.append_eq_append_iff.1 h with ⟨m, rfl, hm⟩ | ⟨m, rfl, hm⟩
  · cases m with
    | nil => simpa using hm
    | cons y m =>
      obtain ⟨rfl, rfl⟩ := List.cons.inj hm
      simp at hb
  · cases m with
    | nil => simpa [eq_comm] using hm
    | cons y m =>
      obtain ⟨rfl, rfl⟩ := List.cons.inj hm
      simp at hb'

theorem eq_of_repr {m n : Nat} (h : m.repr.toList = n.repr.toList) : m = n := by
  rw [Nat.toList_repr, Nat.toList_repr] at h
  rw [← Nat.ofDigitChars_ten_toDigits (n := m), h, Nat.ofDigitChars_ten_toDigits]

theorem isDigit_of_mem_repr {n : Nat} {c : Char} (h : c ∈ n.repr.toList) : c.isDigit = true := by
  rw [Nat.toList_repr] at h
  exact Nat.isDigit_of_mem_toDigits (by decide) (by decide) h

end Text

namespace Hoisted

/-- The name of a definition at a location, in an element that is named by a tag. -/
def nameAt (tag : String) (l : Location) : String := s!"{tag}${l.line}_{l.column}"

theorem toList_nameAt (tag : String) (l : Location) :
    (nameAt tag l).toList = (tag.toList ++ '$' :: l.line.repr.toList) ++ '_' :: l.column.repr.toList := by
  have happend : nameAt tag l = tag ++ "$" ++ l.line.repr ++ "_" ++ l.column.repr := rfl
  simp [happend]

/-- A name gives its parts back, whatever characters are in the tag. -/
theorem nameAt_inj {tag tag' : String} {l l' : Location} (h : nameAt tag l = nameAt tag' l') :
    tag = tag' ∧ l = l' := by
  have hdigits : ∀ {c : Char} (n : Nat), c.isDigit = false → c ∉ n.repr.toList := by
    intro c n hc hmem
    rw [isDigit_of_mem_repr hmem] at hc
    cases hc
  have hlist := congrArg String.toList h
  rw [toList_nameAt, toList_nameAt] at hlist
  obtain ⟨hfront, hcolumn⟩ := append_cons_inj_right (hdigits _ rfl) (hdigits _ rfl) hlist
  obtain ⟨htag, hline⟩ := append_cons_inj_right (hdigits _ rfl) (hdigits _ rfl) hfront
  refine ⟨String.toList_inj.1 htag, ?_⟩
  obtain ⟨line, column⟩ := l
  obtain ⟨line', column'⟩ := l'
  rw [Location.mk.injEq]
  exact ⟨eq_of_repr hline, eq_of_repr hcolumn⟩

/-- A name is made of an identifier and of the location of its definition. -/
theorem nameOf_eq (f : SourceFile) (tag : String) (value : Expression) :
    ∃ t, isPlainIdentifier t.toList = true ∧ nameOf f tag value = nameAt t (f.location value.span.start) := by
  refine ⟨if isPlainIdentifier tag.toList then tag else unnamedTag, ?_, rfl⟩
  split
  · next h => exact h
  · decide

theorem location_of_nameOf {f : SourceFile} {tag tag' : String} {value value' : Expression}
    (h : nameOf f tag value = nameOf f tag' value') :
    f.location value.span.start = f.location value'.span.start := (nameAt_inj h).2

end Hoisted

/-! ### Definitions in their attributes -/

/-- The definition stands between braces of its attribute. -/
structure Anchor.Stands (source : String) (a : Anchor) : Prop where
  inside : a.span.Surrounds a.value.span
  placed : a.value.Placed source

theorem sound_read_braced (text : String) :
    (read text).document.Sound text.toList fun a => a.Placed text ∧ a.Braced :=
  sound_read text fun r hr _ hat a ha =>
    ⟨tagShows_placed ((Cursor.on_ofText _).reaches hr.reaches) hat a ha, tagShows_braced r.cursor hat a ha⟩

/-- A definition is the only expression of an attribute with a name. -/
theorem Options.eq_of_create? {o : Options} {a : Attribute} {c : Convention} {anchor : Anchor}
    (h : o.convention? a = some c) (hcreate : c.create? = some anchor) :
    ∃ name value, a = .normal anchor.span name value ∧ value.single? = some anchor.value := by
  unfold convention? at h
  split at h
  · split at h
    · obtain ⟨e, -, rfl⟩ := Option.map_eq_some_iff.1 h
      cases hcreate
    · split at h
      · obtain ⟨e, he, rfl⟩ := Option.map_eq_some_iff.1 h
        cases hcreate
        exact ⟨_, _, rfl, he⟩
      · split at h <;> cases h
        cases hcreate
  · split at h <;> cases h
    cases hcreate
  · split at h <;> cases h
    cases hcreate
  · cases h
  · cases h

theorem Markup.AttributeValue.Placed.single {source : String} {value : AttributeValue} {e : Expression}
    (h : value.Placed source) (hsingle : value.single? = some e) : e.Placed source := by
  unfold AttributeValue.single? at hsingle
  split at hsingle
  · cases hsingle
    exact h.2
  · cases hsingle
    exact (h _ (List.mem_singleton_self _)).2
  · cases hsingle

section Reading

variable [Script.ExpressionReader]

/-- The definition of an element is the only expression of one of its attributes. -/
theorem exists_of_create {o : Options} {e : ElementView} {anchor : Anchor}
    (h : (ElementPlan.of o e).create = some anchor) :
    ∃ name value, .normal anchor.span name value ∈ e.attributes ∧ value.single? = some anchor.value := by
  obtain ⟨c, hc, hanchor⟩ := List.mem_filterMap.1 (List.mem_of_getLast? h)
  obtain ⟨a, ha, hmeaning⟩ := List.mem_filterMap.1 hc
  obtain ⟨name, value, rfl, hsingle⟩ := Options.eq_of_create? hmeaning hanchor
  exact ⟨name, value, ha, hsingle⟩

/-- The definitions of all elements stand in their attributes. -/
theorem stands_create {o : Options} {f : SourceFile} {p : ElementPlan} {anchor : Anchor}
    (hp : p ∈ (read f.text).document.fragment.elements.map (ElementPlan.of o)) (hcreate : p.create = some anchor) :
    anchor.Stands f.text := by
  obtain ⟨e, he, rfl⟩ := List.mem_map.1 hp
  obtain ⟨name, value, ha, hsingle⟩ := exists_of_create hcreate
  obtain ⟨hplaced, hbraced⟩ := ((sound_read_braced f.text).fragment.shown _ (List.mem_flatMap.2 ⟨e, he, ha⟩)).holds
  exact ⟨hbraced _ hsingle, hplaced.inside.single hsingle⟩

/-- No two definitions start at one offset. -/
theorem pairwise_creates (o : Options) (f : SourceFile) :
    ((read f.text).document.fragment.elements.map (ElementPlan.of o)).Pairwise fun p q =>
      ∀ c ∈ p.create, ∀ c' ∈ q.create, c.value.span.start ≠ c'.value.span.start := by
  have hapart := pairwise_changes (sound_read_cuts f.text).fragment o f
  rw [changes, List.map_flatMap] at hapart
  refine (List.pairwise_flatMap.1 hapart).2.imp_of_mem fun {p q} hp hq hpq c hc c' hc' heq => ?_
  have hmem : ∀ {p : ElementPlan} {c : Anchor}, c ∈ p.create →
      c.span ∈ (p.changes (p.callText o f)).map Prod.fst := by
    intro p c hc
    rw [ElementPlan.map_fst_changes, Option.mem_def.1 hc]
    simp
  have hspans := hpq _ (hmem hc) _ (hmem hc')
  have hin := stands_create hp hc
  have hin' := stands_create hq hc'
  have := hin.placed.cuts.le
  have := hin'.placed.cuts.le
  have := hin.inside
  have := hin'.inside
  simp only [Span.Apart, Span.Surrounds] at *
  omega

/-- In a file without faults in which no await block swaps its branches, the definitions are moved out in the
order of the text. -/
theorem pairwise_creates_lt (o : Options) {f : SourceFile} (hclean : (read f.text).faults = [])
    (hswaps : ∀ n ∈ subnodes (read f.text).document.fragment.nodes, ¬n.Swaps) :
    ((f.plans o).filterMap ElementPlan.create).Pairwise fun c c' => c.value.span.stop < c'.value.span.start := by
  have hbefore : (read f.text).document.fragment.elements.Pairwise ElementView.Before :=
    (pairwise_elements_read_iff id ElementView.Before.starts hclean).2 hswaps
  rw [List.pairwise_filterMap, SourceFile.plans]
  refine List.Pairwise.filter _ (List.pairwise_map.2 (hbefore.imp_of_mem fun {x y} hx hy hxy c hc c' hc' => ?_))
  obtain ⟨_, _, ha, -⟩ := exists_of_create hc
  obtain ⟨_, _, ha', -⟩ := exists_of_create hc'
  have hstop := (stands_create (List.mem_map_of_mem hx) hc).inside.2
  have hle : c.span.stop ≤ y.span.start := hxy.attributes _ ha
  have hin := ((sound_read_placed f.text).fragment.within_elements y hy).attributes _ ha'
  have hstart := (stands_create (List.mem_map_of_mem hy) hc').inside.1
  exact Nat.lt_of_lt_of_le hstop (hle.trans (hin.1.trans (Nat.le_of_lt hstart)))

/-- No two definitions have one name. -/
theorem nodup_hoists (o : Options) (f : SourceFile) :
    ((hoists o f (read f.text).document).map Hoisted.name).Nodup := by
  rw [hoists, List.Nodup, List.pairwise_map, List.pairwise_filterMap]
  refine (pairwise_creates o f).imp_of_mem fun {p q} hp hq hpq h hh h' hh' heq => ?_
  obtain ⟨c, hc, rfl⟩ := Option.map_eq_some_iff.1 hh
  obtain ⟨c', hc', rfl⟩ := Option.map_eq_some_iff.1 hh'
  exact hpq c hc c' hc' (f.location_injOn (stands_create hp hc).placed.cuts.start
    (stands_create hq hc').placed.cuts.start (Hoisted.location_of_nameOf heq))

end Reading

/-! ### The declaration -/

/-- Letters and digits are between the digit zero and the letter z. -/
theorem range_of_isAlphanum {c : Char} (h : c.isAlphanum = true) : 48 ≤ c.toNat ∧ c.toNat ≤ 122 := by
  have hn : c.toNat = c.val.toNat := rfl
  have h : ((decide (c.val ≥ 'A'.val ∧ c.val ≤ 'Z'.val) || c.val ≥ 'a'.val && c.val ≤ 'z'.val)
      || c.val ≥ '0'.val && c.val ≤ '9'.val) = true := h
  simp only [Bool.or_eq_true, Bool.and_eq_true, decide_eq_true_eq, ge_iff_le, UInt32.le_iff_toNat_le, ← hn] at h
  rcases h with (h | h) | h <;> exact ⟨Nat.le_trans (by decide) h.1, Nat.le_trans h.2 (by decide)⟩

/-- The characters of names are no spaces. -/
theorem isSpace_of_plain {c : Char} (h : c.isAlphanum = true ∨ c = '_' ∨ c = '$') : isSpace c = false := by
  rcases h with h | rfl | rfl
  · have hrange := range_of_isAlphanum h
    simp only [isSpace, Bool.or_eq_false_iff, Bool.and_eq_false_iff, decide_eq_false_iff_not, beq_eq_false_iff_ne]
    omega
  · decide
  · decide

/-- Characters of names stand for themselves in a quoted text. -/
theorem escape_of_plain {c : Char} (h : c.isAlphanum = true ∨ c = '_' ∨ c = '$') : Json.escape c = [c] := by
  rcases h with h | rfl | rfl
  · unfold Json.escape
    split
    any_goals cases h
    split
    · next hlt =>
      have hrange := range_of_isAlphanum h
      omega
    · rfl
  · rfl
  · rfl

theorem isPlainIdentifier_cases {cs : List Char} (h : isPlainIdentifier cs = true) :
    ∀ c ∈ cs, c.isAlphanum = true ∨ c = '_' ∨ c = '$' := by
  cases cs with
  | nil => cases h
  | cons d ds =>
    simp only [isPlainIdentifier, Bool.and_eq_true, Bool.or_eq_true, beq_iff_eq, List.all_eq_true] at h
    intro c hc
    rcases List.mem_cons.1 hc with rfl | hc
    · rcases h.1 with (halpha | hc) | hc
      · exact .inl (by simp [Char.isAlphanum, halpha])
      · exact .inr (.inl hc)
      · exact .inr (.inr hc)
    · rcases h.2 c hc with (halpha | hc) | hc
      · exact .inl halpha
      · exact .inr (.inl hc)
      · exact .inr (.inr hc)

theorem Hoisted.plain_nameAt {tag : String} (h : isPlainIdentifier tag.toList = true) (l : Location) :
    ∀ c ∈ (nameAt tag l).toList, c.isAlphanum = true ∨ c = '_' ∨ c = '$' := by
  have hdigit : ∀ {n : Nat}, ∀ c ∈ n.repr.toList, c.isAlphanum = true ∨ c = '_' ∨ c = '$' := fun c hc =>
    .inl (by simp [Char.isAlphanum, isDigit_of_mem_repr hc])
  rw [toList_nameAt]
  intro c hc
  rcases List.mem_append.1 hc with hc | hc
  · rcases List.mem_append.1 hc with hc | hc
    · exact isPlainIdentifier_cases h c hc
    · rcases List.mem_cons.1 hc with rfl | hc
      · exact .inr (.inr rfl)
      · exact hdigit c hc
  · rcases List.mem_cons.1 hc with rfl | hc
    · exact .inr (.inl rfl)
    · exact hdigit c hc

/-- A name is a key as it is. -/
theorem Hoisted.quote_nameAt {tag : String} (h : isPlainIdentifier tag.toList = true) (l : Location) :
    Json.quote (nameAt tag l) = "\"" ++ nameAt tag l ++ "\"" := by
  have hself : (nameAt tag l).toList.flatMap Json.escape = (nameAt tag l).toList := by
    rw [List.flatMap_congr fun c hc => escape_of_plain (plain_nameAt h l c hc)]
    simp
  apply String.toList_inj.1
  rw [Json.quote, hself]
  simp

/-! ### The calls -/

theorem exists_insertIdx {α : Type} {xs : List α} {n : Nat} (x : α) (h : n ≤ xs.length) :
    ∃ before after, xs = before ++ after ∧ xs.insertIdx n x = before ++ x :: after := by
  induction xs generalizing n with
  | nil =>
    obtain rfl : n = 0 := Nat.le_zero.1 h
    exact ⟨[], [], rfl, rfl⟩
  | cons y xs ih =>
    cases n with
    | zero => exact ⟨[], y :: xs, rfl, rfl⟩
    | succ n =>
      obtain ⟨before, after, rfl, hinsert⟩ := ih (Nat.le_of_succ_le_succ h)
      exact ⟨y :: before, after, rfl, by rw [List.insertIdx_succ_cons, hinsert]; rfl⟩

namespace ElementPlan

/-- The reference to the definition that is moved out of the element. -/
def reference? (o : Options) (f : SourceFile) (p : ElementPlan) : Option String :=
  (p.hoisted? f).map fun h => o.hoistVariable ++ "." ++ h.name

theorem isSome_reference? (o : Options) (f : SourceFile) (p : ElementPlan) :
    (p.reference? o f).isSome = p.create.isSome := by
  rw [reference?, hoisted?, Option.isSome_map, Option.isSome_map]

end ElementPlan

theorem isEmpty_filterMap_hoisted? (f : SourceFile) (ps : List ElementPlan) :
    (ps.filterMap (ElementPlan.hoisted? f)).isEmpty = !ps.any (·.create.isSome) := by
  induction ps with
  | nil => rfl
  | cons p ps ih =>
    cases h : p.create with
    | none => simp [ElementPlan.hoisted?, h, ← ih]
    | some create => simp [ElementPlan.hoisted?, h]

section Reading

variable [Script.ExpressionReader]

namespace ElementPlan

/-- The call has the arguments that the attributes give and among them the reference, if there is one. -/
def Calls (o : Options) (f : SourceFile) (p : ElementPlan) (call : String) (reference : Option String) : Prop :=
  ∃ before after, p.arguments f = before ++ after ∧ call = o.call (before ++ (reference.toList ++ after))

theorem calls_callText (o : Options) (f : SourceFile) (p : ElementPlan) :
    p.Calls o f (p.callText o f) (p.reference? o f) := by
  unfold callText reference? placeReference
  cases p.hoisted? f with
  | none => exact ⟨[], p.arguments f, rfl, rfl⟩
  | some h =>
    have hle : (p.position.getD (.index 0)).resolve (p.arguments f).length ≤ (p.arguments f).length := by
      cases p.position.getD (.index 0) with
      | index n => exact Nat.min_le_right ..
      | last => exact Nat.le_refl _
    obtain ⟨before, after, harguments, hinsert⟩ := exists_insertIdx (o.hoistVariable ++ "." ++ h.name) hle
    exact ⟨before, after, harguments, by dsimp only; rw [hinsert]; rfl⟩

end ElementPlan

/-! ### Expanded files -/

/-- What becomes of the definitions of a file that is expanded. Next to the call of each element stands the
reference in it. -/
structure Hoisting (o : Options) (f : SourceFile) (x : Expanded) (definitions : List Hoisted)
    (calls : List (String × Option String)) : Prop where
  /-- No two definitions have one name. -/
  nodup : (definitions.map Hoisted.name).Nodup
  /-- A definition is that of an element, and is named by an identifier and by its own place. -/
  named : ∀ h ∈ definitions, ∃ p ∈ f.plans o, ∃ create ∈ p.create, ∃ tag, isPlainIdentifier tag.toList = true
    ∧ h = ⟨Hoisted.nameAt tag (f.location create.value.span.start), create.value.text⟩
  /-- The names are the keys of the declaration. -/
  declaration : o.hoistDeclaration definitions = "const " ++ o.hoistVariable ++ " = " ++ o.runtimeAlias
    ++ ".create(\x7b" ++ String.intercalate ", " (definitions.map fun h => "\"" ++ h.name ++ "\": " ++ h.text)
    ++ "\x7d);"
  /-- Elements with a definition have a reference, and the others have none. -/
  elements : List.Forall₂ (fun p c => p.Calls o f c.1 c.2 ∧ c.2.isSome = p.create.isSome) (f.plans o) calls
  /-- The references are to the members of the declaration, one by one. -/
  references : calls.filterMap Prod.snd = definitions.map fun h => o.hoistVariable ++ "." ++ h.name
  /-- The elements get their calls, and there is a declaration if one of them has a definition. -/
  edits : f.spliced ((List.zipWith (fun p c => p.removals.map .remove ++ p.anchorSplices c.1) (f.plans o) calls).flatten
    ++ (if (f.plans o).any (·.expands) then [importSplice o (read f.text).document] else [])
    ++ if (f.plans o).any (·.create.isSome) then [hoistSplice o (read f.text).document definitions] else []) = .ok x

/-- In an expanded file the calls of the elements refer to the members of one declaration, in order and each
of them once, and there is a declaration just if some element has a definition. -/
theorem hoisting_expand {j : Journal} {o : Options} {f : SourceFile} {x : Expanded}
    (h : (j.expand o f).1 = .ok (some x)) : ∃ definitions calls, Hoisting o f x definitions calls := by
  obtain ⟨-, hspliced, -⟩ := gives_expansion (gives_of_outcome h)
  have hdefinitions : hoists o f (read f.text).document = (f.plans o).filterMap (ElementPlan.hoisted? f) :=
    (filterMap_hoisted?_filter f _).symm
  have hnamed : ∀ h ∈ (f.plans o).filterMap (ElementPlan.hoisted? f), ∃ p ∈ f.plans o, ∃ create ∈ p.create,
      ∃ tag, isPlainIdentifier tag.toList = true
        ∧ h = ⟨Hoisted.nameAt tag (f.location create.value.span.start), create.value.text⟩ := by
    intro h hh
    obtain ⟨p, hp, hh⟩ := List.mem_filterMap.1 hh
    obtain ⟨create, hcreate, rfl⟩ := Option.map_eq_some_iff.1 hh
    obtain ⟨tag, htag, hname⟩ := Hoisted.nameOf_eq f p.tag create.value
    exact ⟨p, hp, create, hcreate, tag, htag, by rw [hname]⟩
  refine ⟨(f.plans o).filterMap (ElementPlan.hoisted? f),
    (f.plans o).map fun p => (p.callText o f, p.reference? o f), ?_, hnamed, ?_, ?_, ?_, ?_⟩
  · rw [← hdefinitions]
    exact nodup_hoists o f
  · have hkeys : ((f.plans o).filterMap (ElementPlan.hoisted? f)).map (fun h => Json.quote h.name ++ ": " ++ h.text) =
        ((f.plans o).filterMap (ElementPlan.hoisted? f)).map fun h => "\"" ++ h.name ++ "\": " ++ h.text := by
      refine List.map_congr_left fun h hh => ?_
      obtain ⟨-, -, create, -, tag, htag, rfl⟩ := hnamed h hh
      have hcolon : "\": " = "\"" ++ ": " := rfl
      dsimp only
      rw [Hoisted.quote_nameAt htag, hcolon]
      simp only [String.append_assoc]
    rw [Options.hoistDeclaration, hkeys]
  · exact List.forall₂_map_right_iff.2 (List.forall₂_same.2 fun p _ =>
      ⟨ElementPlan.calls_callText o f p, ElementPlan.isSome_reference? o f p⟩)
  · rw [List.filterMap_map, List.map_filterMap]
    rfl
  · rw [List.zipWith_map_right, List.zipWith_self, ← List.flatMap_def]
    rw [allSplices, scriptSplices, isEmpty_filterMap_hoisted?, ← List.append_assoc] at hspliced
    rw [← hspliced]
    cases (f.plans o).any fun p => p.create.isSome <;> rfl

end Reading

/-- A file with definitions in two elements, the second of which has also a value for the runtime. -/
def pairedFile : SourceFile :=
  ⟨none, "<p stylex-create=\x7ba\x7d></p><p stylex=\x7bc\x7d stylex-create=\x7bb\x7d></p>"⟩

theorem hoisting_expand_pairedFile : ∃ x, (({} : Journal).expand {} pairedFile).1 = .ok (some x) ∧
    x.code = "<script module>const __styles = __stylex.create(\x7b\"p$1_18\": a, \"p$1_54\": b\x7d);</script>"
      ++ "<script>import * as __stylex from \"@stylexjs/stylex\";</script>"
      ++ "<p \x7b...__stylex.attrs(__styles.p$1_18)\x7d></p>"
      ++ "<p \x7b...__stylex.attrs(__styles.p$1_54, c)\x7d ></p>" ∧
    ∃ definitions calls, Hoisting {} pairedFile x definitions calls := by
  have hcode : (({} : Journal).expand {} pairedFile).1.toOption.join.map Expanded.code =
      some ("<script module>const __styles = __stylex.create(\x7b\"p$1_18\": a, \"p$1_54\": b\x7d);</script>"
        ++ "<script>import * as __stylex from \"@stylexjs/stylex\";</script>"
        ++ "<p \x7b...__stylex.attrs(__styles.p$1_18)\x7d></p>"
        ++ "<p \x7b...__stylex.attrs(__styles.p$1_54, c)\x7d ></p>") := by decide +kernel
  obtain ⟨x, hx, hcode⟩ := exists_expanded hcode
  exact ⟨x, hx, hcode, hoisting_expand hx⟩

end Restyle
