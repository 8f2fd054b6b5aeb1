import Restyle.Proofs.Expansion.Code

/-! What an expansion leaves of the attributes with a meaning. Of several values for the runtime in one element
only the last counts, and so it is with definitions; the others stay in the file as they are, so that a second
expansion finds them. -/

namespace Restyle

open Markup Remarking

/-! ### Superseded attributes -/

/-- The two are values for the runtime, or both are definitions. -/
def Convention.Rivals (c c' : Convention) : Prop :=
  ((∃ anchor, c.attrs? = some anchor) ∧ ∃ anchor, c'.attrs? = some anchor)
    ∨ (∃ anchor, c.create? = some anchor) ∧ ∃ anchor, c'.create? = some anchor

instance (c c' : Convention) : Decidable (c.Rivals c') :=
  decidable_of_iff ((c.attrs?.isSome ∧ c'.attrs?.isSome) ∨ (c.create?.isSome ∧ c'.create?.isSome))
    (by simp only [Convention.Rivals, Option.isSome_iff_exists])

theorem getLast?_filterMap_cons {α β : Type} {g : α → Option β} {before after : List α} {x y : α} {z : β}
    (hy : y ∈ after) (hz : g y = some z) :
    ((before ++ x :: after).filterMap g).getLast? = ((before ++ after).filterMap g).getLast? := by
  have hne : after.filterMap g ≠ [] := List.ne_nil_of_mem (List.mem_filterMap.2 ⟨y, hy, hz⟩)
  have hcons : (x :: after).filterMap g ≠ [] :=
    List.ne_nil_of_mem (List.mem_filterMap.2 ⟨y, List.mem_cons_of_mem x hy, hz⟩)
  have hlast : ((x :: after).filterMap g).getLast? = (after.filterMap g).getLast? := by
    cases hx : g x with
    | none => rw [List.filterMap_cons_none hx]
    | some u => rw [List.filterMap_cons_some hx, List.getLast?_cons_of_ne_nil hne]
  rw [List.filterMap_append, List.filterMap_append, List.getLast?_append_of_ne_nil _ hcons,
    List.getLast?_append_of_ne_nil _ hne, hlast]

section Reading

variable [Script.ExpressionReader]

/-- One of two rivals that is not the last makes no difference to a plan. -/
theorem planOf_of_rivals {before after : List Convention} {c c' : Convention} (h : c.Rivals c') (hafter : c' ∈ after)
    (tag : String) : planOf tag (before ++ c :: after) = planOf tag (before ++ after) := by
  have none_of : ∀ {β : Type} {g : Convention → Option β}, g c = none →
      (before ++ c :: after).filterMap g = (before ++ after).filterMap g := by
    intro β g hc
    rw [List.filterMap_append, List.filterMap_append, List.filterMap_cons_none hc]
  unfold planOf
  cases c with
  | attrs name span value =>
    rcases h with ⟨-, anchor, hc'⟩ | ⟨⟨anchor, hc⟩, -⟩
    · rw [getLast?_filterMap_cons hafter hc', none_of rfl, none_of rfl, none_of rfl]
    · cases hc
  | create name span value =>
    rcases h with ⟨⟨anchor, hc⟩, -⟩ | ⟨-, anchor, hc'⟩
    · cases hc
    · rw [getLast?_filterMap_cons hafter hc', none_of rfl, none_of rfl, none_of rfl]
  | position name span value =>
    rcases h with ⟨⟨anchor, hc⟩, -⟩ | ⟨⟨anchor, hc⟩, -⟩ <;> cases hc

/-- A value for the runtime or a definition that another one follows in its element is left as it is: no change
of the expansion touches it. -/
theorem apart_changes_of_rivals {o : Options} {f : SourceFile} {e : ElementView}
    (he : e ∈ (read f.text).document.fragment.elements) {before after : List Attribute} {a b : Attribute}
    (hattributes : e.attributes = before ++ a :: after) (hb : b ∈ after) {c c' : Convention}
    (hc : o.convention? a = some c) (hc' : o.convention? b = some c') (h : c.Rivals c') :
    ∀ change ∈ changes o f (read f.text).document.fragment.elements, change.1.Apart a.span := by
  have hapart := List.pairwise_map.1 (sound_read_cuts f.text).fragment.attributes_apart
  obtain ⟨es, es', helements⟩ := List.append_of_mem he
  -- without the attribute the element has the same plan
  let rest : ElementView := { e with attributes := before ++ after }
  have hplan : ElementPlan.of o e = ElementPlan.of o rest := by
    have hmem : c' ∈ o.conventions after := List.mem_filterMap.2 ⟨b, hb, hc'⟩
    rw [ElementPlan.of, ElementPlan.of, hattributes, Options.conventions, Options.conventions,
      List.filterMap_append, List.filterMap_append, List.filterMap_cons_some hc]
    exact planOf_of_rivals h hmem e.name
  have hchanges : changes o f (read f.text).document.fragment.elements = changes o f (es ++ rest :: es') := by
    rw [helements, changes, changes, List.map_append, List.map_append, List.map_cons, List.map_cons, hplan]
  have hwalk : allAttributes (read f.text).document.fragment.elements =
      (allAttributes es ++ before) ++ a :: (after ++ allAttributes es') := by
    rw [helements, allAttributes_append]
    simp [allAttributes, hattributes]
  have hothers : allAttributes (es ++ rest :: es') = (allAttributes es ++ before) ++ (after ++ allAttributes es') := by
    rw [allAttributes_append]
    simp [allAttributes, rest]
  rw [hwalk] at hapart
  obtain ⟨hfirst, -⟩ := List.pairwise_cons.1
    ((List.perm_middle.pairwise_iff fun hxy => Span.Apart.symm hxy).1 hapart)
  intro change hchange
  rw [hchanges] at hchange
  have hmem := (subperm_changes o f (es ++ rest :: es')).subset (List.mem_map_of_mem hchange)
  rw [hothers] at hmem
  obtain ⟨d, hd, hspan⟩ := List.mem_map.1 hmem
  rw [← hspan]
  exact (hfirst d hd).symm

end Reading

/-- A file with two values for the runtime in one element. -/
def repeatedFile : SourceFile := ⟨none, "<div stylex=\x7ba\x7d stylex=\x7bb\x7d></div>"⟩

/-- The first value is expanded by a second expansion, which brings in the runtime once more. -/
theorem expand_expand_repeatedFile : ({} : Options).invalid? = none ∧ ∃ x y,
    (({} : Journal).expand {} repeatedFile).1 = .ok (some x) ∧ (read x.code).faults = []
      ∧ (({} : Journal).expand {} ⟨none, x.code⟩).1 = .ok (some y)
      ∧ y.code = "<script>import * as __stylex from \"@stylexjs/stylex\";\n"
        ++ "import * as __stylex from \"@stylexjs/stylex\";</script>"
        ++ "<div \x7b...__stylex.attrs(a)\x7d \x7b...__stylex.attrs(b)\x7d></div>" := by
  refine ⟨by decide, ?_⟩
  have hfirst : (({} : Journal).expand {} repeatedFile).1.toOption.join.map (fun x =>
      (x.code, decide ((read x.code).faults = []))) =
        some ("<script>import * as __stylex from \"@stylexjs/stylex\";</script>"
          ++ "<div stylex=\x7ba\x7d \x7b...__stylex.attrs(b)\x7d></div>", true) := by decide +kernel
  have hsecond : (({} : Journal).expand {} ⟨none, "<script>import * as __stylex from \"@stylexjs/stylex\";</script>"
      ++ "<div stylex=\x7ba\x7d \x7b...__stylex.attrs(b)\x7d></div>"⟩).1.toOption.join.map Expanded.code =
        some ("<script>import * as __stylex from \"@stylexjs/stylex\";\n"
          ++ "import * as __stylex from \"@stylexjs/stylex\";</script>"
          ++ "<div \x7b...__stylex.attrs(a)\x7d \x7b...__stylex.attrs(b)\x7d></div>") := by decide +kernel
  obtain ⟨x, hx, hcode⟩ := exists_expanded hfirst
  obtain ⟨y, hy, hcode'⟩ := exists_expanded hsecond
  obtain ⟨hcode, hfaults⟩ := Prod.mk.inj hcode
  exact ⟨x, y, hx, of_decide_eq_true hfaults, by rw [hcode]; exact hy, hcode'⟩

/-! ### Scripts without content -/

/-- A file whose script is closed in its opening tag. -/
def selfClosedFile : SourceFile := ⟨none, "<script/><div stylex=\x7ba\x7d></div>"⟩

/-- What brings in the runtime is put behind the script. -/
theorem instanceScript_expand_selfClosedFile : ({} : Options).invalid? = none ∧ ∃ x script,
    (({} : Journal).expand {} selfClosedFile).1 = .ok (some x) ∧ (read x.code).faults = []
      ∧ (read x.code).document.instanceScript = some script ∧ script.content = ""
      ∧ x.code = "<script/>import * as __stylex from \"@stylexjs/stylex\";\n"
        ++ "<div \x7b...__stylex.attrs(a)\x7d></div>" := by
  refine ⟨by decide, ?_⟩
  have hfile : (({} : Journal).expand {} selfClosedFile).1.toOption.join.map (fun x =>
      (x.code, decide ((read x.code).faults = []), (read x.code).document.instanceScript.map Script.content)) =
        some ("<script/>import * as __stylex from \"@stylexjs/stylex\";\n"
          ++ "<div \x7b...__stylex.attrs(a)\x7d></div>", true, some "") := by decide +kernel
  obtain ⟨x, hx, hresult⟩ := exists_expanded hfile
  obtain ⟨hcode, hresult⟩ := Prod.mk.inj hresult
  obtain ⟨hfaults, hscript⟩ := Prod.mk.inj hresult
  obtain ⟨script, hscript, hcontent⟩ := Option.map_eq_some_iff.1 hscript
  exact ⟨x, script, hx, of_decide_eq_true hfaults, hscript, hcontent, hcode⟩

end Restyle
