import Mathlib.Data.List.Nodup
import Restyle.Proofs.Expansion.Occasions
import Restyle.Proofs.Source.Locations

/-! Advisories in a session. Each is given once, on the first occasion for it in all files so far, and its flag
tells from then on that it was given. The warning in the log says which attribute, which file and which place in
the file occasioned it. -/

namespace Restyle

open Markup

variable {o : Options} {f : SourceFile}

/-! ### Warnings -/

/-- The text of a warning has the name of an attribute in it, and ends with the file, the line and the column that it
is about. A file without a name is anonymous. -/
inductive Notice.Says (attr : String) (filename : Option String) (place : Location) : String → Prop where
  | mk (before after : String) : Says attr filename place (before ++ attr ++ after ++ " \n\tat "
    ++ filename.getD "<anonymous>" ++ ":" ++ toString place.line ++ ":" ++ toString place.column)

theorem Notice.says_format (n : Notice) (attr : String) (filename : Option String) (place : Location) :
    Says attr filename place (n.format attr filename place) := by
  have hmessage : ∃ before after, n.message attr = before ++ attr ++ after := by
    cases n with
    | inlineCreate => exact ⟨_, _, rfl⟩
    | createPosition => exact ⟨_, _, rfl⟩
  obtain ⟨before, after, hmessage⟩ := hmessage
  have hformat : n.format attr filename place = before ++ attr ++ after ++ " \n\tat "
      ++ filename.getD "<anonymous>" ++ ":" ++ toString place.line ++ ":" ++ toString place.column := by
    rw [format, hmessage, Location.render]
    simp only [String.append_assoc]
    rfl
  exact hformat ▸ .mk before after

/-! ### The journal -/

namespace Journal

variable {j : Journal} {x : Advice}

theorem raised_record (j : Journal) (x : Advice) (n : Notice) :
    (j.record x.file (x.remark o)).raised n = (j.raised n || decide (x.notice = n)) := raised_raise ..

theorem record_of_raised (h : j.raised x.notice = true) : j.record x.file (x.remark o) = j := if_pos h

theorem history_record (h : j.raised x.notice = false) :
    (j.record x.file (x.remark o)).history = j.history ++ [x.entry o] := by
  rw [Advice.remark, Advice.entry, record, raise, if_neg (Bool.eq_false_iff.1 h)]
  cases x.notice <;> exact List.reverse_cons ..

end Journal

/-- The journal of a session that has come to the given occasions: an advisory was given if there was one for it,
once, and on the first. -/
structure Journal.Tells (o : Options) (j : Journal) (occasions : List Advice) : Prop where
  raised : ∀ n, j.raised n = true ↔ ∃ x ∈ occasions, x.notice = n
  warnings : ∃ given : List Advice, (given.map Advice.notice).Nodup
    ∧ j.history.filter (·.level = .warn) = given.map (Advice.entry o)
    ∧ (∀ n, n ∈ given.map Advice.notice ↔ j.raised n = true)
    ∧ ∀ x ∈ given, occasions.find? (·.notice = x.notice) = some x

namespace Journal.Tells

variable {j : Journal} {occasions : List Advice}

theorem debug (h : j.Tells o occasions) (text : String) : (j.debug text).Tells o occasions := by
  obtain ⟨hraised, given, hnodup, hwarnings, hgiven, hfirst⟩ := h
  refine ⟨hraised, given, hnodup, ?_, hgiven, hfirst⟩
  rw [← hwarnings]
  simp [Journal.debug, Journal.log, Journal.history]

/-- One more occasion. -/
theorem record (h : j.Tells o occasions) (x : Advice) :
    (j.record x.file (x.remark o)).Tells o (occasions ++ [x]) := by
  obtain ⟨hraised, given, hnodup, hwarnings, hgiven, hfirst⟩ := h
  have hstill : ∀ y ∈ given, (occasions ++ [x]).find? (·.notice = y.notice) = some y := fun y hy => by
    rw [List.find?_append, hfirst y hy, Option.some_or]
  refine ⟨fun n => ?_, ?_⟩
  · rw [raised_record]
    simp [hraised, or_and_right, exists_or]
  · cases hnew : j.raised x.notice with
    | true =>
      rw [record_of_raised hnew]
      exact ⟨given, hnodup, hwarnings, hgiven, hstill⟩
    | false =>
      have hnone : x.notice ∉ given.map Advice.notice := by simp [hgiven, hnew]
      have hfind : occasions.find? (·.notice = x.notice) = none := by simpa [hnew] using (hraised x.notice).not
      refine ⟨given ++ [x], ?_, ?_, fun n => ?_, fun y hy => ?_⟩
      · rw [List.map_append, List.map_singleton, ← List.concat_eq_append]
        exact List.Nodup.concat hnone hnodup
      · rw [history_record hnew, List.filter_append, List.map_append, hwarnings]
        rfl
      · rw [raised_record, Bool.or_eq_true, ← hgiven]
        simp [eq_comm]
      · rcases List.mem_append.1 hy with hy | hy
        · exact hstill y hy
        · rw [List.mem_singleton.1 hy, List.find?_append, hfind, Option.none_or]
          simp

theorem recordAll (h : j.Tells o occasions) {remarks : List Remark} {more : List Advice}
    (hremarks : remarks.filter Remark.isAdvice = more.map (Advice.remark o)) (hfile : ∀ x ∈ more, x.file = f) :
    (j.recordAll f remarks).Tells o (occasions ++ more) := by
  induction remarks generalizing j occasions more with
  | nil =>
    obtain rfl := List.map_eq_nil_iff.1 hremarks.symm
    simpa using h
  | cons r remarks ih =>
    cases r with
    | debug text => exact ih (h.debug text) hremarks hfile
    | advice n attr location =>
      obtain ⟨x, more, rfl, hx, hrest⟩ := List.map_eq_cons_iff.1 hremarks.symm
      obtain ⟨rfl, hmore⟩ := List.forall_mem_cons.1 hfile
      cases hx
      rw [List.append_cons]
      exact ih (h.record x) hrest.symm hmore

end Journal.Tells

theorem Journal.tells_new (o : Options) : ({} : Journal).Tells o [] :=
  ⟨fun n => by cases n <;> simp [Journal.raised], [], List.nodup_nil, rfl, fun n => by cases n <;> simp [Journal.raised],
    by simp⟩

section Reading

variable [Script.ExpressionReader]

/-! ### The first occasion -/

/-- The first occasion for the advisory in some files: no file before has one, nor has an attribute before in its
own file. -/
structure Advice.First (o : Options) (files : List SourceFile) (x : Advice) : Prop where
  files_eq : ∃ earlier later, files = earlier ++ x.file :: later
    ∧ ∀ f ∈ earlier, ∀ before a, ¬ f.Occasions o x.notice before a
  occasion : ∃ before, x.file.Occasions o x.notice before x.cause ∧ ∀ b ∈ before, ¬ b.Occasions o x.notice

/-- The first occasion for an advisory in some files. -/
theorem Advice.first_of_find? {files : List SourceFile} {x : Advice}
    (h : (files.flatMap (·.occasions o)).find? (·.notice = x.notice) = some x) : x.First o files := by
  rw [List.find?_flatMap] at h
  obtain ⟨earlier, f, later, rfl, hfind, hearlier⟩ := List.findSome?_eq_some_iff.1 h
  obtain ⟨rfl, before, hoccasion, hfirst⟩ := SourceFile.find?_occasions hfind
  refine ⟨⟨earlier, later, rfl, fun g hg before a ha => ?_⟩, before, hoccasion, hfirst⟩
  have hnone := List.find?_eq_none.1 (hearlier g hg) ⟨x.notice, g, a⟩ (SourceFile.mem_occasions_iff.2 ⟨rfl, before, ha⟩)
  simp at hnone

/-- An occasion is located at the first character of its attribute. -/
theorem Advice.First.locatedAt {files : List SourceFile} {x : Advice} (h : x.First o files) :
    x.file.LocatedAt x.cause.span.start x.location := by
  obtain ⟨before, hoccasion, -⟩ := h.occasion
  obtain ⟨after, hwalk⟩ := hoccasion.walk
  have hmem : x.cause ∈ allAttributes (read x.file.text).document.fragment.elements := by
    rw [hwalk]
    exact List.mem_append_right before (List.mem_cons_self ..)
  exact SourceFile.locatedAt_location ((sound_read_cuts x.file.text).fragment.shown x.cause hmem).holds.start

/-! ### Sessions -/

/-- The journal at the end of a session. -/
def journalAfter (o : Options) (j : Journal) (files : List SourceFile) : Journal :=
  ((session o j files).getLast?.map Prod.snd).getD j

theorem journalAfter_cons (j : Journal) (files : List SourceFile) :
    journalAfter o j (f :: files) = journalAfter o (j.expand o f).2 files := by
  rw [journalAfter, journalAfter, session, List.getLast?_cons]
  cases (session o (j.expand o f).2 files).getLast? <;> rfl

theorem session_append (j : Journal) (files rest : List SourceFile) :
    session o j (files ++ rest) = session o j files ++ session o (journalAfter o j files) rest := by
  induction files generalizing j with
  | nil => rfl
  | cons f files ih => rw [List.cons_append, session, session, ih, journalAfter_cons, List.cons_append]

theorem tells_journalAfter {j : Journal} {occasions : List Advice} (h : j.Tells o occasions) (files : List SourceFile) :
    (journalAfter o j files).Tells o (occasions ++ files.flatMap (·.occasions o)) := by
  induction files generalizing j occasions with
  | nil => simpa [journalAfter, session] using h
  | cons f files ih =>
    have hfile : ∀ x ∈ f.occasions o, x.file = f := fun x hx => (SourceFile.mem_occasions_iff.1 hx).1
    rw [journalAfter_cons, List.flatMap_cons, ← List.append_assoc]
    exact ih (h.recordAll (advice_expand o f) hfile)

theorem exists_mem_occasions_iff {files : List SourceFile} {n : Notice} :
    (∃ x ∈ files.flatMap (·.occasions o), x.notice = n) ↔ ∃ f ∈ files, ∃ before a, f.Occasions o n before a := by
  constructor
  · rintro ⟨x, hx, rfl⟩
    obtain ⟨f, hf, hx⟩ := List.mem_flatMap.1 hx
    obtain ⟨-, before, hoccasion⟩ := SourceFile.mem_occasions_iff.1 hx
    exact ⟨f, hf, before, x.cause, hoccasion⟩
  · rintro ⟨f, hf, before, a, hoccasion⟩
    have hx : (⟨n, f, a⟩ : Advice) ∈ f.occasions o := SourceFile.mem_occasions_iff.2 ⟨rfl, before, hoccasion⟩
    exact ⟨_, List.mem_flatMap.2 ⟨f, hf, hx⟩, rfl⟩

/-- Advisories over a session that begins with a new journal. After any of its files an advisory has been given if
and only if one of them gives an occasion for it, and this stays so whatever files follow. The warnings in the log
are one for each advisory that was given, and its text says the attribute, the file, the line and the column of the
first occasion. -/
theorem session_advises (o : Options) (files rest : List SourceFile) :
    session o {} (files ++ rest) = session o {} files ++ session o (journalAfter o {} files) rest
      ∧ (∀ n, (journalAfter o {} files).raised n = true → (journalAfter o {} (files ++ rest)).raised n = true)
      ∧ (∀ n, (journalAfter o {} files).raised n = true ↔ ∃ f ∈ files, ∃ before a, f.Occasions o n before a)
      ∧ ∃ given : List Advice, (given.map Advice.notice).Nodup
        ∧ (journalAfter o {} files).history.filter (·.level = .warn) = given.map (Advice.entry o)
        ∧ (∀ n, n ∈ given.map Advice.notice ↔ (journalAfter o {} files).raised n = true)
        ∧ ∀ x ∈ given, x.First o files ∧ x.file.LocatedAt x.cause.span.start x.location
          ∧ Notice.Says (Advice.subject o x.notice) x.file.name x.location (x.entry o).text := by
  have htells : ∀ fs, (journalAfter o {} fs).Tells o (fs.flatMap (·.occasions o)) :=
    tells_journalAfter (Journal.tells_new o)
  have hraised : ∀ fs n, (journalAfter o {} fs).raised n = true ↔ ∃ f ∈ fs, ∃ before a, f.Occasions o n before a :=
    fun fs n => ((htells fs).raised n).trans exists_mem_occasions_iff
  refine ⟨session_append {} files rest, fun n hn => ?_, hraised files, ?_⟩
  · obtain ⟨f, hf, hoccasion⟩ := (hraised files n).1 hn
    exact (hraised _ n).2 ⟨f, List.mem_append_left rest hf, hoccasion⟩
  · obtain ⟨given, hnodup, hwarnings, hgiven, hfirst⟩ := (htells files).warnings
    refine ⟨given, hnodup, hwarnings, hgiven, fun x hx => ?_⟩
    have hx := Advice.first_of_find? (hfirst x hx)
    exact ⟨hx, hx.locatedAt, x.notice.says_format _ x.file.name x.location⟩

end Reading

-- The first file is left at its position, so the definition behind it is no occasion.
example : (journalAfter {} {} [⟨some "a", "<p stylex-create-at=\x7b1 +\x7d stylex-create=\x7bx\x7d/>"⟩,
    ⟨some "b", "<i stylex-create=\x7by\x7d/>"⟩]).history.filter (·.level = .warn) =
      [⟨.warn, Notice.createPosition.format "stylex-create-at" (some "a") ⟨1, 3⟩⟩,
        ⟨.warn, Notice.inlineCreate.format "stylex-create" (some "b") ⟨1, 3⟩⟩] := by decide +kernel

end Restyle
