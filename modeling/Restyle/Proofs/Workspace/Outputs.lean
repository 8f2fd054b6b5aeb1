import Restyle.Proofs.Workspace.Filing

/-! What processing a file does to a tree. The code is written before the source map, so a map that
cannot be written leaves the code behind; every other failure leaves all files as they were. -/

namespace Restyle

open Restyle.Path FileTree Text

namespace Workspace

variable {target : Path} {front : List String} {name : String}

/-! ### Source maps -/

theorem segments_mapPath (h : target.segments = front ++ [name]) :
    (mapPath target).segments = front ++ [name ++ ".map"] := by
  have hsplit : splitAtChar '/' target.text.toList = front.map String.toList ++ [name.toList] := by
    have := congrArg (List.map String.toList) h
    simpa [Path.segments, Function.comp_def] using this
  have htext : (mapPath target).text.toList = target.text.toList ++ ".map".toList := by
    simp [mapPath]
  rw [Path.segments, htext, splitAtChar_append (by decide) hsplit]
  simp [Function.comp_def]

/-- The source map stands beside its file. -/
theorem steps_mapPath (h : target.segments = front ++ [name]) :
    (mapPath target).steps = stepsOf front ++ [.name (name ++ ".map")] := by
  have hlength : 4 ≤ (name ++ ".map").length := by
    rw [String.length_append]
    exact Nat.le_add_left 4 name.length
  refine steps_of_segments (segments_mapPath h) ?_ ?_
  · intro hidle
    simp only [isIdle, Bool.or_eq_true, decide_eq_true_eq] at hidle
    rcases hidle with hidle | hidle <;> exact absurd (hidle ▸ hlength) (by decide)
  · intro hup
    exact absurd (hup ▸ hlength) (by decide)

theorem ways_mapPath (h : target.Fileable) : (mapPath target).ways = target.ways := by
  obtain ⟨front, name, hsegments, hidle, hup⟩ := h.named
  rw [ways_of_steps (steps_mapPath hsegments), ways_of_steps (steps_of_segments hsegments hidle hup)]

theorem place_mapPath_ne (h : target.Fileable) : (mapPath target).place ≠ target.place := by
  obtain ⟨front, name, hsegments, hidle, hup⟩ := h.named
  rw [place_of_steps (steps_mapPath hsegments), place_of_steps (steps_of_segments hsegments hidle hup)]
  intro heq
  have hname := congrArg String.length (List.singleton_inj.1 (List.append_cancel_left heq))
  simp at hname

/-! ### Drafts -/

/-- What is written for a file. -/
structure Draft where
  file : SourceFile
  expanded : Expanded
  target : Path

/-- The source map that is written for a draft. -/
def Draft.mapText (d : Draft) : String :=
  (MapFile.ofMap d.expanded.map d.file.text d.expanded.code d.file.shownName).render

/-- The report about a draft. -/
def reportOf (w : Workspace) (p target : Path) : Except FileError Unit → FileReport
  | .error e => .failed (w.shownName p) ("failed to write output: " ++ e.message)
  | .ok () => { filename := w.shownName p, status := .expanded, writtenTo := some (w.shownName target) }

variable {w : Workspace} {p : Path} {t : FileTree}

/-! ### Outputs -/

/-- Beside a file that was written, its source map can be written too. -/
structure AdmitsBeside (t : FileTree) (target : Path) : Prop where
  fileable : (mapPath target).Fileable
  goal : t.node? (mapPath target).place ≠ some .directory
  apart : (mapPath target).place ∉ target.ways

/-- The nodes that writing a draft changes. -/
def Draft.nodes (d : Draft) (maps : Bool) (x : NodePlace) : Option FileNode :=
  if maps ∧ x = (mapPath d.target).place then some (.file d.mapText.toUTF8)
  else if x = d.target.place then some (.file d.expanded.code.toUTF8)
  else directoriesAt d.target.ways x

/-- What writing a draft comes to. -/
inductive Drafted (w : Workspace) (t : FileTree) (d : Draft) : Except FileError Unit × FileTree → Prop
  | written {t' : FileTree} (hadmits : t.Admits d.target)
      (hmap : w.sourceMaps = true → AdmitsBeside t d.target)
      (hnode : ∀ x, t'.node? x = (d.nodes w.sourceMaps x).or (t.node? x)) : Drafted w t d (.ok (), t')
  /-- The code is written, and its source map cannot be. -/
  | halved {t' : FileTree} (e : FileError) (hadmits : t.Admits d.target) (hmaps : w.sourceMaps = true)
      (hmap : ¬AdmitsBeside t d.target)
      (hnode : ∀ x, t'.node? x = (d.nodes false x).or (t.node? x)) : Drafted w t d (.error e, t')
  | refused {t' : FileTree} (e : FileError) (hadmits : ¬t.Admits d.target)
      (hgrows : t.Grows t' d.target.ways) : Drafted w t d (.error e, t')

theorem drafted (w : Workspace) (t : FileTree) (d : Draft) :
    Drafted w t d ((w.writeOutput d.file d.expanded d.target).on t) := by
  have hdeep := Filing.writesDeep t d.target d.expanded.code
  generalize hresult : (Filing.writeDeep d.target d.expanded.code).on t = result at hdeep
  rw [writeOutput]
  cases hdeep with
  | @refused t' e hadmits hgrows =>
    rw [Filing.on_bind_of_error hresult]
    exact .refused e hadmits hgrows
  | @written t' hadmits hnode =>
    rw [Filing.on_bind_of_ok hresult]
    have hnode' : ∀ x, t'.node? x = (d.nodes false x).or (t.node? x) := fun x => by
      rw [hnode, Draft.nodes, directoriesAt]
      split_ifs <;> simp_all
    by_cases hmaps : w.sourceMaps = true
    · rw [if_pos hmaps]
      have hwrites := Filing.writes t' (mapPath d.target) d.mapText
      generalize hbeside : (Filing.write (mapPath d.target) d.mapText).on t' = result at hwrites
      rw [Draft.mapText] at hbeside
      rw [hbeside]
      have hmapNode := hnode (mapPath d.target).place
      rw [if_neg (place_mapPath_ne hadmits.fileable)] at hmapNode
      cases hwrites with
      | written hfileable hgoal =>
        have hapart : (mapPath d.target).place ∉ d.target.ways := fun hmem =>
          hgoal (by rw [hmapNode, if_pos hmem])
        rw [hmapNode, if_neg hapart] at hgoal
        refine .written hadmits (fun _ => ⟨hfileable, hgoal, hapart⟩) fun x => ?_
        rw [node?_put t' hfileable.place_ne_nil, hnode, Draft.nodes, directoriesAt]
        split_ifs <;> simp_all
      | refused e =>
        refine .halved e hadmits hmaps (fun hadmitsMap => ?_) hnode'
        have hways : ∀ x ∈ (mapPath d.target).ways, t'.node? x = some .directory := fun x hx => by
          rw [ways_mapPath hadmits.fileable] at hx
          have hne : x ≠ d.target.place := fun heq => hadmits.apart (heq ▸ hx)
          rw [hnode, if_neg hne, if_pos hx]
        have hok := Filing.on_write_of_fileable d.mapText hadmitsMap.fileable hways
          (by rw [hmapNode, if_neg hadmitsMap.apart]; exact hadmitsMap.goal)
        rw [Draft.mapText, hbeside] at hok
        simp at hok
    · rw [if_neg hmaps]
      refine .written hadmits (absurd · hmaps) fun x => ?_
      rw [hnode', eq_false_of_ne_true hmaps]

/-- The contents that writing a draft changes. -/
def Draft.contents (d : Draft) (maps : Bool) (x : NodePlace) : Option ByteArray :=
  if maps ∧ x = (mapPath d.target).place then some d.mapText.toUTF8
  else if x = d.target.place then some d.expanded.code.toUTF8
  else none

theorem content?_of_nodes {t' : FileTree} {d : Draft} {maps : Bool} (hadmits : t.Admits d.target)
    (hnode : ∀ x, t'.node? x = (d.nodes maps x).or (t.node? x)) (x : NodePlace) :
    t'.content? x = (d.contents maps x).or (t.content? x) := by
  have hx := hnode x
  rw [Draft.nodes, directoriesAt] at hx
  rw [Draft.contents]
  split_ifs at hx ⊢ with hmap hgoal hway
  · exact content?_of_file hx
  · exact content?_of_file hx
  · rw [content?_of_directory hx, hadmits.noFile x hway, Option.none_or]
  · exact content?_congr hx

theorem ofArguments_eq_ok [PatternReader] {here : Path} {a : Arguments} (h : (ofArguments t here a).toOption = some w) :
    ofArguments t here a = .ok w := by
  cases hw : ofArguments t here a with
  | error e => simp [hw, Except.toOption] at h
  | ok w' => simpa [hw, Except.toOption] using h

section Reading

variable [Script.ExpressionReader]

/-! ### Processing -/

/-- What is to be written for a file that was read, and the report if nothing is. There is no report if the program
stops at the file. -/
def review (w : Workspace) (p : Path) : Except FileError String → Option FileReport ⊕ Draft
  | .error e => .inl (some (.failed (w.shownName p) ("failed to read file: " ++ e.message)))
  | .ok text =>
    let f : SourceFile := ⟨some (w.shownName p), text⟩
    match (expand w.options f).1 with
    | .error (.trap _) => .inl none
    | .error e => .inl (some (.failed (w.shownName p) e.message))
    | .ok none => .inl (some (.unchanged (w.shownName p)))
    | .ok (some r) =>
      match w.outputPath? p with
      | none => .inl (some { filename := w.shownName p, status := .expanded, code := some r.code })
      | some target => .inr ⟨f, r, target⟩

theorem run_process (w : Workspace) (p : Path) (t : FileTree) :
    (w.process p).run t = match w.review p (t.read p) with
      | .inl report => (report, t)
      | .inr d =>
        let (result, t') := (w.writeOutput d.file d.expanded d.target).on t
        (some (w.reportOf p d.target result), t') := by
  simp only [process, review]
  cases hread : t.read p with
  | error e => simp [hread]; rfl
  | ok text =>
    simp only [StateT.run_bind, StateT.run_get, pure_bind, hread]
    generalize (expand w.options ⟨some (w.shownName p), text⟩).1 = outcome
    cases outcome with
    | error e => cases e <;> rfl
    | ok r? =>
      cases r? with
      | none => rfl
      | some r =>
        cases w.outputPath? p with
        | none => rfl
        | some target =>
          simp only [StateT.run_bind]
          cases hresult : (w.writeOutput ⟨some (w.shownName p), text⟩ r target).on t with
          | mk written t' =>
            rw [Filing.on] at hresult
            rw [hresult]
            cases written <;> rfl

/-! ### Failures -/

/-- The contents after a file failed. All are as before, or the code was written and only its source map
could not be. -/
theorem content?_process_of_failed (h : ((w.process p).run t).1.map FileReport.status = some .failed) :
    (∀ x, ((w.process p).run t).2.content? x = t.content? x) ∨
      w.sourceMaps = true ∧ ∃ d, w.review p (t.read p) = .inr d ∧ t.Admits d.target ∧
        ¬AdmitsBeside t d.target ∧
        ∀ x, ((w.process p).run t).2.content? x = (d.contents false x).or (t.content? x) := by
  rw [run_process] at h ⊢
  cases hreview : w.review p (t.read p) with
  | inl report => exact .inl fun x => rfl
  | inr d =>
    simp only [hreview] at h ⊢
    have hdrafted := drafted w t d
    generalize (w.writeOutput d.file d.expanded d.target).on t = result at hdrafted h ⊢
    cases hdrafted with
    | written => cases h
    | refused e hadmits hgrows => exact .inl hgrows.content?_eq
    | @halved t' e hadmits hmaps hmap hnode =>
      exact .inr ⟨hmaps, d, rfl, hadmits, hmap, content?_of_nodes hadmits hnode⟩

/-- Without source maps a file that fails leaves all files as they were. -/
theorem content?_process_of_not_sourceMaps (hmaps : w.sourceMaps = false)
    (h : ((w.process p).run t).1.map FileReport.status = some .failed) (x : NodePlace) :
    ((w.process p).run t).2.content? x = t.content? x := by
  rcases content?_process_of_failed h with hsame | ⟨hmaps', -⟩
  · exact hsame x
  · simp [hmaps] at hmaps'

end Reading

/-- A workspace with a directory where a source map is to be written. -/
def blockedTree : FileTree :=
  ⟨[(["a.svelte"], .file "<div stylex={a}></div>".toUTF8), (["out"], .directory),
    (["out", "a.svelte.map"], .directory)]⟩

def mapArguments : Arguments := { flags := [.sourceMap], settings := [(.outDir, "out")] }

/-- The code of a file that fails may be left behind. -/
theorem partial_output_blockedTree : ∃ w p, ofArguments blockedTree ⟨"/"⟩ mapArguments = .ok w ∧
    w.files blockedTree = [p] ∧ ((w.process p).run blockedTree).1.map FileReport.status = some .failed ∧
    blockedTree.content? ["out", "a.svelte"] = none ∧
    (((w.process p).run blockedTree).2.content? ["out", "a.svelte"]).isSome = true := by
  have hrun : (ofArguments blockedTree ⟨"/"⟩ mapArguments).toOption.map (fun w =>
      let p : Path := ⟨"/./a.svelte"⟩
      (w.targets.flatMap (w.filesOf blockedTree), ((w.process p).run blockedTree).1.map FileReport.status,
        (((w.process p).run blockedTree).2.content? ["out", "a.svelte"]).isSome))
      = some ([⟨"/./a.svelte"⟩], some .failed, true) := by
    decide +kernel
  obtain ⟨w, hw, hresult⟩ := Option.map_eq_some_iff.1 hrun
  simp only [Prod.mk.injEq] at hresult
  obtain ⟨htargets, hstatus, hleft⟩ := hresult
  refine ⟨w, ⟨"/./a.svelte"⟩, ofArguments_eq_ok hw, ?_, hstatus, by decide, hleft⟩
  rw [files, htargets, Path.sorted_singleton]

end Workspace

end Restyle
