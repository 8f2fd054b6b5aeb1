import Restyle.Proofs.Workspace.Order

/-! What a run leaves alone. With an output directory, all files outside of it keep their contents as long
as no path climbs out of the workspace; one that does takes its output out of the directory. -/

namespace Restyle

open Text

/-! ### Climbing -/

namespace Path

variable {q : Path} {steps : List PathStep}

/-- The steps, taken some names below a directory, never lead above it. -/
def staysBelow : Nat → List PathStep → Bool
  | _, [] => true
  | 0, .up :: _ => false
  | depth + 1, .up :: steps => staysBelow depth steps
  | depth, .name _ :: steps => staysBelow (depth + 1) steps

theorem staysBelow_of_not_mem (h : .up ∉ steps) (depth : Nat) : staysBelow depth steps = true := by
  induction steps generalizing depth with
  | nil => rw [staysBelow]
  | cons step steps ih =>
    rw [List.mem_cons, not_or] at h
    cases step with
    | up => exact absurd rfl h.1
    | name n =>
      rw [staysBelow]
      exact ih h.2 _

theorem staysBelow_of_append {front back : List PathStep} {depth : Nat}
    (h : staysBelow depth (front ++ back) = true) : staysBelow depth front = true := by
  induction front generalizing depth with
  | nil => rw [staysBelow]
  | cons step front ih =>
    cases step with
    | up =>
      cases depth with
      | zero => simp [staysBelow] at h
      | succ depth =>
        rw [List.cons_append, staysBelow] at h
        rw [staysBelow]
        exact ih h
    | name n =>
      rw [List.cons_append, staysBelow] at h
      rw [staysBelow]
      exact ih h

/-- Steps that do not climb lead to a place below the one they begin at. -/
theorem exists_foldl_reach {place names : NodePlace} (h : staysBelow names.length steps = true) :
    ∃ names', steps.foldl PathStep.reach (place ++ names) = place ++ names' := by
  induction steps generalizing names with
  | nil => exact ⟨names, rfl⟩
  | cons step steps ih =>
    cases step with
    | up =>
      rcases List.eq_nil_or_concat names with rfl | ⟨front, n, rfl⟩
      · simp [staysBelow] at h
      · rw [List.length_concat, staysBelow] at h
        obtain ⟨names', hnames⟩ := ih h
        refine ⟨names', ?_⟩
        rw [List.foldl_cons, PathStep.reach_up, List.concat_eq_append, ← List.append_assoc, List.dropLast_concat]
        exact hnames
    | name n =>
      rw [staysBelow] at h
      obtain ⟨names', hnames⟩ := ih (by simpa using h : staysBelow (names ++ [n]).length steps = true)
      refine ⟨names', ?_⟩
      rw [List.foldl_cons, PathStep.reach_name, List.append_assoc]
      exact hnames

/-- A place in a directory, at any depth. -/
def Inside (dir : Path) (x : NodePlace) : Prop := dir.place <+: x ∧ x ≠ dir.place

instance (dir : Path) (x : NodePlace) : Decidable (dir.Inside x) := inferInstanceAs (Decidable (_ ∧ _))

theorem inside_of_steps {dir : Path} {front : List PathStep} {name : String}
    (hsteps : q.steps = dir.steps ++ front ++ [.name name]) (h : staysBelow 0 front = true) : dir.Inside q.place := by
  have hreach : ∃ names, front.foldl PathStep.reach (dir.place ++ []) = dir.place ++ names := exists_foldl_reach h
  obtain ⟨names, hnames⟩ := hreach
  have hplace : q.place = dir.place ++ (names ++ [name]) := by
    rw [place_of_steps hsteps, List.foldl_append]
    rw [List.append_nil] at hnames
    exact (congrArg (· ++ [name]) hnames).trans (List.append_assoc ..)
  rw [Inside, hplace]
  exact ⟨List.prefix_append _ _, by simp⟩

end Path

namespace FileTree

open Restyle.Path

/-- The names in a tree are such as directories may hold. -/
def Named (t : FileTree) : Prop := ∀ entry ∈ t.nodes, ∀ n ∈ entry.1, IsName n

theorem of_placeBelow? {place other rest : NodePlace} (h : placeBelow? place other = some rest) :
    other = place ++ rest := by
  induction place generalizing other with
  | nil =>
    cases h
    rfl
  | cons a place ih =>
    cases other with
    | nil => cases h
    | cons b other =>
      rw [placeBelow?] at h
      split_ifs at h with hab
      rw [hab, ih h, List.cons_append]

/-- A file that is found below a directory is reached from it by names. -/
theorem Named.exists_names {t : FileTree} {target p : Path} (hnamed : t.Named) (h : p ∈ t.filesBelow target) :
    ∃ names, (∀ n ∈ names, IsName n) ∧ p = target.join (ofSegments names) := by
  rw [filesBelow] at h
  split at h
  · cases h
  · obtain ⟨⟨place, node⟩, hentry, hp⟩ := List.mem_filterMap.1 h
    dsimp only at hp
    split at hp
    · next n ns hbelow =>
      cases hp
      refine ⟨n :: ns, fun m hm => hnamed _ hentry m ?_, rfl⟩
      rw [of_placeBelow? hbelow]
      exact List.mem_append_right _ hm
    · cases hp

end FileTree

namespace Workspace

open Restyle.Path FileTree

variable {w : Workspace} {p target dir : Path} {t : FileTree} {x : NodePlace}

/-! ### Outputs in a directory -/

/-- Where the output of a file goes, below the output directory. -/
def remainder (w : Workspace) (p : Path) : Path := (p.below? w.root).getD ⟨p.fileName?.getD ""⟩

theorem outputPath?_of_directory (h : w.destination = .directory dir) (p : Path) :
    w.outputPath? p = some (dir.join (w.remainder p)) := by
  rw [outputPath?, h]
  rfl

/-- It is what is left of a file in the workspace, and else at most the name of the file. -/
theorem of_remainder (w : Workspace) (p : Path) : (w.remainder p).Relative ∧
    (p.steps = w.root.steps ++ (w.remainder p).steps ∨ .up ∉ (w.remainder p).steps) := by
  rw [remainder]
  cases hbelow : p.below? w.root with
  | some rest =>
    obtain ⟨hsteps, hrelative⟩ := of_below? hbelow
    exact ⟨hrelative, .inl hsteps⟩
  | none =>
    cases hname : p.fileName? with
    | none => exact ⟨⟨rfl, fun _ => rfl⟩, .inr (by simp)⟩
    | some name =>
      have hisName := isName_of_fileName? hname
      have hsteps := hisName.steps_eq
      have hne : name.toList.head? ≠ some '/' := fun hhead => hisName.slash (List.mem_of_mem_head? hhead)
      refine ⟨⟨by simpa [isAbsolute] using hne, fun hnil => ?_⟩, .inr ?_⟩
      · simp [hsteps] at hnil
      · simp [hsteps]

/-- Behind a directory an empty path names no file. -/
theorem not_fileable_join_empty (dir : Path) : ¬(dir.join ⟨""⟩).Fileable := by
  rintro ⟨-, ⟨front, name, hsegments, hidle, -⟩, -⟩
  have hend : ∃ a, (dir.join ⟨""⟩).segments = a ++ [""] := by
    obtain ⟨text⟩ := dir
    rw [join, if_neg (by decide)]
    split_ifs with hslash
    · rw [Bool.or_eq_true, decide_eq_true_eq, decide_eq_true_eq] at hslash
      rcases hslash with hempty | hslash
      · obtain rfl : text = "" := hempty
        exact ⟨[], rfl⟩
      · obtain ⟨before, hbefore⟩ := List.getLast?_eq_some_iff.1 hslash
        refine ⟨(splitAtChar '/' before).map String.ofList, ?_⟩
        have htext : (text ++ "").toList = before ++ '/' :: [] := by simpa using hbefore
        rw [segments, htext, splitAtChar_append_cons]
        simp [splitAtChar]
    · refine ⟨(splitAtChar '/' text.toList).map String.ofList, ?_⟩
      have htext : (text ++ "/" ++ "").toList = text.toList ++ '/' :: [] := by simp
      rw [segments, htext, splitAtChar_append_cons]
      simp [splitAtChar]
  obtain ⟨a, ha⟩ := hend
  obtain rfl := List.singleton_inj.1 (List.append_inj_right' (hsegments.symm.trans ha) rfl)
  exact hidle rfl

/-! ### Level paths -/

/-- Behind the root, or as a whole, the path leads nowhere up. -/
def Level (root p : Path) : Prop := .up ∉ p.steps ∨ ∃ steps, p.steps = root.steps ++ steps ∧ .up ∉ steps

theorem not_mem_remainder (h : Level w.root p) : .up ∉ (w.remainder p).steps := by
  obtain ⟨-, hsteps | hlevel⟩ := w.of_remainder p
  · rcases h with hlevel | ⟨steps, hsteps', hlevel⟩
    · exact fun hup => hlevel (hsteps ▸ List.mem_append_right _ hup)
    · rwa [List.append_cancel_left (hsteps.symm.trans hsteps')]
  · exact hlevel

theorem Level.join_names {root : Path} {names : List String} (h : Level root p) (hnames : ∀ n ∈ names, IsName n) :
    Level root (p.join (ofSegments names)) := by
  obtain ⟨hsteps, hup⟩ := steps_join_names (p := p) hnames
  rcases h with hlevel | ⟨steps, hroot, hlevel⟩
  · exact .inl (by simp [hsteps, hlevel, hup])
  · exact .inr ⟨steps ++ stepsOf names, by rw [hsteps, hroot, List.append_assoc], by simp [hlevel, hup]⟩

theorem level_of_mem_files (hnamed : t.Named) (htargets : ∀ target ∈ w.targets, Level w.root target)
    (h : p ∈ w.files t) : Level w.root p := by
  obtain ⟨target, htarget, hp⟩ := List.mem_flatMap.1 (mem_of_mem_sorted h)
  rw [filesOf] at hp
  split_ifs at hp
  · rw [List.mem_singleton.1 hp]
    exact htargets target htarget
  · obtain ⟨names, hnames, rfl⟩ := hnamed.exists_names (List.mem_of_mem_filter hp)
    exact (htargets target htarget).join_names hnames

/-! ### Arguments -/

theorem of_ofArguments [PatternReader] {here : Path} {a : Arguments} (h : ofArguments t here a = .ok w) :
    w.root = a.workspace.absolute here ∧ w.targets = (if a.paths.isEmpty then [w.root] else a.paths.map w.root.join) ∧
      w.destination = match a.destination with
        | .directory dir => .directory (dir.absolute here)
        | other => other := by
  simp only [ofArguments, bind, Except.bind] at h
  repeat' split at h
  all_goals cases h
  all_goals exact ⟨rfl, by simp_all, by simp_all⟩

theorem level_of_mem_targets [PatternReader] {here : Path} {a : Arguments} (hpaths : ∀ q ∈ a.paths, .up ∉ q.steps)
    (hw : ofArguments t here a = .ok w) (h : p ∈ w.targets) : Level w.root p := by
  obtain ⟨hroot, htargets, -⟩ := of_ofArguments hw
  rw [htargets] at h
  split_ifs at h
  · rw [List.mem_singleton.1 h]
    exact .inr ⟨[], (List.append_nil _).symm, by simp⟩
  · obtain ⟨q, hq, rfl⟩ := List.mem_map.1 h
    cases habs : q.isAbsolute with
    | true =>
      rw [join, if_pos habs]
      exact .inl (hpaths q hq)
    | false => exact .inr ⟨q.steps, steps_join habs, hpaths q hq⟩

section Reading

variable [Script.ExpressionReader]

/-! ### What is changed -/

/-- Processing a file changes no file but the target of its output and the source map beside that. -/
theorem exists_target_of_changed (h : ((w.process p).run t).2.content? x ≠ t.content? x) :
    ∃ target, w.outputPath? p = some target ∧ target.Fileable ∧
      (x = target.place ∨ w.sourceMaps = true ∧ x = (mapPath target).place) := by
  rw [run_process] at h
  cases hreview : w.review p (t.read p) with
  | inl report =>
    rw [hreview] at h
    exact absurd rfl h
  | inr d =>
    simp only [hreview] at h
    have hdrafted := drafted w t d
    generalize (w.writeOutput d.file d.expanded d.target).on t = result at hdrafted h
    have hwritten : ∀ maps, (maps = true → w.sourceMaps = true) → d.contents maps x ≠ none →
        x = d.target.place ∨ w.sourceMaps = true ∧ x = (mapPath d.target).place := by
      intro maps hmaps hne
      rw [Draft.contents] at hne
      split_ifs at hne with hmap hgoal
      · exact .inr ⟨hmaps hmap.1, hmap.2⟩
      · exact .inl hgoal
      · exact absurd rfl hne
    cases hdrafted with
    | written hadmits hmap hnode =>
      refine ⟨d.target, outputPath?_of_review hreview, hadmits.fileable, hwritten _ id fun hnone => h ?_⟩
      rw [content?_of_nodes hadmits hnode, hnone, Option.none_or]
    | halved e hadmits hmaps hmap hnode =>
      refine ⟨d.target, outputPath?_of_review hreview, hadmits.fileable, hwritten false (by simp) fun hnone => h ?_⟩
      rw [content?_of_nodes hadmits hnode, hnone, Option.none_or]
    | refused e hadmits hgrows => exact absurd (hgrows.content?_eq x) h

/-- What processing a file changes lies in the output directory, if what is left of the path of the file does
not climb. -/
theorem inside_of_changed (hdir : w.destination = .directory dir) (hstays : staysBelow 0 (w.remainder p).steps = true)
    (h : ((w.process p).run t).2.content? x ≠ t.content? x) : dir.Inside x := by
  obtain ⟨target, htarget, hfileable, hx⟩ := exists_target_of_changed h
  obtain ⟨hrelative, -⟩ := w.of_remainder p
  obtain rfl := Option.some.inj ((outputPath?_of_directory hdir p).symm.trans htarget)
  obtain ⟨front, name, hsegments, hidle, hup⟩ := hfileable.named
  have hsteps := steps_of_segments hsegments hidle hup
  rw [steps_join hrelative.relative] at hsteps
  rcases List.eq_nil_or_concat (w.remainder p).steps with hnil | ⟨steps, step, hconcat⟩
  · have hempty : w.remainder p = ⟨""⟩ := congrArg Path.mk (hrelative.text hnil)
    exact absurd (hempty ▸ hfileable) (not_fileable_join_empty dir)
  · rw [List.concat_eq_append] at hconcat
    rw [hconcat] at hstays
    rw [hconcat, ← List.append_assoc] at hsteps
    obtain ⟨hfront, hstep⟩ := List.append_inj' hsteps rfl
    obtain rfl := List.singleton_inj.1 hstep
    have hbelow : staysBelow 0 steps = true := staysBelow_of_append hstays
    rcases hx with hx | ⟨-, hx⟩ <;> rw [hx]
    · have htarget : (dir.join (w.remainder p)).steps = dir.steps ++ steps ++ [.name name] := by
        rw [steps_join hrelative.relative, hconcat, List.append_assoc]
      exact inside_of_steps htarget hbelow
    · have hbeside := steps_mapPath hsegments
      rw [← hfront] at hbeside
      exact inside_of_steps hbeside hbelow

/-- A run over files whose paths do not climb out of the workspace leaves all files outside of the output
directory as they were. -/
theorem content?_processAll_of_outside {ps : List Path} (hdir : w.destination = .directory dir)
    (hstays : ∀ p ∈ ps, staysBelow 0 (w.remainder p).steps = true) (hx : ¬dir.Inside x) :
    ((w.processAll ps).run t).2.content? x = t.content? x := by
  induction ps generalizing t with
  | nil => rfl
  | cons p ps ih =>
    rw [run_processAll_cons]
    refine (ih fun q hq => hstays q (List.mem_cons_of_mem _ hq)).trans ?_
    by_contra hne
    exact hx (inside_of_changed hdir (hstays p (List.mem_cons_self ..)) hne)

end Reading

end Workspace

namespace Run

open Workspace Restyle.Path

variable {t : FileTree} {here : Path} {a : Arguments} {w : Workspace}

section Reading

variable [Script.ExpressionReader] [PatternReader]

/-- The tree after a run is that after its files. -/
theorem tree_ofArguments (h : Workspace.ofArguments t here a = .ok w) :
    (ofArguments t here a).tree = ((w.processAll (w.files t)).run t).2 := by
  rw [ofArguments, h]
  dsimp only
  generalize (w.processAll (w.files t)).run t = after
  obtain ⟨reports, t'⟩ := after
  dsimp only
  cases List.mapM id reports with
  | none => rfl
  | some reports =>
    dsimp only
    split_ifs
    · cases watchError? t' w.root <;> rfl
    · rfl

/-- When the named paths never lead up, a run with an output directory leaves all files outside of it as they
were. -/
theorem content?_of_outside {dir : Path} (hdir : a.destination = .directory dir)
    (hpaths : ∀ q ∈ a.paths, .up ∉ q.steps) (hnamed : t.Named) {x : NodePlace} (hx : ¬(dir.absolute here).Inside x) :
    (ofArguments t here a).tree.content? x = t.content? x := by
  cases hw : Workspace.ofArguments t here a with
  | error e => rw [ofArguments, hw]
  | ok w =>
    obtain ⟨-, -, hdestination⟩ := of_ofArguments hw
    rw [tree_ofArguments hw]
    refine content?_processAll_of_outside (by rw [hdestination, hdir]) (fun p hp => ?_) hx
    refine staysBelow_of_not_mem (not_mem_remainder (level_of_mem_files hnamed (fun target htarget => ?_) hp)) 0
    exact level_of_mem_targets hpaths hw htarget

end Reading

/-- A file beside the workspace. -/
def besideTree : FileTree := ⟨[(["a.svelte"], .file "<div stylex={a}></div>".toUTF8), (["w"], .directory)]⟩

def besideArguments : Arguments where
  paths := [⟨"../a.svelte"⟩]
  settings := [(.workspace, "/w"), (.outDir, "/out")]

/-- A path that climbs out of the workspace takes the output out of the output directory, here onto the file
itself. -/
theorem escaped_output_besideTree : besideArguments.destination = .directory ⟨"/out"⟩ ∧
    ¬(Path.absolute ⟨"/out"⟩ ⟨"/"⟩).Inside ["a.svelte"] ∧
    (ofArguments besideTree ⟨"/"⟩ besideArguments).tree.content? ["a.svelte"] ≠ besideTree.content? ["a.svelte"] := by
  have hrun : (Workspace.ofArguments besideTree ⟨"/"⟩ besideArguments).toOption.map (fun w =>
      (w.targets.flatMap (w.filesOf besideTree),
        decide ((((w.process ⟨"/w/../a.svelte"⟩).run besideTree).2.content? ["a.svelte"]).map (·.size)
          = (besideTree.content? ["a.svelte"]).map (·.size))))
      = some ([⟨"/w/../a.svelte"⟩], false) := by
    decide +kernel
  obtain ⟨w, hw, hresult⟩ := Option.map_eq_some_iff.1 hrun
  obtain ⟨htargets, hchanged⟩ := Prod.mk.inj hresult
  refine ⟨rfl, by decide +kernel, fun hsame => of_decide_eq_false hchanged ?_⟩
  rw [tree_ofArguments (ofArguments_eq_ok hw), Workspace.files, htargets, sorted_singleton, run_processAll_cons,
    run_processAll_nil] at hsame
  rw [hsame]

end Run

end Restyle
