import Restyle.Proofs.Workspace.PathOrder

/-! How paths are spelled. What is shown of a file is what was written behind the workspace, so the same file may be
shown under several names; below paths in which nothing idle is written between the names, files are shown under the
names of their places. -/

namespace Restyle

open Text

namespace FileTree

@[simp] theorem placeBelow?_append (place names : NodePlace) : placeBelow? place (place ++ names) = some names := by
  induction place with
  | nil => rfl
  | cons n place ih => rw [List.cons_append, placeBelow?, if_pos rfl, ih]

theorem placeBelow?_eq_some {place x rest : NodePlace} : placeBelow? place x = some rest ↔ x = place ++ rest := by
  refine ⟨of_placeBelow?, fun h => ?_⟩
  rw [h, placeBelow?_append]

end FileTree

namespace Path

variable {p q base : Path} {segments names idle : List String} {place : NodePlace}

/-! ### Joined segments -/

/-- Segments without an empty one at the end, behind which nothing is written. -/
def dropSlash (segments : List String) : List String :=
  if segments.getLast? = some "" then segments.dropLast else segments

/-- The segments of a path to which others are joined. -/
def stem (p : Path) : List String := dropSlash p.segments

theorem dropSlash_append {more : List String} (h : more ≠ []) :
    dropSlash (segments ++ more) = segments ++ dropSlash more := by
  rw [dropSlash, dropSlash, List.getLast?_append_of_ne_nil _ h]
  split_ifs
  · rw [List.dropLast_append_of_ne_nil h]
  · rfl

@[simp] theorem stepsOf_dropSlash (segments : List String) : stepsOf (dropSlash segments) = stepsOf segments := by
  rw [dropSlash]
  split_ifs with hend
  · obtain ⟨front, rfl⟩ := List.getLast?_eq_some_iff.1 hend
    rw [List.dropLast_concat, stepsOf_append, stepsOf_eq_nil (by decide : ∀ s ∈ [""], isIdle s = true), List.append_nil]
  · rfl

theorem mem_of_mem_dropSlash {s : String} (h : s ∈ dropSlash segments) : s ∈ segments := by
  rw [dropSlash] at h
  split_ifs at h
  · exact List.mem_of_mem_dropLast h
  · exact h

theorem stepsOf_stem (p : Path) : stepsOf p.stem = p.steps := stepsOf_dropSlash p.segments

theorem segments_ofSegments (hne : segments ≠ []) (h : ∀ s ∈ segments, '/' ∉ s.toList) :
    (ofSegments segments).segments = segments := by
  rw [Path.segments, toList_ofSegments, splitAtChar_intercalate (by simpa using hne) (by simpa using h)]
  simp

@[simp] theorem ofSegments_segments (p : Path) : ofSegments p.segments = p := by
  have htext : (ofSegments p.segments).text.toList = p.text.toList := by
    rw [toList_ofSegments, Path.segments, List.map_map]
    simp [Function.comp_def, intercalate_splitAtChar]
  exact congrArg Path.mk (String.toList_inj.1 htext)

/-- Behind the segments of a path follow those of the path that is joined to it. -/
theorem segments_join (h : q.isAbsolute = false) : (p.join q).segments = p.stem ++ q.segments := by
  obtain ⟨text⟩ := p
  rw [join, if_neg (by simp [h])]
  split_ifs with hend
  · rw [Bool.or_eq_true, decide_eq_true_eq, decide_eq_true_eq] at hend
    rcases hend with hempty | hslash
    · obtain rfl : text = "" := hempty
      simp [stem, dropSlash, Path.segments, splitAtChar]
    · obtain ⟨before, hbefore⟩ := List.getLast?_eq_some_iff.1 hslash
      have hbefore' : text.toList = before ++ '/' :: [] := hbefore
      simp [stem, dropSlash, Path.segments, hbefore', splitAtChar_append_cons, splitAtChar]
  · rw [Bool.or_eq_true, decide_eq_true_eq, decide_eq_true_eq, not_or] at hend
    -- A text that does not end in a slash has something in its last segment.
    have hlast : (⟨text⟩ : Path).segments.getLast? ≠ some "" := by
      obtain ⟨front, c, hc⟩ := List.eq_nil_or_concat text.toList |>.resolve_left fun hnil =>
        hend.1 (String.toList_eq_nil_iff.1 hnil)
      rw [List.concat_eq_append] at hc
      have hne : '/' ∉ [c] := fun hmem => hend.2 (by simpa [hc] using (List.mem_singleton.1 hmem).symm)
      obtain ⟨parts, last, hparts⟩ : ∃ parts last, splitAtChar '/' front = parts ++ [last] :=
        ⟨_, _, (List.dropLast_append_getLast (splitAtChar_ne_nil '/' front)).symm⟩
      simp [Path.segments, hc, splitAtChar_append hne hparts]
    rw [stem, dropSlash, if_neg hlast]
    simp [Path.segments, splitAtChar_append_cons]

theorem stem_join (h : q.isAbsolute = false) : (p.join q).stem = p.stem ++ q.stem := by
  rw [stem, segments_join h, dropSlash_append q.segments_ne_nil, stem, stem]

theorem stepsOf_names (h : ∀ n ∈ names, IsName n) : stepsOf names = names.map .name := by
  induction names with
  | nil => rfl
  | cons n names ih =>
    obtain ⟨hn, hnames⟩ := List.forall_mem_cons.1 h
    rw [stepsOf_cons_name hn.idle hn.up, ih hnames, List.map_cons]

/-! ### Paths below others -/

theorem isSome_dropSteps {steps : List PathStep} :
    (dropSteps steps segments).isSome = true ↔ steps <+: stepsOf segments := by
  induction steps generalizing segments with
  | nil => simp [dropSteps]
  | cons step steps ih =>
    rw [dropSteps, ← stepsOf_dropWhile_isIdle segments]
    cases hdrop : segments.dropWhile isIdle with
    | nil => simp
    | cons s rest =>
      have hs := not_isIdle_of_dropWhile hdrop
      have hsteps : stepsOf (s :: rest) = stepOf s :: stepsOf rest := by simp [stepsOf, hs]
      rw [hsteps]
      dsimp only
      split_ifs with heq
      · rw [ih, ← heq]
        simp
      · simp [Ne.symm heq]

/-- A path is below another one if it begins with the same steps. -/
theorem isBelow_iff : p.isBelow base = true ↔ p.isAbsolute = base.isAbsolute ∧ base.steps <+: p.steps := by
  rw [isBelow, below?]
  split_ifs with habs
  · rw [Option.isSome_map, isSome_dropSteps, ← steps_eq]
    simp [beq_iff_eq.1 habs]
  · simp [mt beq_iff_eq.2 habs]

theorem Straight.isBelow_iff (hp : p.Straight) (hbase : base.Straight) :
    p.isBelow base = true ↔ base.place <+: p.place := by
  rw [Path.isBelow_iff, hp.absolute, hbase.absolute, hp.steps_eq, hbase.steps_eq]
  have hinj : Function.Injective PathStep.name := fun _ _ h => PathStep.name.inj h
  rw [List.prefix_map_iff_of_injective hinj]
  simp

/-- Behind the steps of some segments the others are left. -/
theorem dropSteps_stepsOf (segments more : List String) :
    (dropSteps (stepsOf segments) (segments ++ more)).map (·.dropWhile isIdle) = some (more.dropWhile isIdle) := by
  induction segments with
  | nil => rfl
  | cons s segments ih =>
    by_cases hs : isIdle s = true
    · rw [stepsOf_cons_of_idle hs, List.cons_append]
      -- With no steps to leave away nothing is dropped, not even what is idle.
      cases hsteps : stepsOf segments with
      | nil =>
        rw [hsteps] at ih
        rw [dropSteps, Option.map_some, List.dropWhile_cons_of_pos hs]
        exact ih
      | cons step steps =>
        rw [dropSteps_idle steps step hs]
        exact hsteps ▸ ih
    · have hsteps : stepsOf (s :: segments) = stepOf s :: stepsOf segments := by simp [stepsOf, hs]
      rw [hsteps, List.cons_append, dropSteps, List.dropWhile_cons_of_neg hs]
      dsimp only
      rw [if_pos rfl]
      exact ih

/-- Among names, steps are left away as places are. -/
theorem dropSteps_names (place : NodePlace) (h : ∀ n ∈ names, IsName n) :
    dropSteps (place.map .name) names = FileTree.placeBelow? place names := by
  induction place generalizing names with
  | nil => rfl
  | cons m place ih =>
    cases names with
    | nil => rfl
    | cons n names =>
      obtain ⟨hn, hnames⟩ := List.forall_mem_cons.1 h
      rw [List.map_cons, dropSteps, List.dropWhile_cons_of_neg hn.idle, FileTree.placeBelow?]
      simp only [stepOf, hn.up, if_false, PathStep.name.injEq, eq_comm (a := n), ih hnames]

/-! ### Plain paths -/

/-- Nothing idle stands between the names of a path, nor behind them but a slash. -/
def isNeat (p : Path) : Bool := (if p.isAbsolute then p.stem.tail else p.stem.dropWhile isIdle).all (!isIdle ·)

theorem isName_of_mem_stem {s : String} (h : s ∈ p.stem) (hidle : ¬isIdle s = true) (hlevel : .up ∉ p.steps) :
    IsName s where
  slash := not_mem_of_mem_segments (mem_of_mem_dropSlash h)
  idle := hidle
  up heq := hlevel (List.mem_map.2 ⟨s, List.mem_filter.2 ⟨mem_of_mem_dropSlash h, by simp [hidle]⟩, if_pos heq⟩)

/-- A neat path is made of names, with idle segments in front of them, if any. -/
structure Made (p : Path) (idle names : List String) : Prop where
  stem_eq : p.stem = idle ++ names
  idle : ∀ s ∈ idle, isIdle s = true
  names : ∀ n ∈ names, IsName n

theorem Made.steps_eq (h : p.Made idle names) : p.steps = names.map .name := by
  rw [← stepsOf_stem, h.stem_eq, stepsOf_append, stepsOf_eq_nil h.idle, List.nil_append, stepsOf_names h.names]

theorem stem_of_absolute (h : p.isAbsolute = true) : ∃ rest, p.stem = "" :: rest := by
  obtain ⟨cs, hcs⟩ := exists_slash h
  have hsegments : p.segments = [""] ++ (splitAtChar '/' cs).map String.ofList := by
    rw [Path.segments, hcs, splitAtChar, if_pos rfl]
    rfl
  rw [stem, hsegments, dropSlash_append (by simp [splitAtChar_ne_nil])]
  exact ⟨_, rfl⟩

theorem made_of_isNeat (h : p.isNeat = true) (hlevel : .up ∉ p.steps) :
    ∃ idle names, p.Made idle names ∧ (p.isAbsolute = true → idle = [""]) := by
  rw [isNeat] at h
  split_ifs at h with habs
  · obtain ⟨rest, hstem⟩ := stem_of_absolute habs
    rw [hstem, List.tail_cons, List.all_eq_true] at h
    refine ⟨[""], rest, ⟨hstem, by decide, fun n hn => ?_⟩, fun _ => rfl⟩
    exact isName_of_mem_stem (by simp [hstem, hn]) (by simpa using h n hn) hlevel
  · rw [List.all_eq_true] at h
    refine ⟨p.stem.takeWhile isIdle, p.stem.dropWhile isIdle, ⟨?_, fun s hs => ?_, fun n hn => ?_⟩,
      fun hp => absurd hp habs⟩
    · exact List.takeWhile_append_dropWhile.symm
    · exact List.mem_takeWhile_imp hs
    · exact isName_of_mem_stem ((List.dropWhile_suffix _).subset hn) (by simpa using h n hn) hlevel

theorem Made.place_eq (h : p.Made idle names) : p.place = names := by
  rw [place, h.steps_eq, foldl_reach_names, List.nil_append]

/-- Names that follow a path lead on from its place. -/
theorem place_join (h : q.isAbsolute = false) (hsteps : q.steps = names.map .name) :
    (p.join q).place = p.place ++ names := by
  rw [place, steps_join h, List.foldl_append, hsteps, foldl_reach_names, place]

theorem isAbsolute_join (hp : p.isAbsolute = true) (q : Path) : (p.join q).isAbsolute = true := by
  obtain ⟨cs, hcs⟩ := exists_slash hp
  rw [join]
  split_ifs with hq
  · exact hq
  · simp [isAbsolute, hcs]
  · simp [isAbsolute, hcs]

theorem Straight.join (hp : p.Straight) (hq : .up ∉ q.steps) : (p.join q).Straight where
  absolute := isAbsolute_join hp.absolute q
  level := by
    cases habs : q.isAbsolute with
    | true => rwa [Path.join, if_pos habs]
    | false =>
      rw [steps_join habs, List.mem_append, not_or]
      exact ⟨hp.level, hq⟩

theorem straight_absolute {here : Path} (hhere : here.Straight) (hp : .up ∉ p.steps) : (p.absolute here).Straight := by
  rw [absolute]
  split_ifs with habs
  · exact ⟨habs, hp⟩
  · exact hhere.join hp

theorem Straight.join_names (hp : p.Straight) (h : ∀ n ∈ names, IsName n) : (p.join (ofSegments names)).Straight where
  absolute := isAbsolute_join hp.absolute _
  level := by
    obtain ⟨hsteps, hup⟩ := steps_join_names (p := p) h
    rw [hsteps, List.mem_append, not_or]
    exact ⟨hp.level, hup⟩

theorem isAbsolute_names (h : ∀ n ∈ names, IsName n) : (ofSegments names).isAbsolute = false :=
  isAbsolute_ofSegments (fun n hn => (h n hn).slash) fun n rest hnames => (h n (by simp [hnames])).idle

theorem place_join_names (h : ∀ n ∈ names, IsName n) : (p.join (ofSegments names)).place = p.place ++ names :=
  place_join (isAbsolute_names h) ((steps_ofSegments fun n hn => (h n hn).slash).trans (stepsOf_names h))

theorem segments_join_names (hne : names ≠ []) (h : ∀ n ∈ names, IsName n) :
    (p.join (ofSegments names)).segments = p.stem ++ names := by
  rw [segments_join (isAbsolute_names h), segments_ofSegments hne fun n hn => (h n hn).slash]

theorem dropIdleEnd_names (h : ∀ n ∈ names, IsName n) : dropIdleEnd names = names := by
  obtain ⟨tail, htail, hnames⟩ := exists_dropIdleEnd names
  cases tail with
  | nil => rw [List.append_nil] at hnames; exact hnames.symm
  | cons s tail => exact absurd (htail s (by simp)) (h s (by rw [hnames]; simp)).idle

theorem dropWhile_names (hidle : ∀ s ∈ idle, isIdle s = true) (h : ∀ n ∈ names, IsName n) :
    (idle ++ names).dropWhile isIdle = names := by
  rw [List.dropWhile_append_of_pos hidle]
  cases names with
  | nil => rfl
  | cons n names => rw [List.dropWhile_cons_of_neg (h n (by simp)).idle]

/-- Behind the segments of a path its names are left. -/
theorem below?_of_stem (habs : p.isAbsolute = base.isAbsolute) (hsegments : p.segments = base.stem ++ (idle ++ names))
    (hidle : ∀ s ∈ idle, isIdle s = true) (h : ∀ n ∈ names, IsName n) : p.below? base = some (ofSegments names) := by
  obtain ⟨rest, hrest, hnames⟩ := Option.map_eq_some_iff.1 (dropSteps_stepsOf base.stem (idle ++ names))
  rw [stepsOf_stem, ← hsegments] at hrest
  rw [dropWhile_names hidle h] at hnames
  rw [below?, if_pos (beq_iff_eq.2 habs), hrest, Option.map_some, hnames, dropIdleEnd_names h]

/-- Of an absolute path that is made of names the names of its place are left. -/
theorem Straight.below?_of_names (hbase : base.Straight) (habs : p.isAbsolute = true)
    (hsegments : p.segments = "" :: names) (h : ∀ n ∈ names, IsName n) :
    p.below? base = (FileTree.placeBelow? base.place names).map ofSegments := by
  have htrim : ∀ rest, FileTree.placeBelow? base.place names = some rest →
      dropIdleEnd (rest.dropWhile isIdle) = rest := by
    intro rest hrest
    have hnames : ∀ n ∈ rest, IsName n := fun n hn => h n (by
      rw [FileTree.of_placeBelow? hrest]
      exact List.mem_append_right _ hn)
    have hdrop : ([] ++ rest).dropWhile isIdle = rest := dropWhile_names (by simp) hnames
    rw [List.nil_append] at hdrop
    rw [hdrop, dropIdleEnd_names hnames]
  rw [below?, if_pos (by simp [habs, hbase.absolute]), hsegments, hbase.steps_eq]
  cases hplace : base.place with
  | nil =>
    have hdrop := htrim names (by rw [hplace]; rfl)
    simp [dropSteps, isIdle, hdrop, FileTree.placeBelow?]
  | cons m place =>
    rw [List.map_cons, dropSteps_idle _ _ (by rfl), ← List.map_cons, ← hplace, dropSteps_names base.place h]
    exact Option.map_congr fun rest hrest => congrArg ofSegments (htrim rest hrest)

end Path

namespace Workspace

open Restyle.Path

variable {w : Workspace} {target : Path}

/-- The name under which a file at a place is shown if its path is plain. -/
def nameAt (w : Workspace) (x : NodePlace) : String :=
  match FileTree.placeBelow? w.root.place x with
  | some names => (ofSegments names).text
  | none => "/" ++ (ofSegments x).text

/-- The files below a path are shown under the names of their places. -/
def Plain (w : Workspace) (target : Path) : Prop := ∀ names, names ≠ [] → (∀ n ∈ names, IsName n) →
  w.shownName (target.join (ofSegments names)) = w.nameAt (target.place ++ names)

theorem plain_root (hroot : w.root.isAbsolute = true) : w.Plain w.root := by
  intro names hne h
  have hsegments : (w.root.join (ofSegments names)).segments = w.root.stem ++ ([] ++ names) := segments_join_names hne h
  have habs : (w.root.join (ofSegments names)).isAbsolute = w.root.isAbsolute :=
    (isAbsolute_join hroot _).trans hroot.symm
  rw [shownName, below?_of_stem habs hsegments (by simp) h, nameAt, FileTree.placeBelow?_append, Option.getD_some]

/-- Below a neat path that is joined to the workspace files are shown under the names of their places. -/
theorem plain_join {q : Path} (hroot : w.root.Straight) (hneat : q.isNeat = true) (hlevel : .up ∉ q.steps) :
    w.Plain (w.root.join q) := by
  intro names hne h
  obtain ⟨idle, front, hmade, hidle⟩ := made_of_isNeat hneat hlevel
  have hnames : ∀ n ∈ front ++ names, IsName n := fun n hn => (List.mem_append.1 hn).elim (hmade.names n) (h n)
  cases habs : q.isAbsolute with
  | false =>
    have hplace : (w.root.join q).place = w.root.place ++ front := place_join habs hmade.steps_eq
    have hsegments : ((w.root.join q).join (ofSegments names)).segments =
        w.root.stem ++ (idle ++ (front ++ names)) := by
      rw [segments_join_names hne h, stem_join habs, hmade.stem_eq]
      simp
    have hsame : ((w.root.join q).join (ofSegments names)).isAbsolute = w.root.isAbsolute :=
      (isAbsolute_join (isAbsolute_join hroot.absolute q) _).trans hroot.absolute.symm
    rw [shownName, below?_of_stem hsame hsegments hmade.idle hnames, nameAt, hplace, List.append_assoc,
      FileTree.placeBelow?_append, Option.getD_some]
  | true =>
    have hjoin : w.root.join q = q := by rw [join, if_pos habs]
    have hsegments : (q.join (ofSegments names)).segments = "" :: (front ++ names) := by
      rw [segments_join_names hne h, hmade.stem_eq, hidle habs]
      rfl
    rw [shownName, hjoin, hroot.below?_of_names (isAbsolute_join habs _) hsegments hnames, nameAt, hmade.place_eq]
    cases FileTree.placeBelow? w.root.place (front ++ names) with
    | some rest => rfl
    | none =>
      obtain ⟨n, rest, hfound⟩ := List.exists_cons_of_ne_nil (List.append_ne_nil_of_right_ne_nil front hne)
      rw [Option.map_none, Option.getD_none, ← ofSegments_segments (q.join _), hsegments, hfound]
      simp [ofSegments]

end Workspace

end Restyle
