import Restyle.Proofs.Workspace.Outputs

/-! The order of the files. Files that keep out of each other's way come out the same in every order:
each of them does what it would do alone. -/

namespace Restyle

open Restyle.Path FileTree

/-- What a report says, apart from the wording of its message. -/
def FileReport.outcome (r : FileReport) : FileStatus × Option String × Option String :=
  (r.status, r.writtenTo, r.code)

namespace Workspace

variable {w : Workspace} {p q : Path} {t t₀ t' : FileTree}

/-- The places to which processing a file may write. -/
def outs (w : Workspace) (p : Path) : List NodePlace :=
  match w.outputPath? p with
  | none => []
  | some target => target.place :: if w.sourceMaps then [(mapPath target).place] else []

/-- The directories that processing a file may make. -/
def routes (w : Workspace) (p : Path) : List NodePlace :=
  match w.outputPath? p with
  | none => []
  | some target => target.ways

theorem outs_of_outputPath? {target : Path} (h : w.outputPath? p = some target) :
    w.outs p = target.place :: if w.sourceMaps then [(mapPath target).place] else [] := by
  rw [outs, h]

theorem routes_of_outputPath? {target : Path} (h : w.outputPath? p = some target) :
    w.routes p = target.ways := by
  rw [routes, h]

/-! ### One file -/

/-- What processing a file leaves alone: all files but its own outputs, and all directories; those that
it makes lead to its outputs. -/
structure Keeps (w : Workspace) (p : Path) (t t' : FileTree) : Prop where
  content : ∀ x ∉ w.outs p, t'.content? x = t.content? x
  directory : ∀ x, t.node? x = some .directory → t'.node? x = some .directory
  made : ∀ x, t'.node? x = some .directory → t.node? x = some .directory ∨ x ∈ w.routes p

theorem Keeps.refl (w : Workspace) (p : Path) (t : FileTree) : w.Keeps p t t :=
  ⟨fun _ _ => rfl, fun _ h => h, fun _ h => .inl h⟩

theorem keeps_of_grows (h : t.Grows t' (w.routes p)) : w.Keeps p t t' where
  content x _ := h.content?_eq x
  directory x hx := by
    rcases h x with hsame | ⟨-, hnone, -⟩
    · rw [hsame, hx]
    · simp [hx] at hnone
  made x hx := by
    rcases h x with hsame | ⟨hmem, -, -⟩
    · exact .inl (hsame ▸ hx)
    · exact .inr hmem

/-- A draft is written where no directory was. -/
theorem keeps_of_nodes {d : Draft} {maps : Bool} (hadmits : t.Admits d.target)
    (hmap : maps = true → w.sourceMaps = true ∧ AdmitsBeside t d.target)
    (htarget : w.outputPath? p = some d.target)
    (hnode : ∀ x, t'.node? x = (d.nodes maps x).or (t.node? x)) : w.Keeps p t t' where
  content x hx := by
    rw [outs_of_outputPath? htarget, List.mem_cons, not_or] at hx
    have hcontents : d.contents maps x = none := by
      rw [Draft.contents]
      split_ifs with hmapPlace hgoal
      · simp [(hmap hmapPlace.1).1, hmapPlace.2] at hx
      · exact absurd hgoal hx.1
      · rfl
    rw [content?_of_nodes hadmits hnode, hcontents, Option.none_or]
  directory x hx := by
    rw [hnode, Draft.nodes, directoriesAt]
    split_ifs with hmapPlace hgoal
    · exact absurd (hmapPlace.2 ▸ hx) (hmap hmapPlace.1).2.goal
    · exact absurd (hgoal ▸ hx) hadmits.goal
    · rfl
    · exact hx
  made x hx := by
    rw [hnode, Draft.nodes, directoriesAt] at hx
    rw [routes_of_outputPath? htarget]
    split_ifs at hx with hmapPlace hgoal hway
    · simp at hx
    · simp at hx
    · exact .inr hway
    · exact .inl hx

/-! ### The same file in two trees -/

variable {d : Draft} {result : Except FileError Unit × FileTree}

theorem Drafted.of_written (h : Drafted w t d result) (hadmits : t.Admits d.target)
    (hmap : w.sourceMaps = true → AdmitsBeside t d.target) :
    result.1 = .ok () ∧ ∀ x, result.2.content? x = (d.contents w.sourceMaps x).or (t.content? x) := by
  cases h with
  | written _ _ hnode => exact ⟨rfl, content?_of_nodes hadmits hnode⟩
  | halved _ _ hmaps hnot _ => exact absurd (hmap hmaps) hnot
  | refused _ hnot _ => exact absurd hadmits hnot

theorem Drafted.of_halved (h : Drafted w t d result) (hadmits : t.Admits d.target)
    (hmaps : w.sourceMaps = true) (hmap : ¬AdmitsBeside t d.target) :
    (∃ e, result.1 = .error e) ∧ ∀ x, result.2.content? x = (d.contents false x).or (t.content? x) := by
  cases h with
  | written _ hnot _ => exact absurd (hnot hmaps) hmap
  | halved e _ _ _ hnode => exact ⟨⟨e, rfl⟩, content?_of_nodes hadmits hnode⟩
  | refused _ hnot _ => exact absurd hadmits hnot

theorem Drafted.of_refused (h : Drafted w t d result) (hadmits : ¬t.Admits d.target) :
    (∃ e, result.1 = .error e) ∧ ∀ x, result.2.content? x = t.content? x := by
  cases h with
  | written hnot _ _ => exact absurd hnot hadmits
  | halved _ hnot _ _ _ => exact absurd hnot hadmits
  | refused e _ hgrows => exact ⟨⟨e, rfl⟩, hgrows.content?_eq⟩

/-- Two trees are the same for a file: it is read as the same text, and what is in the way of its
outputs is in the way in both. -/
structure Alike (w : Workspace) (p : Path) (t t₀ : FileTree) : Prop where
  read : t.read p = t₀.read p
  content : ∀ x, x ∈ w.outs p ∨ x ∈ w.routes p → t.content? x = t₀.content? x
  directory : ∀ x ∈ w.outs p, t.node? x = some .directory ↔ t₀.node? x = some .directory

theorem Alike.admits_iff {target : Path} (h : w.Alike p t t₀) (htarget : w.outputPath? p = some target) :
    t.Admits target ↔ t₀.Admits target := by
  have hways : ∀ x ∈ target.ways, t.content? x = t₀.content? x := fun x hx =>
    h.content x (.inr (routes_of_outputPath? htarget ▸ hx))
  have hgoal := h.directory target.place (by simp [outs_of_outputPath? htarget])
  constructor
  · intro ha
    exact ⟨ha.fileable, ha.parent_fault, fun x hx => (hways x hx).symm.trans (ha.noFile x hx),
      mt hgoal.2 ha.goal, ha.apart⟩
  · intro ha
    exact ⟨ha.fileable, ha.parent_fault, fun x hx => (hways x hx).trans (ha.noFile x hx),
      mt hgoal.1 ha.goal, ha.apart⟩

theorem Alike.admitsBeside_iff {target : Path} (h : w.Alike p t t₀)
    (htarget : w.outputPath? p = some target) (hmaps : w.sourceMaps = true) :
    AdmitsBeside t target ↔ AdmitsBeside t₀ target := by
  have hgoal := h.directory (mapPath target).place (by simp [outs_of_outputPath? htarget, hmaps])
  exact ⟨fun ha => ⟨ha.fileable, mt hgoal.2 ha.goal, ha.apart⟩,
    fun ha => ⟨ha.fileable, mt hgoal.1 ha.goal, ha.apart⟩⟩

/-! ### Files apart -/

/-- Processing a file writes nothing that another file is read from, or that the other writes to or makes
its directories at. -/
def Spares (w : Workspace) (p q : Path) : Prop :=
  ∀ x ∈ w.outs p, x ≠ q.place ∧ x ∉ w.outs q ∧ x ∉ w.routes q

/-- Two files keep out of each other's way. -/
def Apart (w : Workspace) (p q : Path) : Prop := w.Spares p q ∧ w.Spares q p

theorem Apart.symm (h : w.Apart p q) : w.Apart q p := ⟨h.2, h.1⟩

theorem exists_of_isFile (h : t.isFile q = true) :
    ∃ content, t.locate q = .ok q.place ∧ t.node? q.place = some (.file content) := by
  rw [isFile, find?] at h
  split at h
  · next content hfind =>
    split at hfind
    · next place hplace =>
      rw [locate] at hplace
      split at hplace
      · cases hplace
      · next hfault =>
        obtain ⟨hreach, -⟩ := of_follow_eq_ok hplace
        have hgoal : place = q.place := hreach
        rw [← hgoal, locate, hfault]
        exact ⟨content, hplace, hfind⟩
    · cases hfind
  · cases h

/-- A file is read as before after another file was processed that keeps out of its way. -/
theorem Keeps.isFile_and_read (h : w.Keeps p t t') (hapart : w.Apart p q) (hfile : t.isFile q = true) :
    t'.isFile q = true ∧ t'.read q = t.read q := by
  obtain ⟨content, hlocate, hnode⟩ := exists_of_isFile hfile
  have hcontent : t'.content? q.place = some content := by
    rw [h.content q.place fun hout => (hapart.1 _ hout).1 rfl, content?_of_file hnode]
  have hnode' : t'.node? q.place = some (.file content) := node?_of_content? hcontent
  have hlocate' : t'.locate q = .ok q.place := by
    rw [locate] at hlocate ⊢
    split at hlocate
    · cases hlocate
    · exact follow_eq_of_follow hlocate h.directory (by simp [hnode'])
  exact ⟨by simp [isFile, find?, hlocate', hnode'], by
    simp [FileTree.read, hlocate, hlocate', bind, Except.bind, hnode, hnode']⟩

theorem Keeps.alike (h : w.Keeps p t t') (hapart : w.Apart p q) (hfile : t.isFile q = true) :
    w.Alike q t' t := by
  refine ⟨(h.isFile_and_read hapart hfile).2, fun x hx => h.content x fun hout => ?_, fun x hx => ⟨fun hdir => ?_, ?_⟩⟩
  · obtain ⟨-, houts, hroutes⟩ := hapart.1 x hout
    exact hx.elim houts hroutes
  · exact (h.made x hdir).resolve_right (hapart.2 x hx).2.2
  · exact h.directory x

theorem Alike.trans {t₁ : FileTree} (h : w.Alike p t t₁) (h' : w.Alike p t₁ t₀) : w.Alike p t t₀ :=
  ⟨h.read.trans h'.read, fun x hx => (h.content x hx).trans (h'.content x hx),
    fun x hx => (h.directory x hx).trans (h'.directory x hx)⟩

theorem Alike.refl (w : Workspace) (p : Path) (t : FileTree) : w.Alike p t t :=
  ⟨rfl, fun _ _ => rfl, fun _ _ => .rfl⟩

/-- Files at different places keep out of each other's way when they are rewritten in place. -/
theorem apart_of_inPlace (hplace : w.destination = .inPlace) (hmaps : w.sourceMaps = false)
    (hp : t.isFile p = true) (hq : t.isFile q = true) (hne : p.place ≠ q.place) : w.Apart p q := by
  have hspares : ∀ p q, t.isFile p = true → t.isFile q = true → p.place ≠ q.place → w.Spares p q := by
    intro p q hp hq hne x hx
    have htarget : ∀ p, w.outputPath? p = some p := fun p => by rw [outputPath?, hplace]
    obtain rfl : x = p.place := by simpa [outs_of_outputPath? (htarget p), hmaps] using hx
    refine ⟨hne, by simpa [outs_of_outputPath? (htarget q), hmaps] using hne, fun hway => ?_⟩
    rw [routes_of_outputPath? (htarget q)] at hway
    obtain ⟨content, -, hnode⟩ := exists_of_isFile hp
    obtain ⟨_, hlocate, -⟩ := exists_of_isFile hq
    rw [locate] at hlocate
    split at hlocate
    · cases hlocate
    · simp [node?_of_follow hlocate _ hway] at hnode
  exact ⟨hspares p q hp hq hne, hspares q p hq hp (Ne.symm hne)⟩

section Reading

variable [Script.ExpressionReader]

/-! ### Processing a file -/

theorem outputPath?_of_review {read : Except FileError String} {d : Draft}
    (h : w.review p read = .inr d) : w.outputPath? p = some d.target := by
  cases read with
  | error e => cases h
  | ok text =>
    simp only [review] at h
    split at h <;> try cases h
    split at h <;> cases h
    assumption

/-- A file whose code is to be written is not reported as expanded before it is. -/
theorem status_of_review {read : Except FileError String} {report : FileReport} {target : Path}
    (h : w.review p read = .inl (some report)) (htarget : w.outputPath? p = some target) :
    report.status ≠ .expanded := by
  cases read with
  | error e => cases h; simp [FileReport.failed]
  | ok text =>
    simp only [review, htarget] at h
    split at h <;> cases h <;> simp [FileReport.failed, FileReport.unchanged]

theorem keeps_process (w : Workspace) (p : Path) (t : FileTree) :
    w.Keeps p t ((w.process p).run t).2 := by
  rw [run_process]
  cases hreview : w.review p (t.read p) with
  | inl report => exact .refl w p t
  | inr d =>
    have htarget := outputPath?_of_review hreview
    have hdrafted := drafted w t d
    dsimp only
    generalize (w.writeOutput d.file d.expanded d.target).on t = result at hdrafted ⊢
    cases hdrafted with
    | written hadmits hmap hnode => exact keeps_of_nodes hadmits (fun h => ⟨h, hmap h⟩) htarget hnode
    | halved e hadmits hmaps hmap hnode => exact keeps_of_nodes hadmits (by simp) htarget hnode
    | refused e hadmits hgrows => exact keeps_of_grows (routes_of_outputPath? htarget ▸ hgrows)

/-- What processing a file comes to is the same in both trees. -/
theorem Alike.process (h : w.Alike p t t₀) :
    ((w.process p).run t).1.map FileReport.outcome = ((w.process p).run t₀).1.map FileReport.outcome ∧
      ∀ x ∈ w.outs p, ((w.process p).run t).2.content? x = ((w.process p).run t₀).2.content? x := by
  rw [run_process, run_process, h.read]
  cases hreview : w.review p (t₀.read p) with
  | inl report => exact ⟨rfl, fun x hx => h.content x (.inl hx)⟩
  | inr d =>
    have htarget := outputPath?_of_review hreview
    have hadmits := h.admits_iff htarget
    have hbeside := h.admitsBeside_iff htarget
    have hdrafted := drafted w t d
    have hdrafted₀ := drafted w t₀ d
    dsimp only
    generalize (w.writeOutput d.file d.expanded d.target).on t = result at hdrafted ⊢
    generalize (w.writeOutput d.file d.expanded d.target).on t₀ = result₀ at hdrafted₀ ⊢
    have hcontent : ∀ x ∈ w.outs p, t.content? x = t₀.content? x := fun x hx => h.content x (.inl hx)
    by_cases ha₀ : t₀.Admits d.target
    · have ha := hadmits.2 ha₀
      by_cases hm₀ : w.sourceMaps = true → AdmitsBeside t₀ d.target
      · obtain ⟨hr₀, hc₀⟩ := hdrafted₀.of_written ha₀ hm₀
        obtain ⟨hr, hc⟩ := hdrafted.of_written ha fun hmaps => (hbeside hmaps).2 (hm₀ hmaps)
        exact ⟨by rw [hr, hr₀], fun x hx => by rw [hc, hc₀, hcontent x hx]⟩
      · obtain ⟨hmaps, hm₀⟩ := Classical.not_imp.1 hm₀
        obtain ⟨⟨e₀, hr₀⟩, hc₀⟩ := hdrafted₀.of_halved ha₀ hmaps hm₀
        obtain ⟨⟨e, hr⟩, hc⟩ := hdrafted.of_halved ha hmaps (mt (hbeside hmaps).1 hm₀)
        exact ⟨by rw [hr, hr₀]; rfl, fun x hx => by rw [hc, hc₀, hcontent x hx]⟩
    · obtain ⟨⟨e₀, hr₀⟩, hc₀⟩ := hdrafted₀.of_refused ha₀
      obtain ⟨⟨e, hr⟩, hc⟩ := hdrafted.of_refused (mt hadmits.1 ha₀)
      exact ⟨by rw [hr, hr₀]; rfl, fun x hx => by rw [hc, hc₀, hcontent x hx]⟩

/-- The code of a file that is reported as written is at its target. -/
theorem content?_process_of_expanded (h : ((w.process p).run t).1.map FileReport.status = some .expanded) {target : Path}
    (htarget : w.outputPath? p = some target) : ∃ d, w.review p (t.read p) = .inr d ∧
      ((w.process p).run t).2.content? target.place = some d.expanded.code.toUTF8 := by
  rw [run_process] at h ⊢
  cases hreview : w.review p (t.read p) with
  | inl report =>
    rw [hreview] at h
    obtain ⟨r, rfl, hstatus⟩ := Option.map_eq_some_iff.1 h
    exact absurd hstatus (status_of_review hreview htarget)
  | inr d =>
    simp only [hreview] at h ⊢
    obtain rfl : d.target = target :=
      Option.some.inj ((outputPath?_of_review hreview).symm.trans htarget)
    have hdrafted := drafted w t d
    generalize (w.writeOutput d.file d.expanded d.target).on t = result at hdrafted h ⊢
    cases hdrafted with
    | written hadmits hmap hnode =>
      refine ⟨d, rfl, ?_⟩
      rw [content?_of_nodes hadmits hnode, Draft.contents]
      rw [if_neg fun hmapPlace => place_mapPath_ne hadmits.fileable hmapPlace.2.symm, if_pos rfl]
      rfl
    | halved => cases h
    | refused => cases h

/-! ### Many files -/

@[simp] theorem run_processAll_nil (w : Workspace) (t : FileTree) :
    (w.processAll []).run t = ([], t) := rfl

theorem run_processAll_cons (w : Workspace) (p : Path) (ps : List Path) (t : FileTree) :
    (w.processAll (p :: ps)).run t =
      (((w.process p).run t).1 :: ((w.processAll ps).run ((w.process p).run t).2).1,
        ((w.processAll ps).run ((w.process p).run t).2).2) := by
  simp only [processAll, List.mapM_cons, StateT.run_bind, StateT.run_pure]
  rfl

/-- What a run comes to if each of its files does what it would do alone. -/
structure Independent (w : Workspace) (ps : List Path) (t₀ t : FileTree) : Prop where
  reports : ((w.processAll ps).run t).1.map (·.map FileReport.outcome)
    = ps.map fun p => ((w.process p).run t₀).1.map FileReport.outcome
  written : ∀ p ∈ ps, ∀ x ∈ w.outs p,
    ((w.processAll ps).run t).2.content? x = ((w.process p).run t₀).2.content? x
  others : ∀ x, (∀ p ∈ ps, x ∉ w.outs p) → ((w.processAll ps).run t).2.content? x = t.content? x

/-- The files that are still to be processed find their tree as it was at the beginning, whatever was done
for the others. -/
theorem independent_of_alike {ps : List Path} (hapart : ps.Pairwise w.Apart)
    (hfiles : ∀ p ∈ ps, t.isFile p = true) (halike : ∀ p ∈ ps, w.Alike p t t₀) :
    w.Independent ps t₀ t := by
  induction ps generalizing t with
  | nil => exact ⟨rfl, by simp, fun x _ => rfl⟩
  | cons p ps ih =>
    obtain ⟨hfirst, hrest⟩ := List.pairwise_cons.1 hapart
    have hkeeps := w.keeps_process p t
    obtain ⟨houtcome, hout⟩ := (halike p (List.mem_cons_self ..)).process
    have hlater : w.Independent ps t₀ ((w.process p).run t).2 := by
      refine ih hrest (fun q hq => ?_) fun q hq => ?_
      · exact (hkeeps.isFile_and_read (hfirst q hq) (hfiles q (List.mem_cons_of_mem _ hq))).1
      · exact (hkeeps.alike (hfirst q hq) (hfiles q (List.mem_cons_of_mem _ hq))).trans
          (halike q (List.mem_cons_of_mem _ hq))
    constructor
    · rw [run_processAll_cons, List.map_cons, List.map_cons, houtcome, hlater.reports]
    · intro q hq x hx
      rw [run_processAll_cons]
      rcases List.mem_cons.1 hq with rfl | hq
      · rw [hlater.others x fun r hr => (((hfirst r hr).1 x hx).2.1), hout x hx]
      · exact hlater.written q hq x hx
    · intro x hx
      rw [run_processAll_cons]
      rw [hlater.others x fun q hq => hx q (List.mem_cons_of_mem _ hq)]
      exact hkeeps.content x (hx p (List.mem_cons_self ..))

/-- Files that keep out of each other's way come out the same in every order: all files have the same
contents in the end. -/
theorem content?_processAll_perm {ps qs : List Path} (hperm : ps.Perm qs) (hapart : ps.Pairwise w.Apart)
    (hfiles : ∀ p ∈ ps, t.isFile p = true) (x : NodePlace) :
    ((w.processAll ps).run t).2.content? x = ((w.processAll qs).run t).2.content? x := by
  have hps := independent_of_alike hapart hfiles fun p _ => .refl w p t
  have hqs := independent_of_alike (hperm.pairwise hapart fun h => h.symm)
    (fun p hp => hfiles p (hperm.mem_iff.2 hp)) fun p _ => .refl w p t
  by_cases hx : ∃ p ∈ ps, x ∈ w.outs p
  · obtain ⟨p, hp, hout⟩ := hx
    rw [hps.written p hp x hout, hqs.written p (hperm.mem_iff.1 hp) x hout]
  · have hnone : ∀ p ∈ ps, x ∉ w.outs p := fun p hp hout => hx ⟨p, hp, hout⟩
    rw [hps.others x hnone, hqs.others x fun p hp => hnone p (hperm.mem_iff.2 hp)]

/-- Each file that is reported as written to a target has its own code there in the end. -/
theorem content?_of_expanded {ps : List Path} (hapart : ps.Pairwise w.Apart)
    (hfiles : ∀ p ∈ ps, t.isFile p = true) {r : FileReport}
    (hr : (p, some r) ∈ ps.zip ((w.processAll ps).run t).1) (hexpanded : r.status = .expanded) {target : Path}
    (htarget : w.outputPath? p = some target) :
    ∃ d, w.review p (t.read p) = .inr d ∧ d.target = target ∧
      ((w.processAll ps).run t).2.content? target.place = some d.expanded.code.toUTF8 := by
  have hps := independent_of_alike hapart hfiles fun p _ => .refl w p t
  have hmem : (p, some r.outcome) ∈ ps.zip (ps.map fun p => ((w.process p).run t).1.map FileReport.outcome) := by
    rw [← hps.reports, List.zip_map_right]
    exact List.mem_map.2 ⟨(p, some r), hr, rfl⟩
  rw [← List.map_prod_left_eq_zip] at hmem
  obtain ⟨q, hq, heq⟩ := List.mem_map.1 hmem
  obtain ⟨rfl, houtcome⟩ := Prod.mk.inj heq
  have hstatus : ((w.process q).run t).1.map FileReport.status = some .expanded := by
    obtain ⟨r', hr', hsame⟩ := Option.map_eq_some_iff.1 houtcome
    rw [hr', Option.map_some, show r'.status = .expanded from (congrArg Prod.fst hsame).trans hexpanded]
  obtain ⟨d, hreview, hcontent⟩ := content?_process_of_expanded hstatus htarget
  obtain rfl : d.target = target :=
    Option.some.inj ((outputPath?_of_review hreview).symm.trans htarget)
  refine ⟨d, hreview, rfl, ?_⟩
  rw [hps.written q hq _ (by simp [outs_of_outputPath? htarget]), hcontent]

end Reading

/-- Two files of one name, neither of them in the workspace. -/
def namesakes : FileTree :=
  ⟨[(["a"], .directory), (["a", "x.svelte"], .file "<div stylex={a}></div>".toUTF8),
    (["b"], .directory), (["b", "x.svelte"], .file "<div stylex={b}></div>".toUTF8)]⟩

def namesakeArguments : Arguments where
  paths := [⟨"/a/x.svelte"⟩, ⟨"/b/x.svelte"⟩]
  settings := [(.workspace, "/w"), (.outDir, "/out")]

/-- The code of a file that is reported as written may be lost, and the order of the files decides which
code is lost. -/
theorem lost_output_namesakes : ∃ w p q, ofArguments namesakes ⟨"/"⟩ namesakeArguments = .ok w ∧
    w.files namesakes = [p, q] ∧
    ((w.processAll [p, q]).run namesakes).1.map (·.bind FileReport.writtenTo)
      = [some "/out/x.svelte", some "/out/x.svelte"] ∧
    (((w.processAll [p, q]).run namesakes).2.read ⟨"/out/x.svelte"⟩).toOption
      ≠ (((w.processAll [q, p]).run namesakes).2.read ⟨"/out/x.svelte"⟩).toOption := by
  have hrun : (ofArguments namesakes ⟨"/"⟩ namesakeArguments).toOption.map (fun w =>
      let p : Path := ⟨"/a/x.svelte"⟩
      let q : Path := ⟨"/b/x.svelte"⟩
      (w.targets.flatMap (w.filesOf namesakes),
        ((w.processAll [p, q]).run namesakes).1.map (·.bind FileReport.writtenTo),
        decide ((((w.processAll [p, q]).run namesakes).2.read ⟨"/out/x.svelte"⟩).toOption
          = (((w.processAll [q, p]).run namesakes).2.read ⟨"/out/x.svelte"⟩).toOption)))
      = some ([⟨"/a/x.svelte"⟩, ⟨"/b/x.svelte"⟩], [some "/out/x.svelte", some "/out/x.svelte"], false) := by
    decide +kernel
  obtain ⟨w, hw, hresult⟩ := Option.map_eq_some_iff.1 hrun
  simp only [Prod.mk.injEq, decide_eq_false_iff_not] at hresult
  obtain ⟨htargets, hreports, hdiffer⟩ := hresult
  refine ⟨w, ⟨"/a/x.svelte"⟩, ⟨"/b/x.svelte"⟩, ofArguments_eq_ok hw, ?_, hreports, hdiffer⟩
  have hsorted : [(⟨"/a/x.svelte"⟩ : Path), ⟨"/b/x.svelte"⟩].Pairwise (upTo · ·) := by decide +kernel
  have hdistinct : ¬Path.same ⟨"/a/x.svelte"⟩ ⟨"/b/x.svelte"⟩ = true := by decide +kernel
  rw [files, htargets, Path.sorted, List.mergeSort_of_pairwise hsorted, distinct, if_neg hdistinct, distinct]
  simp

end Workspace

end Restyle
