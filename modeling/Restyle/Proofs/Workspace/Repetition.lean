import Mathlib.Data.List.Find
import Restyle.Proofs.Workspace.Rewriting

/-! Repeated runs. With an output directory a run processes none of its own outputs as long as no path is written with
two points, and then the same run, made again, comes to the same. An output directory that is written with two points
is not recognized. -/

namespace Restyle

open Restyle.Path FileTree

/-! ### Files in both trees -/

namespace FileTree

variable {t : FileTree} {target p : Path} {x : NodePlace} {node : FileNode}

/-- The path under which a node is found below a directory. -/
def found (target : Path) : NodePlace × FileNode → Option Path
  | (x, node) => match node, placeBelow? target.place x with
    | .file _, some (n :: ns) => some (target.join (ofSegments (n :: ns)))
    | _, _ => none

theorem filesBelow_of_locate (h : t.locate target = .ok target.place) :
    t.filesBelow target = t.nodes.filterMap (found target) := by
  rw [filesBelow, h]
  rfl

theorem filesBelow_of_not_locate (h : t.locate target ≠ .ok target.place) : t.filesBelow target = [] := by
  rw [filesBelow]
  cases hlocate : t.locate target with
  | error e => rfl
  | ok goal =>
    obtain ⟨rfl, -⟩ := locate_eq_ok hlocate
    exact absurd hlocate h

theorem isFile_iff : t.isFile p = true ↔ t.locate p = .ok p.place ∧ (t.content? p.place).isSome = true := by
  constructor
  · intro h
    obtain ⟨content, hlocate, hnode⟩ := Workspace.exists_of_isFile h
    exact ⟨hlocate, by rw [content?_of_file hnode]; rfl⟩
  · rintro ⟨hlocate, hsome⟩
    obtain ⟨content, hcontent⟩ := Option.isSome_iff_exists.1 hsome
    rw [isFile, find?_eq_some.2 ⟨hlocate, node?_of_content? hcontent⟩]

theorem found_eq_some (h : found target (x, node) = some p) : node.isDirectory = false ∧
    ∃ names, names ≠ [] ∧ x = target.place ++ names ∧ p = target.join (ofSegments names) := by
  unfold found at h
  dsimp only at h
  split at h
  · next content n ns hbelow =>
    cases h
    exact ⟨rfl, n :: ns, by simp, placeBelow?_eq_some.1 hbelow, rfl⟩
  · cases h

end FileTree

namespace Workspace

variable {w : Workspace} {dir p target : Path} {t t' : FileTree}

/-- A file in the output directory is not accepted. -/
theorem outside_of_accepts (hw : w.Straight) (hdir : w.destination = .directory dir) (hp : p.Straight)
    (h : w.accepts p = true) : ¬dir.place <+: p.place := by
  intro hbelow
  have hdirectory := (hp.isBelow_iff (hw.dir dir hdir)).2 hbelow
  simp [accepts, hdir, hdirectory] at h

/-- Only files outside of the output directory count. -/
theorem filter_found_filesOutside (ht : t.Named) (hw : w.Straight) (hdir : w.destination = .directory dir)
    (htarget : target ∈ w.targets) : (t.nodes.filterMap (found target)).filter w.accepts =
      ((t.filesOutside dir).filterMap (found target)).filter w.accepts := by
  rw [filesOutside, List.filterMap_filter, List.filter_filterMap, List.filter_filterMap]
  refine List.filterMap_congr fun entry hentry => ?_
  obtain ⟨x, node⟩ := entry
  dsimp only
  split_ifs with hkept
  · rfl
  · cases hfound : found target (x, node) with
    | none => rfl
    | some p =>
      obtain ⟨hfile, names, -, hx, rfl⟩ := found_eq_some hfound
      have hnames : ∀ n ∈ names, IsName n := fun n hn => ht _ hentry n (by rw [hx]; exact List.mem_append_right _ hn)
      have hinside : dir.Inside x := by simpa [hfile] using hkept
      have hp := (hw.targets target htarget).join_names hnames
      have hno : w.accepts (target.join (ofSegments names)) ≠ true := fun haccepts =>
        outside_of_accepts hw hdir hp haccepts (by rw [place_join_names hnames, ← hx]; exact hinside.1)
      simp [Option.filter, hno]

theorem locate_of_edits (ht : t.Sound) (hedits : Edits dir t t') (hp : .up ∉ p.steps)
    (hsome : (t.node? p.place).isSome = true) : t'.locate p = t.locate p := by
  obtain ⟨kind, hkind⟩ := Option.isSome_iff_exists.1 (isSome_kind?.trans hsome)
  have hsame : t'.kind? p.place = t.kind? p.place := (hedits.extends _ _ hkind).trans hkind.symm
  exact locate_congr ht.rooted (hedits.sound ht).rooted hp hsame (by simp [hkind])

theorem isFile_of_edits (ht : t.Sound) (hedits : Edits dir t t') (hp : .up ∉ p.steps) (h : t.isFile p = true) :
    t'.isFile p = true := by
  obtain ⟨hlocate, hsome⟩ := isFile_iff.1 h
  rw [isFile_iff, locate_of_edits ht hedits hp (locate_eq_ok hlocate).2]
  exact ⟨hlocate, hedits.extends.file hsome⟩

theorem locate_again (ht : t.Sound) (hedits : Edits dir t t') (hp : .up ∉ p.steps) (h : t.locate p = .ok p.place) :
    t'.locate p = .ok p.place :=
  (locate_of_edits ht hedits hp (locate_eq_ok h).2).trans h

/-- A file that is named and not in the output directory was there before. -/
theorem isFile_again (ht : t.Sound) (hedits : Edits dir t t') (hp : .up ∉ p.steps)
    (houtside : t'.isFile p = true → ¬dir.Inside p.place) : t'.isFile p = t.isFile p := by
  rw [Bool.eq_iff_iff]
  refine ⟨fun hfile => ?_, isFile_of_edits ht hedits hp⟩
  obtain ⟨hlocate', hsome⟩ := isFile_iff.1 hfile
  rw [hedits.content?_of_outside (houtside hfile)] at hsome
  have hnode : (t.node? p.place).isSome = true := by
    rw [← isSome_kind?, kind?_eq_some_false.2 hsome]
    rfl
  rw [isFile_iff, ← hlocate', locate_of_edits ht hedits hp hnode]
  exact ⟨rfl, hsome⟩

/-- A directory that was made holds none of the files that were there before. -/
theorem filterMap_found_of_made (ht : t.Sound) (hedits : Edits dir t t') (hlevel : .up ∉ target.steps)
    (h : t.locate target ≠ .ok target.place) (h' : t'.locate target = .ok target.place) :
    t.nodes.filterMap (found target) = [] := by
  refine List.filterMap_eq_nil_iff.2 fun entry hentry => ?_
  obtain ⟨x, node⟩ := entry
  cases hfound : found target (x, node) with
  | none => rfl
  | some p =>
    obtain ⟨-, names, hne, rfl, -⟩ := found_eq_some hfound
    have hnode := ht.node?_of_mem hentry (by simp [hne])
    have hbelow := List.prefix_append target.place names
    have hdirectory := ht.rooted.directory (by rw [hnode]; rfl) hbelow (by simpa using hne)
    have hsame := locate_of_edits ht hedits hlevel (by rw [hdirectory]; rfl)
    exact absurd (hsame.symm.trans h') h

/-- A target that stands for no file of the output directory stands for the same files again. -/
theorem filesOf_again (ht : t.Sound) (hw : w.Straight) (hdir : w.destination = .directory dir) (hedits : Edits dir t t')
    (htarget : target ∈ w.targets) (hnamed : t'.isFile target = true → ¬dir.Inside target.place) :
    w.filesOf t' target = w.filesOf t target := by
  have ht' := hedits.sound ht
  have hlevel := (hw.targets target htarget).level
  rw [filesOf, filesOf, isFile_again ht hedits hlevel hnamed]
  split_ifs
  · rfl
  by_cases h' : t'.locate target = .ok target.place
  · rw [filesBelow_of_locate h', filter_found_filesOutside ht'.named hw hdir htarget, hedits.filesOutside,
      ← filter_found_filesOutside ht.named hw hdir htarget]
    by_cases h : t.locate target = .ok target.place
    · rw [filesBelow_of_locate h]
    · rw [filterMap_found_of_made ht hedits hlevel h h', filesBelow_of_not_locate h]
  · rw [filesBelow_of_not_locate h', filesBelow_of_not_locate (mt (locate_again ht hedits hlevel) h')]

/-- The files of a run are those of the run before. -/
theorem files_again (ht : t.Sound) (hw : w.Straight) (hdir : w.destination = .directory dir) (hedits : Edits dir t t')
    (hnamed : ∀ target ∈ w.targets, t'.isFile target = true → ¬dir.Inside target.place) : w.files t' = w.files t := by
  rw [files, files]
  refine congrArg Path.sorted (List.flatMap_congr fun target htarget => ?_)
  exact filesOf_again ht hw hdir hedits htarget (hnamed target htarget)

/-- The files of a run are files of the tree. -/
theorem isSome_of_mem_files (ht : t.Sound) (h : p ∈ w.files t) : (t.content? p.place).isSome = true := by
  obtain ⟨target, -, hp⟩ := List.mem_flatMap.1 (mem_of_mem_sorted h)
  rw [filesOf] at hp
  split_ifs at hp with hfile
  · rw [List.mem_singleton.1 hp]
    exact (isFile_iff.1 hfile).2
  · obtain ⟨-, names, -, hcontent, rfl⟩ := ht.mem_filesBelow_iff.1 (List.mem_of_mem_filter hp)
    rwa [place_join_names fun n hn => ht.named.isName hcontent n (List.mem_append_right _ hn)]

/-! ### Settings -/

/-- The files in which the settings of a workspace are looked for. -/
def settingsFiles (root : Path) (named : Option Path) : List Path :=
  (match named with
    | some path => path.absolute root
    | none => root.join Options.fileName) :: ProjectConfig.fileNames.map fun (name, _) => root.join name

variable {root : Path} {named : Option Path}

theorem load_again {o : Options} (ht : t.Rooted) (ht' : t'.Rooted)
    (hsame : ∀ s ∈ settingsFiles root named, .up ∉ s.steps ∧ t'.node? s.place = t.node? s.place)
    (h : Options.load t root named = .ok o) : Options.load t' root named = .ok o := by
  obtain ⟨hlevel, hnode⟩ := hsame _ (List.mem_cons_self ..)
  cases named with
  | some path =>
    have hread : ∃ text, t.read (path.absolute root) = .ok text := by
      simp only [Options.load, Options.readFrom] at h
      split at h
      · cases h
      · exact ⟨_, ‹_›⟩
    obtain ⟨text, htext⟩ := hread
    have hread' := read_congr ht ht' hlevel hnode (isSome_of_read htext)
    simpa only [Options.load, Options.readFrom, hread'] using h
  | none =>
    have hexists : t'.exists? (root.join Options.fileName) = t.exists? (root.join Options.fileName) :=
      congrArg Option.isSome (find?_congr ht ht' hlevel hnode)
    simp only [Options.load, hexists] at h ⊢
    by_cases hthere : t.exists? (root.join Options.fileName) = true
    · rw [if_pos hthere] at h ⊢
      obtain ⟨node, hthere⟩ := Option.isSome_iff_exists.1 hthere
      have hread' := read_congr ht ht' hlevel hnode (by rw [(find?_eq_some.1 hthere).2]; rfl)
      simpa only [Options.readFrom, hread'] using h
    · rwa [if_neg hthere] at h ⊢

theorem project_load_again (ht : t.Rooted) (ht' : t'.Rooted)
    (hsame : ∀ s ∈ settingsFiles root named, .up ∉ s.steps ∧ t'.node? s.place = t.node? s.place) :
    ProjectConfig.load t' root = ProjectConfig.load t root := by
  have hsame' : ∀ entry ∈ ProjectConfig.fileNames, .up ∉ (root.join entry.1).steps ∧
      t'.node? (root.join entry.1).place = t.node? (root.join entry.1).place := fun entry hentry =>
    hsame _ (List.mem_cons_of_mem _ (List.mem_map.2 ⟨entry, hentry, rfl⟩))
  have hfind : ∀ entry ∈ ProjectConfig.fileNames, t'.find? (root.join entry.1) = t.find? (root.join entry.1) :=
    fun entry hentry => find?_congr ht ht' (hsame' entry hentry).1 (hsame' entry hentry).2
  have hfirst : (ProjectConfig.fileNames.find? fun (name, _) => t'.exists? (root.join name)) =
      ProjectConfig.fileNames.find? fun (name, _) => t.exists? (root.join name) :=
    List.find?_congr fun entry hentry => congrArg Option.isSome (hfind entry hentry)
  rw [ProjectConfig.load, ProjectConfig.load, hfirst]
  cases hchosen : ProjectConfig.fileNames.find? fun (name, _) => t.exists? (root.join name) with
  | none => rfl
  | some entry =>
    obtain ⟨hlevel, hnode⟩ := hsame' entry (List.mem_of_find?_eq_some hchosen)
    have hexists : (t.find? (root.join entry.1)).isSome = true := by
      simpa [FileTree.exists?] using List.find?_some hchosen
    obtain ⟨node, hthere⟩ := Option.isSome_iff_exists.1 hexists
    have hread' := read_congr ht ht' hlevel hnode (by rw [(find?_eq_some.1 hthere).2]; rfl)
    dsimp only
    rw [hread']

theorem ofArguments_again [PatternReader] {here : Path} {a : Arguments} (ht : t.Rooted) (ht' : t'.Rooted)
    (hsame : ∀ s ∈ settingsFiles (a.workspace.absolute here) a.config,
      .up ∉ s.steps ∧ t'.node? s.place = t.node? s.place)
    (h : ofArguments t here a = .ok w) : ofArguments t' here a = .ok w := by
  have hload : ∃ o, Options.load t (a.workspace.absolute here) a.config = .ok o := by
    cases hload : Options.load t (a.workspace.absolute here) a.config with
    | ok o => exact ⟨o, rfl⟩
    | error e =>
      simp only [ofArguments, hload, bind, Except.bind] at h
      cases h
  obtain ⟨o, hload⟩ := hload
  rw [ofArguments, load_again ht ht' hsame hload, project_load_again ht ht' hsame, ← hload]
  exact h

end Workspace

/-! ### Runs -/

namespace Run

open Workspace

variable {t t' : FileTree} {here dir : Path} {a : Arguments} {w : Workspace}

theorem locate_of_similar {p : Path} (h : t'.Similar t) (hp : .up ∉ p.steps) : t'.locate p = t.locate p := by
  rw [locate, locate]
  split
  · rfl
  · exact follow_congr hp fun x _ _ => h x

theorem level_of_settingsFiles (hroot : (a.workspace.absolute here).Straight)
    (hconfig : ∀ path, a.config = some path → .up ∉ path.steps) {s : Path}
    (hs : s ∈ settingsFiles (a.workspace.absolute here) a.config) : .up ∉ s.steps := by
  have hnames : .up ∉ Options.fileName.steps ∧ ∀ entry ∈ ProjectConfig.fileNames, .up ∉ entry.1.steps := by
    decide +kernel
  rcases List.mem_cons.1 hs with rfl | hs
  · cases hnamed : a.config with
    | some path => exact (straight_absolute hroot (hconfig path hnamed)).level
    | none => exact (hroot.join hnames.1).level
  · obtain ⟨entry, hentry, rfl⟩ := List.mem_map.1 hs
    exact (hroot.join (hnames.2 entry hentry)).level

section Reading

variable [Script.ExpressionReader] [PatternReader]

/-- A run with an output directory, if no path leads up, no settings are kept in the output directory or on the way to
it, and no file in it is named. -/
structure Settled (t : FileTree) (here : Path) (a : Arguments) (dir : Path) : Prop where
  sound : t.Sound
  straight : here.Straight
  level : a.Level
  config : ∀ path, a.config = some path → .up ∉ path.steps
  destination : a.destination = .directory dir
  /-- The workspace is not a file. -/
  workspace : t.content? (a.workspace.absolute here).place = none
  settings : ∀ s ∈ settingsFiles (a.workspace.absolute here) a.config, ¬Near (dir.absolute here) s.place
  paths : ∀ q ∈ a.paths, (ofArguments t here a).tree.isFile ((a.workspace.absolute here).join q) = true →
    ¬(dir.absolute here).Inside ((a.workspace.absolute here).join q).place

/-- The workspace does not lie in the output directory, for then its settings would. -/
theorem Settled.not_inside (h : Settled t here a dir) :
    ¬(dir.absolute here).Inside (a.workspace.absolute here).place := by
  intro hinside
  set root := a.workspace.absolute here
  have hmem : root.join ⟨"svelte.config.js"⟩ ∈ settingsFiles root a.config := by
    simp [settingsFiles, ProjectConfig.fileNames]
  have hsteps : (⟨"svelte.config.js"⟩ : Path).steps = ["svelte.config.js"].map .name := by decide +kernel
  refine h.settings _ hmem (.inr (hinside.1.trans ?_))
  rw [place_join (by decide +kernel) hsteps]
  exact List.prefix_append _ _

theorem Settled.destination_eq (h : Settled t here a dir) (hw : Workspace.ofArguments t here a = .ok w) :
    w.destination = .directory (dir.absolute here) := by
  rw [(of_ofArguments hw).2.2, h.destination]

/-- The outputs of all files go to files in the output directory. -/
theorem Settled.goal (h : Settled t here a dir) (hw : Workspace.ofArguments t here a = .ok w) {p target : Path}
    (hp : p ∈ w.files t) (htarget : w.outputPath? p = some target) : Goal (dir.absolute here) target := by
  obtain ⟨hroot, hstraight⟩ := straight_ofArguments h.straight h.level hw
  have hsome := isSome_of_mem_files h.sound hp
  have hp' := straight_of_mem_files h.sound.named hstraight hp
  refine goal_of_outputPath? hstraight (h.destination_eq hw) hp' ?_ ?_ htarget
  · intro heq
    rw [heq, (of_ofArguments hw).1, h.workspace] at hsome
    cases hsome
  · intro heq
    rw [heq, content?_of_directory (rfl : t.node? [] = some .directory)] at hsome
    cases hsome

theorem Settled.edits (h : Settled t here a dir) (hw : Workspace.ofArguments t here a = .ok w) :
    Edits (dir.absolute here) t (ofArguments t here a).tree := by
  rw [tree_ofArguments hw]
  exact edits_processAll fun p hp target => h.goal hw hp

theorem Settled.not_inside_target (h : Settled t here a dir) (hw : Workspace.ofArguments t here a = .ok w)
    {target : Path} (htarget : target ∈ w.targets)
    (hfile : (ofArguments t here a).tree.isFile target = true) :
    ¬(dir.absolute here).Inside target.place := by
  obtain ⟨hroot, htargets, -⟩ := of_ofArguments hw
  rw [htargets, hroot] at htarget
  split_ifs at htarget
  · rw [List.mem_singleton.1 htarget]
    exact h.not_inside
  · obtain ⟨q, hq, rfl⟩ := List.mem_map.1 htarget
    exact h.paths q hq hfile

/-- No file of the output directory is processed. -/
theorem Settled.not_inside_files (h : Settled t here a dir) (hw : Workspace.ofArguments t here a = .ok w) {p : Path}
    (hp : p ∈ w.files t) : ¬(dir.absolute here).Inside p.place := by
  obtain ⟨-, hstraight⟩ := straight_ofArguments h.straight h.level hw
  have hp' := straight_of_mem_files h.sound.named hstraight hp
  obtain ⟨target, htarget, hof⟩ := List.mem_flatMap.1 (mem_of_mem_sorted hp)
  rw [filesOf] at hof
  split_ifs at hof with hfile
  · rw [List.mem_singleton.1 hof]
    have hlevel := (hstraight.targets target htarget).level
    exact h.not_inside_target hw htarget (isFile_of_edits h.sound (h.edits hw) hlevel hfile)
  · exact fun hinside => outside_of_accepts hstraight (h.destination_eq hw) hp' (List.mem_filter.1 hof).2 hinside.1

/-- What a run shows depends on its reports, and while watching on whether the workspace is there. -/
theorem result_congr (hw' : Workspace.ofArguments t' here a = .ok w) (hw : Workspace.ofArguments t here a = .ok w)
    (hreports : ((w.processAll (w.files t')).run t').1 = ((w.processAll (w.files t)).run t).1)
    (hwatch : watchError? ((w.processAll (w.files t')).run t').2 w.root =
      watchError? ((w.processAll (w.files t)).run t).2 w.root) :
    (ofArguments t' here a).result = (ofArguments t here a).result ∧
      (ofArguments t' here a).screen = (ofArguments t here a).screen := by
  rw [ofArguments, ofArguments, hw', hw]
  dsimp only
  generalize (w.processAll (w.files t')).run t' = after' at hreports hwatch ⊢
  generalize (w.processAll (w.files t)).run t = after at hreports hwatch ⊢
  obtain ⟨reports', after'⟩ := after'
  obtain ⟨reports, after⟩ := after
  dsimp only at hreports hwatch ⊢
  rw [hreports, hwatch]
  cases List.mapM id reports with
  | none => exact ⟨rfl, rfl⟩
  | some reports =>
    dsimp only
    split_ifs
    · split <;> exact ⟨rfl, rfl⟩
    · exact ⟨rfl, rfl⟩

/-- The same run, made again, comes to the same: the same files, the same reports, the same result. -/
theorem Settled.again (h : Settled t here a dir) :
    (ofArguments (ofArguments t here a).tree here a).result = (ofArguments t here a).result ∧
    (ofArguments (ofArguments t here a).tree here a).screen = (ofArguments t here a).screen ∧
    ∀ w, Workspace.ofArguments t here a = .ok w →
      Workspace.ofArguments (ofArguments t here a).tree here a = .ok w ∧
      w.files (ofArguments t here a).tree = w.files t ∧
      ((w.processAll (w.files t)).run (ofArguments t here a).tree).1 = ((w.processAll (w.files t)).run t).1 := by
  cases hw : Workspace.ofArguments t here a with
  | error e =>
    have hrun : ofArguments t here a = ⟨.failed e, {}, t⟩ := by rw [ofArguments, hw]
    have htree : (ofArguments t here a).tree = t := by rw [hrun]
    rw [htree]
    exact ⟨rfl, rfl, fun w hw' => by cases hw'⟩
  | ok w =>
    obtain ⟨hroot, hstraight⟩ := straight_ofArguments h.straight h.level hw
    have hedits := h.edits hw
    have hsound := hedits.sound h.sound
    set t' := (ofArguments t here a).tree with ht'
    have hagain : Workspace.ofArguments t' here a = .ok w := by
      refine ofArguments_again h.sound.rooted hsound.rooted (fun s hs => ⟨?_, ?_⟩) hw
      · exact level_of_settingsFiles ((of_ofArguments hw).1 ▸ hroot) h.config hs
      · exact hedits.node?_of_not_near (h.settings s hs)
    have hfiles : w.files t' = w.files t :=
      files_again h.sound hstraight (h.destination_eq hw) hedits fun target htarget => h.not_inside_target hw htarget
    have hext : t'.Extends ((w.processAll (w.files t)).run t).2 := by
      rw [ht', tree_ofArguments hw]
      exact .refl _
    obtain ⟨hreports, hsimilar⟩ := processAll_again h.sound hsound (fun p hp =>
      { level := (straight_of_mem_files h.sound.named hstraight hp).level
        outside := h.not_inside_files hw hp
        file := isSome_of_mem_files h.sound hp
        content := hedits.content?_of_outside (h.not_inside_files hw hp)
        goal := fun target => h.goal hw hp }) hext
    have hwatch : watchError? ((w.processAll (w.files t')).run t').2 w.root =
        watchError? ((w.processAll (w.files t)).run t).2 w.root := by
      rw [hfiles, watchError?, watchError?, locate_of_similar hsimilar hroot.level, ht', tree_ofArguments hw]
    have hrun := result_congr hagain hw (by rw [hfiles, hreports]) hwatch
    exact ⟨hrun.1, hrun.2, fun w' hw' => by cases hw'; exact ⟨hagain, hfiles, hreports⟩⟩

end Reading

/-- A workspace with files in its output directory. -/
def outputTree : FileTree :=
  ⟨[(["a.svelte"], .file "<div stylex={a}></div>".toUTF8), (["out"], .directory),
    (["out", "b.svelte"], .file "<div stylex={b}></div>".toUTF8), (["src"], .directory)]⟩

def straightArguments : Arguments := { settings := [(.outDir, "out")] }

theorem settled_outputTree : Settled outputTree ⟨"/"⟩ straightArguments ⟨"out"⟩ where
  sound :=
    have hnames : ∀ entry ∈ outputTree.nodes, ∀ n ∈ entry.1, '/' ∉ n.toList ∧ ¬isIdle n = true ∧ n ≠ ".." := by
      decide +kernel
    { named := fun entry hentry n hn =>
        ⟨(hnames entry hentry n hn).1, (hnames entry hentry n hn).2.1, (hnames entry hentry n hn).2.2⟩
      once := by decide +kernel
      rooted := rooted_of_nodes (by decide +kernel) }
  straight := ⟨by decide +kernel, by decide +kernel⟩
  level := ⟨by decide +kernel, fun dir hdir => by cases hdir; decide +kernel, by simp [straightArguments]⟩
  config := nofun
  destination := rfl
  workspace := rfl
  settings := by decide +kernel
  paths := by simp [straightArguments]

def roundaboutArguments : Arguments := { settings := [(.outDir, "src/../out")] }

/-- Written with two points, the same output directory is not recognized: no path is named, and a file in it is
processed. -/
theorem discovered_output_outputTree : roundaboutArguments.paths = [] ∧
    roundaboutArguments.destination = .directory ⟨"src/../out"⟩ ∧
    ∃ w p, Workspace.ofArguments outputTree ⟨"/"⟩ roundaboutArguments = .ok w ∧ p ∈ w.files outputTree ∧
      (Path.absolute ⟨"src/../out"⟩ ⟨"/"⟩).Inside p.place := by
  have hrun : (Workspace.ofArguments outputTree ⟨"/"⟩ roundaboutArguments).toOption.map
      (fun w => w.targets.flatMap (w.filesOf outputTree)) = some [⟨"/./a.svelte"⟩, ⟨"/./out/b.svelte"⟩] := by
    decide +kernel
  obtain ⟨w, hw, htargets⟩ := Option.map_eq_some_iff.1 hrun
  have hmem : (⟨"/./out/b.svelte"⟩ : Path) ∈ w.targets.flatMap (w.filesOf outputTree) := by simp [htargets]
  obtain ⟨p, hp, hsame⟩ := exists_same_mem_sorted hmem
  refine ⟨rfl, rfl, w, p, ofArguments_eq_ok hw, hp, ?_⟩
  rw [place_of_same hsame]
  decide +kernel

end Run

end Restyle
