import Mathlib.Data.List.Sort
import Restyle.Proofs.Workspace.Spelling

/-! Which files are processed: those that are named, and of those in named directories the ones that the extensions,
the output directory and the patterns let through, each place once and in the order of places. A pattern sees a path as
it is written, so a file that is excluded under one spelling of its directory is found under another. -/

namespace Restyle

open Restyle.Path

/-! ### Found files -/

namespace FileTree

variable {t : FileTree} {p target : Path} {x place goal : NodePlace} {node : FileNode} {segments names : List String}

/-- Every node is in a directory. -/
def Rooted (t : FileTree) : Prop :=
  ∀ place n, (t.node? (place ++ [n])).isSome = true → t.node? place = some .directory

theorem Rooted.directory {above : NodePlace} (ht : t.Rooted) (hx : (t.node? x).isSome = true) (habove : above <+: x)
    (hne : above ≠ x) : t.node? above = some .directory := by
  obtain ⟨names, rfl⟩ := habove
  induction names using List.reverseRecOn with
  | nil => simp at hne
  | append_singleton names n ih =>
    have hparent : t.node? (above ++ names) = some .directory := ht _ n (by rwa [List.append_assoc])
    rcases eq_or_ne names [] with rfl | hnames
    · rwa [List.append_nil] at hparent
    · exact ih (by simp [hparent]) (by simpa using Ne.symm hnames)

/-- A tree in which each place has one node, in a directory and under names that directories may hold. -/
structure Sound (t : FileTree) : Prop where
  named : t.Named
  once : (t.nodes.map Prod.fst).Nodup
  rooted : t.Rooted

theorem mem_of_node? (h : t.node? x = some node) (hx : x ≠ []) : (x, node) ∈ t.nodes := by
  rw [node?, if_neg (by simpa using hx)] at h
  obtain ⟨before, after, hnodes, -⟩ := List.lookup_eq_some_iff.1 h
  rw [hnodes]
  simp

theorem Sound.node?_of_mem (ht : t.Sound) (h : (x, node) ∈ t.nodes) (hx : x ≠ []) : t.node? x = some node := by
  cases hnode : t.node? x with
  | none =>
    rw [node?, if_neg (by simpa using hx), List.lookup_eq_none_iff] at hnode
    simpa using hnode _ h
  | some other => rw [← (Prod.mk.inj (List.inj_on_of_nodup_map ht.once (mem_of_node? hnode hx) h rfl)).2]

theorem Named.isName (ht : t.Named) (h : (t.content? x).isSome = true) : ∀ n ∈ x, IsName n := by
  rcases List.eq_nil_or_concat x with rfl | ⟨front, last, rfl⟩
  · simp
  · obtain ⟨content, hcontent⟩ := Option.isSome_iff_exists.1 h
    exact ht _ (mem_of_node? (node?_of_content? hcontent) (by simp))

/-- What a path leads to is there. -/
theorem isSome_node?_of_follow (hopen : t.Open place.dropLast) (hplace : (t.node? place).isSome = true)
    (h : t.follow place segments = .ok goal) : (t.node? goal).isSome = true := by
  induction segments generalizing place with
  | nil => cases h; exact hplace
  | cons segment rest ih =>
    rw [follow] at h
    split at h <;> try cases h
    next hdirectory =>
    -- Of the place itself only the directories above it are known to be open.
    have hall : t.Open place := by
      rcases List.eq_nil_or_concat place with rfl | ⟨front, n, rfl⟩
      · exact hopen
      · simp only [List.concat_eq_append, List.dropLast_concat] at hopen hdirectory ⊢
        exact hopen.concat hdirectory
    split_ifs at h with hidle hup hlong
    · exact ih hopen hplace h
    · exact ih hopen.dropLast (by simp [hopen.node?_eq]) h
    · dsimp only at h
      split_ifs at h with hchild
      exact ih (by rwa [List.dropLast_concat]) (by simpa [Option.isSome_iff_ne_none] using hchild) h

theorem locate_eq_ok (h : t.locate p = .ok goal) : goal = p.place ∧ (t.node? p.place).isSome = true := by
  rw [locate] at h
  split at h
  · cases h
  · have hgoal : goal = p.place := (of_follow_eq_ok h).1
    have hopen : t.Open (List.dropLast []) := open_nil t
    exact ⟨hgoal, hgoal ▸ isSome_node?_of_follow hopen rfl h⟩

theorem find?_eq_some : t.find? p = some node ↔ t.locate p = .ok p.place ∧ t.node? p.place = some node := by
  rw [find?]
  cases hlocate : t.locate p with
  | error e => simp
  | ok goal =>
    obtain ⟨rfl, -⟩ := locate_eq_ok hlocate
    simp

/-- What is neither there as a file nor away is a directory. -/
theorem find?_of_not_isFile (hlocate : t.locate p = .ok p.place) (h : ¬t.isFile p = true) :
    t.find? p = some .directory := by
  obtain ⟨-, hsome⟩ := locate_eq_ok hlocate
  obtain ⟨node, hnode⟩ := Option.isSome_iff_exists.1 hsome
  have hfind := find?_eq_some.2 ⟨hlocate, hnode⟩
  cases node with
  | directory => exact hfind
  | file content => exact absurd (by rw [isFile, hfind]) h

/-- The files that are found below a directory are the files at the places that begin with its place. -/
theorem Sound.mem_filesBelow_iff (ht : t.Sound) : p ∈ t.filesBelow target ↔ t.locate target = .ok target.place ∧
    ∃ names, names ≠ [] ∧ (t.content? (target.place ++ names)).isSome = true ∧ p = target.join (ofSegments names) := by
  rw [filesBelow]
  cases hlocate : t.locate target with
  | error e => simp
  | ok goal =>
    obtain ⟨rfl, -⟩ := locate_eq_ok hlocate
    rw [List.mem_filterMap]
    constructor
    · rintro ⟨⟨x, node⟩, hmem, hp⟩
      dsimp only at hp
      split at hp
      · next content n ns hbelow =>
        cases hp
        have hx := placeBelow?_eq_some.1 hbelow
        refine ⟨rfl, n :: ns, by simp, ?_, rfl⟩
        rw [← hx, content?_of_file (ht.node?_of_mem hmem (by simp [hx]))]
        rfl
      · cases hp
    · rintro ⟨-, names, hne, hcontent, rfl⟩
      obtain ⟨content, hcontent⟩ := Option.isSome_iff_exists.1 hcontent
      refine ⟨_, mem_of_node? (node?_of_content? hcontent) (by simp [hne]), ?_⟩
      obtain ⟨n, ns, rfl⟩ := List.exists_cons_of_ne_nil hne
      simp

end FileTree

/-! ### The files of a run -/

namespace Workspace

open FileTree

variable {w : Workspace} {t : FileTree} {target p : Path} {x : NodePlace} {names : List String}

/-- A workspace with absolute paths that never lead up. -/
structure Straight (w : Workspace) : Prop where
  targets : ∀ target ∈ w.targets, target.Straight
  dir : ∀ dir, w.destination = .directory dir → dir.Straight

/-- A file at a place is to be processed if it is found: its name has one of the extensions, it is not in the output
directory, and no pattern excludes it. -/
structure Wants (w : Workspace) (x : NodePlace) : Prop where
  named : ∃ ext ∈ w.extensions, ext.toList <:+ (x.getLast?.getD "").toList
  outside : ∀ dir, w.destination = .directory dir → ¬dir.place <+: x
  allowed : ∀ matched ∈ w.ignored, matched (w.nameAt x) = false

theorem wants_with_targets {targets : List Path} : ({ w with targets } : Workspace).Wants x ↔ w.Wants x :=
  ⟨fun h => ⟨h.named, h.outside, h.allowed⟩, fun h => ⟨h.named, h.outside, h.allowed⟩⟩

theorem accepts_iff (hw : w.Straight) (htarget : target ∈ w.targets) (hplain : w.Plain target) (hne : names ≠ [])
    (hnames : ∀ n ∈ names, IsName n) :
    w.accepts (target.join (ofSegments names)) = true ↔ w.Wants (target.place ++ names) := by
  have hstraight := hw.targets target htarget
  have hp := hstraight.join_names hnames
  have hplace := place_join_names (p := target) hnames
  have hname : (target.join (ofSegments names)).fileName?.getD "" = (target.place ++ names).getLast?.getD "" := by
    rw [fileName?, hp.steps_eq, hplace, List.getLast?_map]
    cases (target.place ++ names).getLast? <;> rfl
  have htargets : w.targets.any (target.join (ofSegments names)).isBelow = true :=
    List.any_eq_true.2 ⟨target, htarget, (hp.isBelow_iff hstraight).2 (by simp [hplace])⟩
  have hdir : ∀ dir, w.destination = .directory dir →
      ((target.join (ofSegments names)).isBelow dir = true ↔ dir.place <+: target.place ++ names) := fun dir hdir => by
    rw [hp.isBelow_iff (hw.dir dir hdir), hplace]
  rw [accepts, htargets, hplain names hne hnames, hname]
  simp only [Bool.and_true, Bool.and_eq_true, Bool.not_eq_true', List.any_eq_true, List.any_eq_false,
    List.isSuffixOf_iff_suffix, Bool.not_eq_true]
  constructor
  · rintro ⟨⟨hnamed, houtside⟩, hallowed⟩
    refine ⟨hnamed, fun dir hdestination hbelow => ?_, hallowed⟩
    simp [hdestination, (hdir dir hdestination).2 hbelow] at houtside
  · intro h
    refine ⟨⟨h.named, ?_⟩, h.allowed⟩
    cases hdestination : w.destination with
    | directory dir =>
      have houtside := mt (hdir dir hdestination).1 (h.outside dir hdestination)
      exact Bool.eq_false_iff.2 houtside
    | _ => rfl

/-- The places of what a target stands for: its own, if it is a file, and if it is a directory those of the files in it
that are wanted. -/
theorem mem_filesOf_iff (ht : t.Sound) (hw : w.Straight) (htarget : target ∈ w.targets) (hplain : w.Plain target) :
    x ∈ (w.filesOf t target).map Path.place ↔ t.isFile target = true ∧ x = target.place ∨
      t.find? target = some .directory ∧ target.place <+: x ∧ (t.content? x).isSome = true ∧ w.Wants x := by
  rw [filesOf]
  split_ifs with hfile
  · have hnot : t.find? target ≠ some .directory := fun hfind => by simp [isFile, hfind] at hfile
    simp [hfile, hnot]
  · simp only [List.mem_map, List.mem_filter, ht.mem_filesBelow_iff]
    constructor
    · rintro ⟨p, ⟨⟨hlocate, names, hne, hcontent, rfl⟩, haccepts⟩, rfl⟩
      have hnames : ∀ n ∈ names, IsName n := fun n hn => ht.named.isName hcontent n (List.mem_append_right _ hn)
      rw [place_join_names hnames]
      exact .inr ⟨find?_of_not_isFile hlocate hfile, List.prefix_append _ _, hcontent,
        (accepts_iff hw htarget hplain hne hnames).1 haccepts⟩
    · rintro (⟨hfile', -⟩ | ⟨hfind, ⟨names, rfl⟩, hcontent, hwants⟩)
      · exact absurd hfile' hfile
      obtain ⟨hlocate, hnode⟩ := find?_eq_some.1 hfind
      have hne : names ≠ [] := by
        rintro rfl
        rw [List.append_nil, content?_of_directory hnode] at hcontent
        cases hcontent
      have hnames : ∀ n ∈ names, IsName n := fun n hn => ht.named.isName hcontent n (List.mem_append_right _ hn)
      exact ⟨_, ⟨⟨hlocate, names, hne, hcontent, rfl⟩, (accepts_iff hw htarget hplain hne hnames).2 hwants⟩,
        place_join_names hnames⟩

/-- A file in a named directory that is to be processed. -/
def Discovers (w : Workspace) (t : FileTree) (x : NodePlace) : Prop :=
  (t.content? x).isSome = true ∧ w.Wants x ∧ ∃ target ∈ w.targets, t.find? target = some .directory ∧ target.place <+: x

/-- The places of the files to process are those of the named files and of the discovered ones. -/
theorem mem_files_iff (ht : t.Sound) (hw : w.Straight) (hplain : ∀ target ∈ w.targets, w.Plain target) :
    x ∈ (w.files t).map Path.place ↔
      (∃ target ∈ w.targets, t.isFile target = true ∧ x = target.place) ∨ w.Discovers t x := by
  have hof : ∀ target ∈ w.targets, x ∈ (w.filesOf t target).map Path.place ↔ _ := fun target htarget =>
    mem_filesOf_iff ht hw htarget (hplain target htarget)
  rw [files, mem_places_sorted, List.map_flatMap, List.mem_flatMap]
  constructor
  · rintro ⟨target, htarget, hx⟩
    rcases (hof target htarget).1 hx with ⟨hfile, hplace⟩ | ⟨hfind, hbelow, hcontent, hwants⟩
    · exact .inl ⟨target, htarget, hfile, hplace⟩
    · exact .inr ⟨hcontent, hwants, target, htarget, hfind, hbelow⟩
  · rintro (⟨target, htarget, hfile, hplace⟩ | ⟨hcontent, hwants, target, htarget, hfind, hbelow⟩)
    · exact ⟨target, htarget, (hof target htarget).2 (.inl ⟨hfile, hplace⟩)⟩
    · exact ⟨target, htarget, (hof target htarget).2 (.inr ⟨hfind, hbelow, hcontent, hwants⟩)⟩

theorem straight_of_mem_files (ht : t.Named) (hw : w.Straight) (h : p ∈ w.files t) : p.Straight := by
  obtain ⟨target, htarget, hp⟩ := List.mem_flatMap.1 (mem_of_mem_sorted h)
  rw [filesOf] at hp
  split_ifs at hp
  · rw [List.mem_singleton.1 hp]
    exact hw.targets target htarget
  · obtain ⟨names, hnames, rfl⟩ := ht.exists_names (List.mem_of_mem_filter hp)
    exact (hw.targets target htarget).join_names hnames

/-- The files to process are in the order of their places, and each place is there once. -/
theorem pairwise_places (ht : t.Named) (hw : w.Straight) : ((w.files t).map Path.place).Pairwise (· < ·) := by
  rw [List.pairwise_map]
  refine (pairwise_sorted _).imp_of_mem fun {p q} hp hq hbefore => ?_
  exact ((straight_of_mem_files ht hw hp).before_iff (straight_of_mem_files ht hw hq)).1 hbefore

end Workspace

/-! ### Arguments -/

/-- No path of the arguments leads up. -/
structure Arguments.Level (a : Arguments) : Prop where
  workspace : .up ∉ a.workspace.steps
  dir : ∀ dir, a.destination = .directory dir → .up ∉ dir.steps
  paths : ∀ q ∈ a.paths, .up ∉ q.steps

namespace Workspace

open FileTree

variable {w : Workspace} {t : FileTree} {here q : Path} {a : Arguments} {more : List Path}

/-! ### More targets -/

/-- A further target stands for nothing that the targets do not stand for already: it is one of the named files, or in
one of the named directories, or not there. -/
structure Covers (w : Workspace) (t : FileTree) (q : Path) : Prop where
  file : t.isFile q = true → ∃ target ∈ w.targets, t.isFile target = true ∧ target.place = q.place
  directory : t.find? q = some .directory →
    ∃ target ∈ w.targets, t.find? target = some .directory ∧ target.place <+: q.place

/-- Targets that are covered add nothing. -/
theorem places_of_covers (ht : t.Sound) (hw : w.Straight) (hplain : ∀ target ∈ w.targets, w.Plain target)
    (hmore : ∀ q ∈ more, q.Straight ∧ w.Plain q ∧ w.Covers t q) :
    (({ w with targets := w.targets ++ more } : Workspace).files t).map Path.place = (w.files t).map Path.place := by
  set w' : Workspace := { w with targets := w.targets ++ more } with hw'
  have hstraight' : w'.Straight := by
    refine ⟨fun target htarget => ?_, hw.dir⟩
    exact (List.mem_append.1 htarget).elim (hw.targets target) fun h => (hmore target h).1
  have hplain' : ∀ target ∈ w'.targets, w'.Plain target := fun target htarget =>
    (List.mem_append.1 htarget).elim (hplain target) fun h => (hmore target h).2.1
  -- Both lists are strictly in order, so they are the same if they have the same members.
  refine List.Pairwise.eq_of_mem_iff (pairwise_places ht.named hstraight') (pairwise_places ht.named hw) fun x => ?_
  rw [mem_files_iff ht hstraight' hplain', mem_files_iff ht hw hplain]
  constructor
  · rintro (⟨target, htarget, hfile, hx⟩ | ⟨hcontent, hwants, target, htarget, hfind, hbelow⟩)
    · rcases List.mem_append.1 htarget with htarget | htarget
      · exact .inl ⟨target, htarget, hfile, hx⟩
      · obtain ⟨other, hother, hfile', hplace⟩ := (hmore target htarget).2.2.file hfile
        exact .inl ⟨other, hother, hfile', hx.trans hplace.symm⟩
    · rcases List.mem_append.1 htarget with htarget | htarget
      · exact .inr ⟨hcontent, wants_with_targets.1 hwants, target, htarget, hfind, hbelow⟩
      · obtain ⟨other, hother, hfind', hplace⟩ := (hmore target htarget).2.2.directory hfind
        exact .inr ⟨hcontent, wants_with_targets.1 hwants, other, hother, hfind', hplace.trans hbelow⟩
  · rintro (⟨target, htarget, hfile, hx⟩ | ⟨hcontent, hwants, target, htarget, hfind, hbelow⟩)
    · exact .inl ⟨target, List.mem_append_left _ htarget, hfile, hx⟩
    · exact .inr ⟨hcontent, wants_with_targets.2 hwants, target, List.mem_append_left _ htarget, hfind, hbelow⟩

/-! ### Files for arguments -/

section Reading

variable [PatternReader]

theorem straight_ofArguments (hhere : here.Straight) (ha : a.Level) (hw : ofArguments t here a = .ok w) :
    w.root.Straight ∧ w.Straight := by
  obtain ⟨hroot, htargets, hdestination⟩ := of_ofArguments hw
  have hstraight : w.root.Straight := by
    rw [hroot]
    exact straight_absolute hhere ha.workspace
  refine ⟨hstraight, ⟨fun target htarget => ?_, fun dir hdir => ?_⟩⟩
  · rw [htargets] at htarget
    split_ifs at htarget
    · rwa [List.mem_singleton.1 htarget]
    · obtain ⟨q, hq, rfl⟩ := List.mem_map.1 htarget
      exact hstraight.join (ha.paths q hq)
  · rw [hdestination] at hdir
    split at hdir
    · next dir' hdir' =>
      cases hdir
      exact straight_absolute hhere (ha.dir dir' hdir')
    · next hnot => exact absurd hdir (hnot dir)

theorem plain_ofArguments (hhere : here.Straight) (ha : a.Level) (hneat : ∀ q ∈ a.paths, q.isNeat = true)
    (hw : ofArguments t here a = .ok w) : ∀ target ∈ w.targets, w.Plain target := by
  obtain ⟨hroot, -⟩ := straight_ofArguments hhere ha hw
  obtain ⟨-, htargets, -⟩ := of_ofArguments hw
  intro target htarget
  rw [htargets] at htarget
  split_ifs at htarget
  · rw [List.mem_singleton.1 htarget]
    exact plain_root hroot.absolute
  · obtain ⟨q, hq, rfl⟩ := List.mem_map.1 htarget
    exact plain_join hroot (hneat q hq) (ha.paths q hq)

/-- The files that a run processes, if no path leads up and the named paths are written without idle segments between
their names: strictly in order, the named files and every file below a named directory that is wanted. -/
theorem files_ofArguments (ht : t.Sound) (hhere : here.Straight) (ha : a.Level) (hneat : ∀ q ∈ a.paths, q.isNeat = true)
    (hw : ofArguments t here a = .ok w) : ((w.files t).map Path.place).Pairwise (· < ·) ∧ ∀ x,
      x ∈ (w.files t).map Path.place ↔
        (∃ target ∈ w.targets, t.isFile target = true ∧ x = target.place) ∨ w.Discovers t x := by
  obtain ⟨-, hstraight⟩ := straight_ofArguments hhere ha hw
  exact ⟨pairwise_places ht.named hstraight,
    fun x => mem_files_iff ht hstraight (plain_ofArguments hhere ha hneat hw)⟩

/-- The named paths decide the targets and nothing else. -/
theorem ofArguments_paths (t : FileTree) (here : Path) (a : Arguments) (paths : List Path) :
    ofArguments t here { a with paths } = (ofArguments t here a).map fun w =>
      { w with targets := if paths.isEmpty then [w.root] else paths.map w.root.join } := by
  have hworkspace : ({ a with paths } : Arguments).workspace = a.workspace := rfl
  have hconfig : ({ a with paths } : Arguments).config = a.config := rfl
  have hoverride : ({ a with paths } : Arguments).override = a.override := rfl
  have hignored : ({ a with paths } : Arguments).ignored = a.ignored := rfl
  have hdestination : ({ a with paths } : Arguments).destination = a.destination := rfl
  have hhas : ({ a with paths } : Arguments).has = a.has := rfl
  simp only [ofArguments, bind, Except.bind, hworkspace, hconfig, hoverride, hignored, hdestination, hhas]
  cases Options.load t (a.workspace.absolute here) a.config with
  | error e => rfl
  | ok o =>
    dsimp only
    cases (a.override o).invalid? with
    | some invalid => rfl
    | none =>
      dsimp only
      cases List.mapM readGlob (a.ignored ++ alwaysIgnored) <;> rfl

/-- Further paths are further targets. -/
theorem ofArguments_append (hne : a.paths ≠ []) (hw : ofArguments t here a = .ok w) :
    ofArguments t here { a with paths := a.paths ++ more } =
      .ok { w with targets := w.targets ++ more.map w.root.join } := by
  obtain ⟨-, htargets, -⟩ := of_ofArguments hw
  rw [if_neg (by simpa using hne)] at htargets
  rw [ofArguments_paths, hw, Except.map, if_neg (by simp [hne]), List.map_append, htargets]

/-- A directory in another one that is named adds no files, nor does a path that is named twice. -/
theorem places_append (ht : t.Sound) (hhere : here.Straight) (ha : a.Level) (hneat : ∀ q ∈ a.paths, q.isNeat = true)
    (hne : a.paths ≠ []) (hw : ofArguments t here a = .ok w)
    (hmore : ∀ q ∈ more, .up ∉ q.steps ∧ q.isNeat = true ∧ w.Covers t (w.root.join q)) :
    ∃ w', ofArguments t here { a with paths := a.paths ++ more } = .ok w' ∧
      (w'.files t).map Path.place = (w.files t).map Path.place := by
  obtain ⟨hroot, hstraight⟩ := straight_ofArguments hhere ha hw
  refine ⟨_, ofArguments_append hne hw, places_of_covers ht hstraight (plain_ofArguments hhere ha hneat hw) ?_⟩
  intro target htarget
  obtain ⟨q, hq, rfl⟩ := List.mem_map.1 htarget
  obtain ⟨hlevel, hneat, hcovers⟩ := hmore q hq
  exact ⟨hroot.join hlevel, plain_join hroot hneat hlevel, hcovers⟩

end Reading

/-- A directory with files that are made from others. -/
def generatedTree : FileTree :=
  ⟨[(["src"], .directory), (["src", "a.svelte"], .file "<div stylex={a}></div>".toUTF8),
    (["src", "gen"], .directory), (["src", "gen", "b.svelte"], .file "<div stylex={b}></div>".toUTF8)]⟩

def ignoringArguments (paths : List Path) : Arguments where
  paths
  settings := [(.ignore, "src/gen/**")]

/-- Under another spelling of its directory an excluded file is found, though a directory that holds it is named
already. -/
theorem readmitted_generatedTree : ∃ w w',
    ofArguments generatedTree ⟨"/"⟩ (ignoringArguments [⟨"src"⟩]) = .ok w ∧
    ofArguments generatedTree ⟨"/"⟩ (ignoringArguments [⟨"src"⟩, ⟨"src/./gen"⟩]) = .ok w' ∧
    (w.files generatedTree).map Path.place = [["src", "a.svelte"]] ∧
    (w'.files generatedTree).map Path.place = [["src", "a.svelte"], ["src", "gen", "b.svelte"]] := by
  have hrun : (ofArguments generatedTree ⟨"/"⟩ (ignoringArguments [⟨"src"⟩])).toOption.map
      (fun w => w.targets.flatMap (w.filesOf generatedTree)) = some [⟨"/./src/a.svelte"⟩] := by
    decide +kernel
  have hrun' : (ofArguments generatedTree ⟨"/"⟩ (ignoringArguments [⟨"src"⟩, ⟨"src/./gen"⟩])).toOption.map
      (fun w => w.targets.flatMap (w.filesOf generatedTree))
      = some [⟨"/./src/a.svelte"⟩, ⟨"/./src/./gen/b.svelte"⟩] := by
    decide +kernel
  obtain ⟨w, hw, htargets⟩ := Option.map_eq_some_iff.1 hrun
  obtain ⟨w', hw', htargets'⟩ := Option.map_eq_some_iff.1 hrun'
  refine ⟨w, w', ofArguments_eq_ok hw, ofArguments_eq_ok hw', ?_, ?_⟩
  · rw [files, htargets, sorted_singleton]
    decide +kernel
  · have hsorted : [(⟨"/./src/a.svelte"⟩ : Path), ⟨"/./src/./gen/b.svelte"⟩].Pairwise (upTo · ·) := by decide +kernel
    have hdistinct : ¬Path.same ⟨"/./src/a.svelte"⟩ ⟨"/./src/./gen/b.svelte"⟩ = true := by decide +kernel
    rw [files, htargets', Path.sorted, List.mergeSort_of_pairwise hsorted, distinct, if_neg hdistinct, distinct]
    · decide +kernel
    · simp

end Workspace

end Restyle
