import Mathlib.Logic.Relation
import Restyle.Proofs.Workspace.Discovery

/-! What a run with an output directory may do to a tree, edit by edit: directories are made on the way to the output
directory and in it, and files are put in it. Nothing that was there is taken away, and nothing else is changed. -/

namespace Restyle

open Restyle.Path

/-! ### Kinds of nodes -/

def FileNode.isDirectory : FileNode → Bool
  | .directory => true
  | .file _ => false

namespace FileTree

variable {dir : Path} {t t' t'' : FileTree} {x place : NodePlace} {segments : List String} {name : String}
  {node : FileNode}

/-- Whether there is a directory at a place, or a file. -/
def kind? (t : FileTree) (x : NodePlace) : Option Bool := (t.node? x).map FileNode.isDirectory

theorem kind?_eq_some_true : t.kind? x = some true ↔ t.node? x = some .directory := by
  rw [kind?]
  cases t.node? x with
  | none => simp
  | some node => cases node <;> simp [FileNode.isDirectory]

theorem kind?_eq_some_false : t.kind? x = some false ↔ (t.content? x).isSome = true := by
  rw [kind?, content?]
  cases t.node? x with
  | none => simp
  | some node => cases node <;> simp [FileNode.isDirectory]

theorem isSome_kind? : (t.kind? x).isSome = (t.node? x).isSome := Option.isSome_map ..

/-- A tree has the nodes of another one, of the same kinds, and maybe more. -/
def Extends (t' t : FileTree) : Prop := ∀ x kind, t.kind? x = some kind → t'.kind? x = some kind

/-- Two trees have nodes of the same kinds. -/
def Similar (t' t : FileTree) : Prop := ∀ x, t'.kind? x = t.kind? x

theorem Extends.refl (t : FileTree) : t.Extends t := fun _ _ h => h

theorem Extends.trans (h' : t''.Extends t') (h : t'.Extends t) : t''.Extends t := fun x kind hx =>
  h' x kind (h x kind hx)

theorem Similar.refl (t : FileTree) : t.Similar t := fun _ => rfl

theorem Similar.trans (h' : t''.Similar t') (h : t'.Similar t) : t''.Similar t := fun x => (h' x).trans (h x)

theorem Similar.extends (h : t'.Similar t) (h' : t.Extends t'') : t'.Extends t'' := fun x kind hx =>
  (h x).trans (h' x kind hx)

theorem Extends.directory (h : t'.Extends t) (hx : t.node? x = some .directory) : t'.node? x = some .directory :=
  kind?_eq_some_true.1 (h x true (kind?_eq_some_true.2 hx))

theorem Extends.file (h : t'.Extends t) (hx : (t.content? x).isSome = true) : (t'.content? x).isSome = true :=
  kind?_eq_some_false.1 (h x false (kind?_eq_some_false.2 hx))

theorem Extends.open (h : t'.Extends t) (hopen : t.Open place) : t'.Open place := fun above habove =>
  h.directory (hopen above habove)

theorem prefix_foldl_reach {steps : List PathStep} (h : .up ∉ steps) (place : NodePlace) :
    place <+: steps.foldl PathStep.reach place := by
  obtain ⟨names, rfl⟩ := exists_names h
  rw [foldl_reach_names]
  exact List.prefix_append _ _

theorem follow_cons (t : FileTree) (place : NodePlace) (segment : String) (rest : List String) :
    t.follow place (segment :: rest) = match t.kind? place with
      | none => .error .notFound
      | some false => .error .notDirectory
      | some true =>
        if isIdle segment then t.follow place rest
        else if segment = ".." then t.follow place.dropLast rest
        else if isOverlong segment then .error .nameTooLong
        else if (t.kind? (place ++ [segment])).isNone then .error .notFound
        else t.follow (place ++ [segment]) rest := by
  have hchild : (t.kind? (place ++ [segment])).isNone = (t.node? (place ++ [segment])).isNone := Option.isNone_map ..
  rw [follow, hchild, kind?]
  cases t.node? place with
  | none => rfl
  | some node => cases node <;> rfl

/-- Where segments lead depends on the kinds of the nodes on the way. -/
theorem follow_congr (hlevel : .up ∉ stepsOf segments)
    (hsame : ∀ x, place <+: x → x <+: (stepsOf segments).foldl PathStep.reach place → t'.kind? x = t.kind? x) :
    t'.follow place segments = t.follow place segments := by
  induction segments generalizing place with
  | nil => rfl
  | cons segment rest ih =>
    rw [follow_cons, follow_cons, hsame place (List.prefix_refl _) (prefix_foldl_reach hlevel place)]
    by_cases hidle : isIdle segment = true
    · rw [stepsOf_cons_of_idle hidle] at hlevel hsame
      rw [if_pos hidle, if_pos hidle, ih hlevel hsame]
    by_cases hup : segment = ".."
    · rw [hup, stepsOf_cons_up] at hlevel
      exact absurd (List.mem_cons_self ..) hlevel
    rw [stepsOf_cons_name hidle hup, List.mem_cons, not_or] at hlevel
    rw [stepsOf_cons_name hidle hup, List.foldl_cons, PathStep.reach_name] at hsame
    have hplace := List.prefix_append place [segment]
    rw [if_neg hidle, if_neg hup, if_neg hidle, if_neg hup, hsame _ hplace (prefix_foldl_reach hlevel.2 _),
      ih hlevel.2 fun x hx => hsame x (hplace.trans hx)]

/-! ### Edits -/

/-- A place in a directory, or on the way to it. -/
def Near (dir : Path) (x : NodePlace) : Prop := x <+: dir.place ∨ dir.place <+: x

instance (dir : Path) (x : NodePlace) : Decidable (Near dir x) := inferInstanceAs (Decidable (_ ∨ _))

/-- One change of a tree by a run with an output directory. -/
inductive Edit (dir : Path) (t : FileTree) : FileTree → Prop
  /-- A directory is made where nothing was. -/
  | directory {place : NodePlace} {name : String} (hparent : t.node? place = some .directory) (hname : IsName name)
      (hnear : Near dir (place ++ [name])) (hnew : t.node? (place ++ [name]) = none) :
      Edit dir t (t.put (place ++ [name]) .directory)
  /-- A file is put where no directory is. -/
  | file {place : NodePlace} {name : String} (content : ByteArray) (hparent : t.node? place = some .directory)
      (hname : IsName name) (hinside : dir.Inside (place ++ [name]))
      (hnode : t.node? (place ++ [name]) ≠ some .directory) :
      Edit dir t (t.put (place ++ [name]) (.file content))

/-- Any number of changes. -/
abbrev Edits (dir : Path) : FileTree → FileTree → Prop := Relation.ReflTransGen (Edit dir)

theorem Edit.exists_put (h : Edit dir t t') : ∃ place name node, t' = t.put (place ++ [name]) node ∧
    t.node? place = some .directory ∧ IsName name ∧ Near dir (place ++ [name]) ∧
    (∀ kind, t.kind? (place ++ [name]) = some kind → node.isDirectory = kind) := by
  cases h with
  | directory hparent hname hnear hnew => exact ⟨_, _, _, rfl, hparent, hname, hnear, by simp [kind?, hnew]⟩
  | file content hparent hname hinside hnode =>
    refine ⟨_, _, _, rfl, hparent, hname, .inr hinside.1, fun kind hkind => ?_⟩
    cases kind with
    | true => exact absurd (kind?_eq_some_true.1 hkind) hnode
    | false => rfl

theorem put_nodes (t : FileTree) (x : NodePlace) (node : FileNode) :
    (t.put x node).nodes = t.nodes.filter (·.1 ≠ x) ++ [(x, node)] := rfl

theorem rooted_of_nodes (h : ∀ entry ∈ t.nodes, t.kind? entry.1.dropLast = some true) : t.Rooted := by
  intro place n hsome
  obtain ⟨node, hnode⟩ := Option.isSome_iff_exists.1 hsome
  have hparent := h _ (mem_of_node? hnode (by simp))
  rwa [List.dropLast_concat, kind?_eq_some_true] at hparent

/-- In a directory a node can be put where none of another kind is. -/
theorem Rooted.put (ht : t.Rooted) (hparent : t.node? place = some .directory)
    (hkind : ∀ kind, t.kind? (place ++ [name]) = some kind → node.isDirectory = kind) :
    (t.put (place ++ [name]) node).Rooted := by
  intro above n hsome
  rw [node?_put t (by simp)] at hsome ⊢
  split_ifs at hsome with heq
  · obtain ⟨rfl, -⟩ := List.append_inj' heq rfl
    rwa [if_neg (by simp)]
  · have habove := ht above n hsome
    split_ifs with hplace
    · have hdirectory := hkind true (hplace ▸ kind?_eq_some_true.2 habove)
      cases node with
      | directory => rfl
      | file content => cases hdirectory
    · exact habove

theorem Edit.sound (h : Edit dir t t') (ht : t.Sound) : t'.Sound := by
  obtain ⟨place, name, node, rfl, hparent, hname, -, hkind⟩ := h.exists_put
  constructor
  · intro entry hentry n hn
    rcases List.mem_append.1 hentry with hentry | hentry
    · exact ht.named entry (List.mem_of_mem_filter hentry) n hn
    · obtain rfl := List.mem_singleton.1 hentry
      rcases List.mem_append.1 hn with hn | hn
      · rcases eq_or_ne place [] with rfl | hplace
        · cases hn
        · exact ht.named _ (mem_of_node? hparent hplace) n hn
      · rwa [List.mem_singleton.1 hn]
  · rw [put_nodes, List.map_append, List.nodup_append]
    refine ⟨ht.once.sublist (List.filter_sublist.map _), by simp, fun a ha b hb => ?_⟩
    obtain ⟨entry, hentry, rfl⟩ := List.mem_map.1 ha
    obtain rfl : b = place ++ [name] := by simpa using hb
    simpa using (List.mem_filter.1 hentry).2
  · exact ht.rooted.put hparent hkind

theorem extends_put (hx : x ≠ []) (hkind : ∀ kind, t.kind? x = some kind → node.isDirectory = kind) :
    (t.put x node).Extends t := by
  intro y kind hy
  rw [kind?, node?_put t hx]
  split_ifs with heq
  · rw [Option.map_some, hkind kind (heq ▸ hy)]
  · exact hy

theorem Edit.extends (h : Edit dir t t') : t'.Extends t := by
  obtain ⟨place, name, node, rfl, -, -, -, hkind⟩ := h.exists_put
  exact extends_put (by simp) hkind

/-- The files that are not in a directory. -/
def filesOutside (dir : Path) (t : FileTree) : List (NodePlace × FileNode) :=
  t.nodes.filter fun (x, node) => !node.isDirectory && !decide (dir.Inside x)

theorem Edit.filesOutside (h : Edit dir t t') : t'.filesOutside dir = t.filesOutside dir := by
  obtain ⟨x, node, rfl, hnew, hold⟩ : ∃ x node, t' = t.put x node ∧ (node.isDirectory = false → dir.Inside x) ∧
      ∀ entry ∈ t.nodes, entry.1 = x → dir.Inside x := by
    cases h with
    | @directory place name hparent hname hnear hnew =>
      -- Nothing was at the place, so nothing is filtered away there.
      refine ⟨_, _, rfl, nofun, fun entry hentry heq => ?_⟩
      rw [node?, if_neg (by simp), List.lookup_eq_none_iff] at hnew
      simpa [heq] using hnew entry hentry
    | file content hparent hname hinside hnode => exact ⟨_, _, rfl, fun _ => hinside, fun _ _ _ => hinside⟩
  have hkept : (t.nodes.filter (·.1 ≠ x)).filter (fun (x, node) => !node.isDirectory && !decide (dir.Inside x))
      = t.nodes.filter fun (x, node) => !node.isDirectory && !decide (dir.Inside x) := by
    rw [List.filter_filter]
    refine List.filter_congr fun entry hentry => ?_
    by_cases heq : entry.1 = x
    · simp [heq, hold entry hentry heq]
    · simp [heq]
  rw [FileTree.filesOutside, FileTree.filesOutside, put_nodes, List.filter_append, hkept]
  simpa using hnew

theorem Edit.node?_of_not_near (h : Edit dir t t') (hx : ¬Near dir x) : t'.node? x = t.node? x := by
  obtain ⟨place, name, node, rfl, -, -, hnear, -⟩ := h.exists_put
  have hne : x ≠ place ++ [name] := fun heq => hx (heq ▸ hnear)
  rw [node?_put t (by simp), if_neg hne]

theorem Edit.content?_of_outside (h : Edit dir t t') (hx : ¬dir.Inside x) : t'.content? x = t.content? x := by
  cases h with
  | @directory place name hparent hname hnear hnew =>
    -- There was no file where the directory is now, nor is there one in its place.
    rw [content?, node?_put t (by simp)]
    split_ifs with heq
    · rw [heq, content?_of_none hnew]
    · rfl
  | @file place name content hparent hname hinside hnode =>
    have hne : x ≠ place ++ [name] := fun heq => hx (heq ▸ hinside)
    exact content?_congr (by rw [node?_put t (by simp), if_neg hne])

variable {dir : Path} {t t' : FileTree} {x : NodePlace}

theorem Edits.sound (h : Edits dir t t') (ht : t.Sound) : t'.Sound := by
  induction h with
  | refl => exact ht
  | tail _ hlast ih => exact hlast.sound ih

theorem Edits.extends (h : Edits dir t t') : t'.Extends t := by
  induction h with
  | refl => exact .refl t
  | tail _ hlast ih => exact hlast.extends.trans ih

theorem Edits.filesOutside (h : Edits dir t t') : t'.filesOutside dir = t.filesOutside dir := by
  induction h with
  | refl => rfl
  | tail _ hlast ih => exact hlast.filesOutside.trans ih

theorem Edits.node?_of_not_near (h : Edits dir t t') (hx : ¬Near dir x) : t'.node? x = t.node? x := by
  induction h with
  | refl => rfl
  | tail _ hlast ih => exact (hlast.node?_of_not_near hx).trans ih

theorem Edits.content?_of_outside (h : Edits dir t t') (hx : ¬dir.Inside x) : t'.content? x = t.content? x := by
  induction h with
  | refl => rfl
  | tail _ hlast ih => exact (hlast.content?_of_outside hx).trans ih

end FileTree

/-! ### Filing -/

namespace Filing

open FileTree

variable {dir : Path} {t t' : FileTree} {place : NodePlace} {segments : List String} {p : Path}

/-- Each directory that is made is made in one that is open. -/
theorem edits_makeDirectories (made : Bool) (hopen : t.Open place) (hslash : ∀ s ∈ segments, '/' ∉ s.toList)
    (hnear : ∀ x ∈ stops place (stepsOf segments), Near dir x) :
    Edits dir t ((makeDirectories place made segments).on t).2 := by
  induction segments generalizing t place made with
  | nil => exact .refl
  | cons segment rest ih =>
    obtain ⟨hsegment, hslash⟩ := List.forall_mem_cons.1 hslash
    rw [makeDirectories]
    by_cases hidle : isIdle segment = true
    · rw [stepsOf_cons_of_idle hidle] at hnear
      rw [if_pos hidle]
      exact ih made hopen hslash hnear
    rw [if_neg hidle]
    by_cases hup : segment = ".."
    · rw [hup, stepsOf_cons_up] at hnear
      rw [if_pos hup]
      exact ih made hopen.dropLast hslash hnear
    rw [stepsOf_cons_name hidle hup] at hnear
    obtain ⟨hchild, hnear⟩ := List.forall_mem_cons.1 hnear
    rw [if_neg hup]
    by_cases hlong : isOverlong segment = true
    · rw [if_pos hlong]
      exact .refl
    rw [if_neg hlong, on_get_bind]
    cases hnode : t.node? (place ++ [segment]) with
    | some node =>
      cases node with
      | directory => exact ih made (hopen.concat hnode) hslash hnear
      | file content => exact .refl
    | none =>
      have hedit : Edit dir t (t.put (place ++ [segment]) .directory) :=
        .directory hopen.node?_eq ⟨hsegment, hidle, hup⟩ hchild hnode
      have hopen' := (hedit.extends.open hopen).concat (by rw [node?_put t (by simp), if_pos rfl])
      exact .head hedit (ih true hopen' hslash hnear)

theorem edits_write (text : String) (hinside : p.Fileable → dir.Inside p.place) :
    Edits dir t ((write p text).on t).2 := by
  have hwrites := writes t p text
  generalize (write p text).on t = result at hwrites ⊢
  cases hwrites with
  | refused e => exact .refl
  | written hfileable hgoal hparent =>
    obtain ⟨front, name, hsegments, hidle, hup⟩ := hfileable.named
    have hplace := place_of_steps (steps_of_segments hsegments hidle hup)
    have hname : IsName name := ⟨not_mem_of_mem_segments (p := p) (by simp [hsegments]), hidle, hup⟩
    have hin := hinside hfileable
    rw [hplace, List.dropLast_concat] at hparent
    rw [hplace] at hgoal hin ⊢
    exact .single (.file _ hparent hname hin hgoal)

theorem prefix_of_mem_stops {names : List String} {x : NodePlace} (h : x ∈ stops place (names.map .name)) :
    x <+: place ++ names := by
  induction names generalizing place with
  | nil => cases h
  | cons n names ih =>
    have hsplit : place ++ n :: names = place ++ [n] ++ names := by simp
    rw [hsplit]
    rcases List.mem_cons.1 h with rfl | h
    · exact List.prefix_append _ _
    · exact ih h

/-- The directories on the way to a place in a directory are near that. -/
theorem near_of_mem_ways (hlevel : .up ∉ p.steps) (hdir : dir.place <+: p.place) {x : NodePlace}
    (hx : x ∈ stops [] p.steps.dropLast) : Near dir x := by
  obtain ⟨names, hnames⟩ := exists_names hlevel
  have hplace : p.place = names := by rw [Path.place, hnames, foldl_reach_names, List.nil_append]
  rw [hnames, ← List.map_dropLast] at hx
  have hbelow : x <+: p.place := hplace ▸ (prefix_of_mem_stops hx).trans (List.dropLast_prefix names)
  exact List.prefix_or_prefix_of_prefix hbelow hdir

theorem edits_bind {x f : Filing Unit} (hx : Edits dir t (x.on t).2)
    (hf : ∀ t', x.on t = (.ok (), t') → Edits dir t' (f.on t').2) : Edits dir t ((x >>= fun _ => f).on t).2 := by
  cases hresult : x.on t with
  | mk result t' =>
    rw [hresult] at hx
    cases result with
    | error e => rwa [on_bind_of_error hresult]
    | ok =>
      rw [on_bind_of_ok hresult]
      exact hx.trans (hf t' hresult)

theorem edits_writeDeep (text : String) (hlevel : .up ∉ p.steps) (hdir : dir.place <+: p.place)
    (hinside : p.Fileable → dir.Inside p.place) : Edits dir t ((writeDeep p text).on t).2 := by
  rw [writeDeep]
  cases hparent : p.parent? with
  | none => exact edits_write text hinside
  | some parent =>
    dsimp only
    cases parent.fault? with
    | some fault => exact .refl
    | none =>
      have hslash : ∀ s ∈ parent.segments, '/' ∉ s.toList := fun s hs => not_mem_of_mem_segments hs
      refine edits_bind (edits_makeDirectories false (open_nil t) hslash fun x hx => ?_) fun t' _ =>
        edits_write text hinside
      rw [← steps_eq, steps_parent hparent] at hx
      exact near_of_mem_ways hlevel hdir hx

end Filing

namespace Workspace

open FileTree

variable {w : Workspace} {dir p target : Path} {ps : List Path} {t : FileTree}

/-- A path of a file in the output directory. -/
structure Goal (dir target : Path) : Prop where
  level : .up ∉ target.steps
  named : ∃ front name, target.segments = front ++ [name] ∧ ¬isIdle name = true ∧ name ≠ ".."
  inside : dir.Inside target.place

/-- The source map lies in the output directory too. -/
theorem Goal.inside_mapPath (h : Goal dir target) : dir.Inside (mapPath target).place := by
  obtain ⟨front, name, hsegments, hidle, hup⟩ := h.named
  obtain ⟨hbelow, hne⟩ := h.inside
  rw [place_of_steps (steps_of_segments hsegments hidle hup)] at hbelow hne
  rw [Path.Inside, place_of_steps (steps_mapPath hsegments)]
  -- Only the last name is another one, and the directory ends before it.
  have hfront := (List.prefix_concat_iff.1 hbelow).resolve_left (Ne.symm hne)
  refine ⟨hfront.trans (List.prefix_append _ _), fun heq => ?_⟩
  have hlength := heq ▸ hfront.length_le
  rw [List.length_append, List.length_singleton] at hlength
  omega

theorem edits_writeOutput (h : Goal dir target) (f : SourceFile) (r : Expanded) :
    Edits dir t ((w.writeOutput f r target).on t).2 := by
  rw [writeOutput]
  refine Filing.edits_bind (Filing.edits_writeDeep _ h.level h.inside.1 fun _ => h.inside) fun t' _ => ?_
  split_ifs
  · exact Filing.edits_write _ fun _ => h.inside_mapPath
  · exact .refl

theorem edits_process [Script.ExpressionReader] (h : ∀ target, w.outputPath? p = some target → Goal dir target) :
    Edits dir t ((w.process p).run t).2 := by
  rw [run_process]
  cases hreview : w.review p (t.read p) with
  | inl report => exact .refl
  | inr d => exact edits_writeOutput (h d.target (outputPath?_of_review hreview)) d.file d.expanded

/-- A run makes nothing but edits, if all outputs go to files in the output directory. -/
theorem edits_processAll [Script.ExpressionReader]
    (h : ∀ p ∈ ps, ∀ target, w.outputPath? p = some target → Goal dir target) :
    Edits dir t ((w.processAll ps).run t).2 := by
  induction ps generalizing t with
  | nil => exact .refl
  | cons p ps ih =>
    rw [run_processAll_cons]
    exact (edits_process (h p (List.mem_cons_self ..))).trans (ih fun q hq => h q (List.mem_cons_of_mem _ hq))

/-! ### Where outputs go -/

/-- What is left of a path ends in a segment that leads somewhere, if anything is left. -/
theorem exists_last_of_below? {base rest : Path} (h : p.below? base = some rest) (hne : rest.steps ≠ []) :
    ∃ front last, rest.segments = front ++ [last] ∧ ¬isIdle last = true := by
  rw [below?] at h
  split_ifs at h
  obtain ⟨left, hleft, rfl⟩ := Option.map_eq_some_iff.1 h
  obtain ⟨-, hsuffix⟩ := of_dropSteps hleft
  set segments := dropIdleEnd (left.dropWhile isIdle) with hsegments
  have hslash : ∀ s ∈ segments, '/' ∉ s.toList := fun s hs =>
    not_mem_of_mem_segments (hsuffix.subset ((List.dropWhile_suffix _).subset (mem_of_mem_dropIdleEnd hs)))
  have hfound : segments ≠ [] := fun hnil => hne (by rw [hnil]; rfl)
  obtain ⟨front, last, hlast, hidle⟩ := exists_dropIdleEnd_concat (hsegments ▸ hfound)
  exact ⟨front, last, (segments_ofSegments hfound hslash).trans (hsegments.trans hlast), hidle⟩

theorem named_remainder (hlevel : .up ∉ (w.remainder p).steps) (hne : (w.remainder p).steps ≠ []) :
    ∃ front name, (w.remainder p).segments = front ++ [name] ∧ ¬isIdle name = true ∧ name ≠ ".." := by
  rw [remainder] at hlevel hne ⊢
  cases hbelow : p.below? w.root with
  | some rest =>
    rw [hbelow, Option.getD_some] at hlevel hne
    obtain ⟨front, last, hsegments, hidle⟩ := exists_last_of_below? hbelow hne
    refine ⟨front, last, hsegments, hidle, fun hup => hlevel ?_⟩
    rw [steps_eq, hsegments, stepsOf_append, hup]
    exact List.mem_append_right _ (List.mem_singleton.2 rfl)
  | none =>
    cases hname : p.fileName? with
    | none => simp [hbelow, hname] at hne
    | some name =>
      have hisName := isName_of_fileName? hname
      refine ⟨[], name, ?_, hisName.idle, hisName.up⟩
      have hsegments : (ofSegments [name]).segments = [name] :=
        segments_ofSegments (by simp) (by simpa using hisName.slash)
      exact hsegments

/-- Of a file that is not the workspace itself a name is left. -/
theorem steps_remainder_ne_nil (hp : p.Straight) (hroot : p.place ≠ w.root.place) (hne : p.place ≠ []) :
    (w.remainder p).steps ≠ [] := by
  rw [remainder]
  cases hbelow : p.below? w.root with
  | some rest =>
    intro hnil
    refine hroot ?_
    rw [place, (of_below? hbelow).1, show rest.steps = [] from hnil, List.append_nil, place]
  | none =>
    obtain ⟨front, last, hplace⟩ := List.eq_nil_or_concat p.place |>.resolve_left hne
    have hname : p.fileName? = some last := by rw [fileName?, hp.steps_eq, hplace]; simp
    rw [hname, Option.getD_none, Option.getD_some, (isName_of_fileName? hname).steps_eq]
    exact List.cons_ne_nil _ _

/-- The output of a file that is not the workspace itself goes to a file in the output directory. -/
theorem goal_of_outputPath? (hw : w.Straight) (hdir : w.destination = .directory dir) (hp : p.Straight)
    (hroot : p.place ≠ w.root.place) (hne : p.place ≠ []) (h : w.outputPath? p = some target) : Goal dir target := by
  obtain ⟨hrelative, hsteps⟩ := w.of_remainder p
  obtain rfl := Option.some.inj ((outputPath?_of_directory hdir p).symm.trans h)
  have hlevel : .up ∉ (w.remainder p).steps := by
    rcases hsteps with hsteps | hlevel
    · exact fun hup => hp.level (hsteps ▸ List.mem_append_right _ hup)
    · exact hlevel
  have hnonempty := steps_remainder_ne_nil hp hroot hne
  obtain ⟨front, name, hsegments, hidle, hup⟩ := named_remainder hlevel hnonempty
  have hstraight := hw.dir dir hdir
  refine ⟨(hstraight.join hlevel).level, ⟨dir.stem ++ front, name, ?_, hidle, hup⟩, ?_⟩
  · rw [segments_join hrelative.relative, hsegments, List.append_assoc]
  · obtain ⟨names, hnames⟩ := exists_names hlevel
    have hplace : (dir.join (w.remainder p)).place = dir.place ++ names := place_join hrelative.relative hnames
    rw [Path.Inside, hplace]
    refine ⟨List.prefix_append _ _, fun heq => hnonempty ?_⟩
    rw [hnames, List.append_right_eq_self.1 heq, List.map_nil]

end Workspace

end Restyle
