import Restyle.Proofs.Workspace.Edits

/-! Writing again. What a run made is there already when the same files are processed again, and stands in the way of
nothing that was written before: all reports are the same. -/

namespace Restyle

open Restyle.Path FileTree

namespace Filing

variable {t t' : FileTree} {place : NodePlace} {segments : List String} {p : Path}

/-- On a tree that has what a change leaves, the same change comes to the same result, and makes nothing. -/
def Repeats (x : Filing Unit) (t : FileTree) : Prop :=
  ∀ t' : FileTree, t'.Extends (x.on t).2 → (x.on t').1 = (x.on t).1 ∧ (x.on t').2.Similar t'

theorem repeats_throw (e : FileError) (t : FileTree) : Repeats (throw e) t := fun t' _ => ⟨rfl, .refl t'⟩

theorem repeats_pure (t : FileTree) : Repeats (pure ()) t := fun t' _ => ⟨rfl, .refl t'⟩

theorem Repeats.bind {x f : Filing Unit} (hx : Repeats x t)
    (hf : ∀ t₁, x.on t = (.ok (), t₁) → Repeats f t₁ ∧ (f.on t₁).2.Extends t₁) : Repeats (x >>= fun _ => f) t := by
  intro t' hext
  cases hresult : x.on t with
  | mk result t₁ =>
    rw [Repeats, hresult] at hx
    cases result with
    | error e =>
      rw [on_bind_of_error hresult] at hext ⊢
      obtain ⟨hsame, hsimilar⟩ := hx t' hext
      have hagain : x.on t' = (.error e, (x.on t').2) := Prod.ext hsame rfl
      rw [on_bind_of_error hagain]
      exact ⟨rfl, hsimilar⟩
    | ok =>
      -- The later tree has what both changes left, and the first one, made again, leaves it as it is.
      obtain ⟨hnext, hgrows⟩ := hf t₁ hresult
      rw [on_bind_of_ok hresult] at hext ⊢
      obtain ⟨hsame, hsimilar⟩ := hx t' (hext.trans hgrows)
      have hagain : x.on t' = (.ok (), (x.on t').2) := Prod.ext hsame rfl
      rw [on_bind_of_ok hagain]
      obtain ⟨hsame', hsimilar'⟩ := hnext _ (hsimilar.extends hext)
      exact ⟨hsame', hsimilar'.trans hsimilar⟩

theorem extends_of_grows {ds : List NodePlace} (h : t.Grows t' ds) : t'.Extends t := by
  intro x kind hx
  rcases h x with hsame | ⟨-, hnone, -⟩
  · rw [kind?, hsame]
    exact hx
  · simp [kind?, hnone] at hx

theorem extends_makeDirectories (t : FileTree) (place : NodePlace) (made : Bool) (segments : List String) :
    ((makeDirectories place made segments).on t).2.Extends t := by
  have hmakes := makes t place made segments
  generalize (makeDirectories place made segments).on t = result at hmakes ⊢
  cases hmakes with
  | made hpass hopens => exact extends_of_grows (hopens.grows hpass.noFile)
  | blocked hpass hgrows => exact extends_of_grows hgrows

/-- Directories that are made again are there already. Whether a directory was made before matters to what is said of a
file in the way, but behind a directory that was made there is no file. -/
theorem makeDirectories_again {made made' : Bool} (ht : t.Rooted) (hopen : t.Open place)
    (hlevel : .up ∉ stepsOf segments) (hmade : made' = made ∨ ∀ n, t.node? (place ++ [n]) = none)
    (hext : t'.Extends ((makeDirectories place made segments).on t).2) :
    (makeDirectories place made' segments).on t' = (((makeDirectories place made segments).on t).1, t') := by
  induction segments generalizing t place made made' with
  | nil => rfl
  | cons segment rest ih =>
    rw [makeDirectories] at hext ⊢
    rw [makeDirectories]
    by_cases hidle : isIdle segment = true
    · rw [stepsOf_cons_of_idle hidle] at hlevel
      rw [if_pos hidle] at hext
      rw [if_pos hidle, if_pos hidle]
      exact ih ht hopen hlevel hmade hext
    by_cases hup : segment = ".."
    · rw [hup, stepsOf_cons_up] at hlevel
      exact absurd (List.mem_cons_self ..) hlevel
    rw [stepsOf_cons_name hidle hup, List.mem_cons, not_or] at hlevel
    rw [if_neg hidle, if_neg hup] at hext ⊢
    rw [if_neg hidle, if_neg hup]
    by_cases hlong : isOverlong segment = true
    · rw [if_pos hlong, if_pos hlong]
      rfl
    rw [if_neg hlong, on_get_bind] at hext ⊢
    rw [if_neg hlong, on_get_bind]
    cases hnode : t.node? (place ++ [segment]) with
    | some node =>
      -- There is something, so no directory was made before.
      obtain rfl := hmade.resolve_right fun hnone => by simp [hnone] at hnode
      rw [hnode] at hext
      cases node with
      | directory =>
        have hchild : t'.node? (place ++ [segment]) = some .directory :=
          (hext.trans (extends_makeDirectories t _ made' rest)).directory hnode
        rw [hchild]
        exact ih ht (hopen.concat hnode) hlevel.2 (.inl rfl) hext
      | file content =>
        have hold : t'.Extends t := hext
        obtain ⟨content', hcontent'⟩ := Option.isSome_iff_exists.1 (hold.file (by rw [content?_of_file hnode]; rfl))
        rw [node?_of_content? hcontent']
        rfl
    | none =>
      rw [hnode, on_modify_bind] at hext
      set t₁ := t.put (place ++ [segment]) .directory with ht₁
      have hmadeNow : t₁.node? (place ++ [segment]) = some .directory := by
        rw [ht₁, node?_put t (by simp), if_pos rfl]
      have hchild : t'.node? (place ++ [segment]) = some .directory :=
        (hext.trans (extends_makeDirectories t₁ _ true rest)).directory hmadeNow
      have hkind : ∀ kind, t.kind? (place ++ [segment]) = some kind → FileNode.directory.isDirectory = kind := by
        simp [kind?, hnode]
      have hrooted : t₁.Rooted := ht.put hopen.node?_eq hkind
      have hopen₁ : t₁.Open (place ++ [segment]) := ((extends_put (by simp) hkind).open hopen).concat hmadeNow
      have hbelow : ∀ n, t₁.node? (place ++ [segment] ++ [n]) = none := by
        intro n
        rw [ht₁, node?_put t (by simp), if_neg (by simp)]
        by_contra hsome
        simp [ht _ n (Option.isSome_iff_ne_none.2 hsome)] at hnode
      rw [hchild]
      exact ih hrooted hopen₁ hlevel.2 (.inr hbelow) hext

/-- What writing in a directory that is there comes to. -/
theorem on_write_of_follow (text : String) (hfault : p.fault? = none)
    (hfollow : t.follow [] (dropSlashes p.segments).dropLast = .ok place) (hplace : t.node? place = some .directory) :
    (write p text).on t =
      let name := p.segments.getLast?.getD ""
      if isIdle name || name = ".." then (.error .isDirectory, t)
      else if isOverlong name then (.error .nameTooLong, t)
      else if t.kind? (place ++ [name]) = some true then (.error .isDirectory, t)
      else (.ok (), t.put (place ++ [name]) (.file text.toUTF8)) := by
  simp only [write, hfault, on_get_bind, hfollow, on_ok_bind, hplace]
  by_cases hend : (isIdle (p.segments.getLast?.getD "") || decide (p.segments.getLast?.getD "" = "..")) = true
  · rw [if_pos hend, if_pos hend, on_throw_bind]
  rw [if_neg hend, if_neg hend]
  by_cases hlong : isOverlong (p.segments.getLast?.getD "") = true
  · rw [if_pos hlong, if_pos hlong, on_throw_bind]
  rw [if_neg hlong, if_neg hlong]
  split_ifs with hkind
  · rw [kind?_eq_some_true.1 hkind, on_throw]
  · rw [kind?_eq_some_true] at hkind
    split
    · next hnode => exact absurd hnode hkind
    · rw [on_set]

theorem extends_write (t : FileTree) (p : Path) (text : String) : ((write p text).on t).2.Extends t := by
  have hwrites := writes t p text
  generalize (write p text).on t = result at hwrites ⊢
  cases hwrites with
  | refused e => exact .refl t
  | written hfileable hgoal hparent =>
    refine extends_put hfileable.place_ne_nil fun kind hkind => ?_
    cases kind with
    | true => exact absurd (kind?_eq_some_true.1 hkind) hgoal
    | false => rfl

theorem repeats_write (text : String) (hfollow : t.follow [] (dropSlashes p.segments).dropLast = .ok place)
    (hplace : t.node? place = some .directory) : Repeats (write p text) t := by
  intro t' hext
  have hgrows := hext.trans (extends_write t p text)
  cases hfault : p.fault? with
  | some fault =>
    have hthrow : ∀ t, (write p text).on t = (.error fault, t) := fun t => by
      simp only [write, hfault, on_throw_bind]
    rw [hthrow, hthrow]
    exact ⟨rfl, .refl t'⟩
  | none =>
    have hplace' := hgrows.directory hplace
    have hfollow' := follow_eq_of_follow hfollow (fun d => hgrows.directory) (by simp [hplace'])
    rw [on_write_of_follow text hfault hfollow hplace] at hext ⊢
    rw [on_write_of_follow text hfault hfollow' hplace']
    dsimp only at hext ⊢
    by_cases hend : (isIdle (p.segments.getLast?.getD "") || decide (p.segments.getLast?.getD "" = "..")) = true
    · rw [if_pos hend, if_pos hend]
      exact ⟨rfl, .refl t'⟩
    rw [if_neg hend] at hext ⊢
    rw [if_neg hend]
    by_cases hlong : isOverlong (p.segments.getLast?.getD "") = true
    · rw [if_pos hlong, if_pos hlong]
      exact ⟨rfl, .refl t'⟩
    rw [if_neg hlong] at hext ⊢
    rw [if_neg hlong]
    by_cases hkind : t.kind? (place ++ [p.segments.getLast?.getD ""]) = some true
    · rw [if_pos hkind, if_pos (hgrows _ _ hkind)]
      exact ⟨rfl, .refl t'⟩
    · rw [if_neg hkind] at hext ⊢
      have hfile : t'.kind? (place ++ [p.segments.getLast?.getD ""]) = some false :=
        hext _ _ (by rw [kind?, node?_put t (by simp), if_pos rfl]; rfl)
      rw [if_neg (by simp [hfile])]
      refine ⟨rfl, fun x => ?_⟩
      rw [kind?, node?_put t' (by simp)]
      split_ifs with heq
      · rw [heq, hfile]
        rfl
      · rfl

/-- A file is written again where its directories are there. -/
theorem repeats_write_of_stops {front : List String} {name : String} (text : String)
    (hsegments : p.segments = front ++ [name]) (hname : name ≠ "")
    (hstops : ∀ d ∈ stops [] (stepsOf front), t.node? d = some .directory) (hshort : Short (stepsOf front)) :
    Repeats (write p text) t := by
  have hdrop : (dropSlashes p.segments).dropLast = front := by
    rw [hsegments, dropSlashes_concat hname, List.dropLast_concat]
  have hfollow := follow_eq_ok (open_nil t) hstops hshort
  exact repeats_write text (hdrop ▸ hfollow) ((open_nil t).foldl hstops).node?_eq

/-- A file is written again, with its directories. -/
theorem repeats_writeDeep (text : String) (ht : t.Rooted) (hlevel : .up ∉ p.steps)
    (hnamed : ∃ front name, p.segments = front ++ [name] ∧ ¬isIdle name = true ∧ name ≠ "..") :
    Repeats (writeDeep p text) t := by
  obtain ⟨front, name, hsegments, hidle, hup⟩ := hnamed
  have hsteps := steps_of_segments hsegments hidle hup
  rw [writeDeep]
  cases hparent : p.parent? with
  | none => simp [steps_of_parent?_eq_none hparent] at hsteps
  | some parent =>
    have hfront : parent.steps = stepsOf front := by rw [steps_parent hparent, hsteps, List.dropLast_concat]
    dsimp only
    cases parent.fault? with
    | some fault => exact repeats_throw fault t
    | none =>
      refine Repeats.bind (fun t' hext => ?_) fun t₁ hmade => ⟨?_, extends_write t₁ p text⟩
      · have hlevel' : .up ∉ stepsOf parent.segments := by
          rw [← steps_eq, steps_parent hparent]
          exact fun hmem => hlevel (List.mem_of_mem_dropLast hmem)
        rw [makeDirectories_again ht (open_nil t) hlevel' (.inl rfl) hext]
        exact ⟨rfl, .refl t'⟩
      · have hmakes := makes t [] false parent.segments
        rw [hmade, ← steps_eq, hfront] at hmakes
        cases hmakes with
        | made hpass hopens =>
          have hstops : ∀ d ∈ stops [] (stepsOf front), t₁.node? d = some .directory := fun d hd => by
            rw [hopens, if_pos hd]
          have hname : name ≠ "" := fun hempty => hidle (by simp [isIdle, hempty])
          exact repeats_write_of_stops text hsegments hname hstops hpass.short

end Filing

/-! ### Paths in both trees -/

namespace FileTree

variable {t t' : FileTree} {p : Path} {x : NodePlace}

/-- Two trees with nodes of one kind at a place have the same way to it. -/
theorem locate_congr (ht : t.Rooted) (ht' : t'.Rooted) (hp : .up ∉ p.steps) (hkind : t'.kind? p.place = t.kind? p.place)
    (hsome : (t.kind? p.place).isSome = true) : t'.locate p = t.locate p := by
  have hsame : ∀ x, [] <+: x → x <+: p.place → t'.kind? x = t.kind? x := by
    intro x _ hx
    rcases eq_or_ne x p.place with rfl | hne
    · exact hkind
    · have hdirectory := ht.directory (isSome_kind? ▸ hsome) hx hne
      have hdirectory' := ht'.directory (isSome_kind? ▸ hkind ▸ hsome) hx hne
      rw [kind?, kind?, hdirectory, hdirectory']
  rw [locate, locate]
  split
  · rfl
  · exact follow_congr hp hsame

theorem kind?_congr (h : t'.node? x = t.node? x) : t'.kind? x = t.kind? x := by rw [kind?, kind?, h]

theorem find?_congr (ht : t.Rooted) (ht' : t'.Rooted) (hp : .up ∉ p.steps)
    (hnode : t'.node? p.place = t.node? p.place) : t'.find? p = t.find? p := by
  refine Option.ext fun node => ?_
  rw [find?_eq_some, find?_eq_some, hnode]
  refine and_congr_left fun hsome => ?_
  rw [locate_congr ht ht' hp (kind?_congr hnode) (by simp [kind?, hsome])]

theorem read_congr (ht : t.Rooted) (ht' : t'.Rooted) (hp : .up ∉ p.steps) (hnode : t'.node? p.place = t.node? p.place)
    (hsome : (t.node? p.place).isSome = true) : t'.read p = t.read p := by
  rw [FileTree.read, FileTree.read, locate_congr ht ht' hp (kind?_congr hnode) (isSome_kind?.trans hsome)]
  cases hlocate : t.locate p with
  | error e => rfl
  | ok place =>
    obtain ⟨rfl, -⟩ := locate_eq_ok hlocate
    simp only [bind, Except.bind, hnode]

/-- A path that can be read leads somewhere. -/
theorem isSome_of_read {text : String} (h : t.read p = .ok text) : (t.node? p.place).isSome = true := by
  rw [FileTree.read] at h
  cases hlocate : t.locate p with
  | error e => simp [hlocate, bind, Except.bind] at h
  | ok place => exact (locate_eq_ok hlocate).2

end FileTree

namespace Workspace

variable {w : Workspace} {dir p target : Path} {ps : List Path} {t t' : FileTree}

theorem repeats_writeOutput (ht : t.Rooted) (h : Goal dir target) (f : SourceFile) (r : Expanded) :
    Filing.Repeats (w.writeOutput f r target) t := by
  rw [writeOutput]
  refine Filing.Repeats.bind (Filing.repeats_writeDeep _ ht h.level h.named) fun t₁ hwritten => ?_
  split_ifs with hmaps
  · refine ⟨?_, Filing.extends_write _ _ _⟩
    obtain ⟨front, name, hsegments, hidle, hup⟩ := h.named
    have hdeep := Filing.writesDeep t target r.code
    rw [hwritten] at hdeep
    cases hdeep with
    | written hadmits hnode =>
      have hsteps := steps_of_segments hsegments hidle hup
      have hways : ∀ d ∈ stops [] (stepsOf front), t₁.node? d = some .directory := fun d hd => by
        have hmem : d ∈ target.ways := by rwa [ways_of_steps hsteps]
        have hne : d ≠ target.place := fun heq => hadmits.apart (heq ▸ hmem)
        rw [hnode, if_neg hne, if_pos hmem]
      have hshort := (short_append.1 (hsteps ▸ hadmits.fileable.short)).1
      exact Filing.repeats_write_of_stops _ (segments_mapPath hsegments) (by simp) hways hshort
  · exact ⟨Filing.repeats_pure t₁, .refl t₁⟩

/-- A file that is processed again, on a tree that has what was made for it, is reported as before. -/
theorem process_again [Script.ExpressionReader] (ht : t.Rooted)
    (h : ∀ target, w.outputPath? p = some target → Goal dir target) (hread : t'.read p = t.read p)
    (hext : t'.Extends ((w.process p).run t).2) :
    ((w.process p).run t').1 = ((w.process p).run t).1 ∧ ((w.process p).run t').2.Similar t' := by
  rw [run_process] at hext ⊢
  rw [run_process, hread]
  cases hreview : w.review p (t.read p) with
  | inl report => exact ⟨rfl, .refl t'⟩
  | inr d =>
    rw [hreview] at hext
    obtain ⟨hsame, hsimilar⟩ :=
      repeats_writeOutput ht (h d.target (outputPath?_of_review hreview)) d.file d.expanded t' hext
    exact ⟨congrArg (fun result => some (w.reportOf p d.target result)) hsame, hsimilar⟩

/-- A file outside of the output directory, where its output goes. Both trees have it with the same content. -/
structure Stays (w : Workspace) (dir : Path) (t t' : FileTree) (p : Path) : Prop where
  level : .up ∉ p.steps
  outside : ¬dir.Inside p.place
  file : (t.content? p.place).isSome = true
  content : t'.content? p.place = t.content? p.place
  goal : ∀ target, w.outputPath? p = some target → Goal dir target

theorem Stays.of_edits {t₁ t₁' : FileTree} (h : w.Stays dir t t' p) (hedits : Edits dir t t₁)
    (hedits' : Edits dir t' t₁') : w.Stays dir t₁ t₁' p where
  level := h.level
  outside := h.outside
  file := by rw [hedits.content?_of_outside h.outside, h.file]
  content := by rw [hedits.content?_of_outside h.outside, hedits'.content?_of_outside h.outside, h.content]
  goal := h.goal

theorem Stays.read_eq (h : w.Stays dir t t' p) (ht : t.Rooted) (ht' : t'.Rooted) : t'.read p = t.read p := by
  obtain ⟨content, hcontent⟩ := Option.isSome_iff_exists.1 h.file
  have hnode := node?_of_content? hcontent
  exact read_congr ht ht' h.level (by rw [hnode, node?_of_content? (h.content.trans hcontent)]) (by rw [hnode]; rfl)

/-- Files that are processed again, on a tree that has what was made for them, are reported as before. -/
theorem processAll_again [Script.ExpressionReader] (ht : t.Sound) (ht' : t'.Sound) (hps : ∀ p ∈ ps, w.Stays dir t t' p)
    (hext : t'.Extends ((w.processAll ps).run t).2) :
    ((w.processAll ps).run t').1 = ((w.processAll ps).run t).1 ∧ ((w.processAll ps).run t').2.Similar t' := by
  induction ps generalizing t t' with
  | nil => exact ⟨rfl, .refl t'⟩
  | cons p ps ih =>
    obtain ⟨hp, hrest⟩ := List.forall_mem_cons.1 hps
    rw [run_processAll_cons] at hext ⊢
    rw [run_processAll_cons]
    -- What the first file leaves is kept by the other files, so it is there when that file comes again.
    have hedits : Edits dir t ((w.process p).run t).2 := edits_process hp.goal
    have hedits' : Edits dir t' ((w.process p).run t').2 := edits_process hp.goal
    have hlater : Edits dir ((w.process p).run t).2 ((w.processAll ps).run ((w.process p).run t).2).2 :=
      edits_processAll fun q hq => (hrest q hq).goal
    obtain ⟨hsame, hsimilar⟩ :=
      process_again ht.rooted hp.goal (hp.read_eq ht.rooted ht'.rooted) (hext.trans hlater.extends)
    obtain ⟨hsame', hsimilar'⟩ := ih (hedits.sound ht) (hedits'.sound ht')
      (fun q hq => (hrest q hq).of_edits hedits hedits') (hsimilar.extends hext)
    exact ⟨by rw [hsame, hsame'], hsimilar'.trans hsimilar⟩

end Workspace

end Restyle
