import Restyle.Proofs.Workspace.Routes

/-! What writing does to a tree. Directories are made on the way, also when the writing fails further
on; besides, a file that is written changes one place. -/

namespace Restyle

open Restyle.Path

namespace Filing

variable {α β : Type} {t t' : FileTree}

/-- What a change gives for a tree, and the tree after it. -/
def on (x : Filing α) (t : FileTree) : Except FileError α × FileTree := x.run.run t

@[simp] theorem on_throw (e : FileError) (t : FileTree) :
    on (throw e : Filing α) t = (.error e, t) := rfl

@[simp] theorem on_throw_bind (e : FileError) (f : α → Filing β) (t : FileTree) :
    on ((throw e : Filing α) >>= f) t = (.error e, t) := rfl

@[simp] theorem on_get_bind (f : FileTree → Filing α) (t : FileTree) :
    on (get >>= f) t = on (f t) t := rfl

@[simp] theorem on_modify_bind (g : FileTree → FileTree) (f : Unit → Filing α) (t : FileTree) :
    on (modify g >>= f) t = on (f ()) (g t) := rfl

@[simp] theorem on_set (t' t : FileTree) : on (set t' : Filing Unit) t = (.ok (), t') := rfl

@[simp] theorem on_ok_bind (a : α) (f : α → Filing β) (t : FileTree) :
    on (liftM (Except.ok a : Except FileError α) >>= f) t = on (f a) t := rfl

theorem on_bind_of_ok {x : Filing α} {a : α} (h : x.on t = (.ok a, t')) (f : α → Filing β) :
    on (x >>= f) t = (f a).on t' := by
  simp only [on, StateT.run, ExceptT.run] at h
  simp only [on, StateT.run, ExceptT.run, bind, ExceptT.bind, ExceptT.mk, StateT.bind, h]
  rfl

theorem on_bind_of_error {x : Filing α} {e : FileError} (h : x.on t = (.error e, t'))
    (f : α → Filing β) : on (x >>= f) t = (.error e, t') := by
  simp only [on, StateT.run, ExceptT.run] at h
  simp only [on, StateT.run, ExceptT.run, bind, ExceptT.bind, ExceptT.mk, StateT.bind, h]
  rfl

end Filing

namespace FileTree

variable {t t' t'' : FileTree} {ds es : List NodePlace} {place x : NodePlace} {steps : List PathStep}

/-! ### Directories -/

/-- A tree with new directories, all at some places. -/
def Grows (t t' : FileTree) (ds : List NodePlace) : Prop :=
  ∀ x, t'.node? x = t.node? x ∨ x ∈ ds ∧ t.node? x = none ∧ t'.node? x = some .directory

/-- Directories at some places. -/
def directoriesAt (ds : List NodePlace) (x : NodePlace) : Option FileNode :=
  if x ∈ ds then some .directory else none

/-- A tree in which some places are directories, and the others are as before. -/
def Opens (t t' : FileTree) (ds : List NodePlace) : Prop :=
  ∀ x, t'.node? x = if x ∈ ds then some .directory else t.node? x

/-- No step leads to a file or has a name that no directory can hold. -/
structure Passable (t : FileTree) (place : NodePlace) (steps : List PathStep) : Prop where
  short : Short steps
  noFile : ∀ d ∈ stops place steps, t.content? d = none

theorem content?_eq_none_iff : t.content? x = none ↔ ∀ content, t.node? x ≠ some (.file content) := by
  rw [content?]
  split <;> simp_all

theorem content?_of_directory (h : t.node? x = some .directory) : t.content? x = none := by
  simp [content?, h]

theorem content?_of_file {content : ByteArray} (h : t.node? x = some (.file content)) :
    t.content? x = some content := by
  simp [content?, h]

theorem node?_of_content? {content : ByteArray} (h : t.content? x = some content) :
    t.node? x = some (.file content) := by
  rw [content?] at h
  split at h <;> simp_all

theorem content?_of_none (h : t.node? x = none) : t.content? x = none := by simp [content?, h]

theorem content?_congr (h : t'.node? x = t.node? x) : t'.content? x = t.content? x := by
  rw [content?, content?, h]

theorem Grows.refl (t : FileTree) (ds : List NodePlace) : t.Grows t ds := fun _ => .inl rfl

theorem Grows.mono (h : t.Grows t' ds) (hsub : ds ⊆ es) : t.Grows t' es := fun x =>
  (h x).imp id fun ⟨hx, hold, hnew⟩ => ⟨hsub hx, hold, hnew⟩

theorem Grows.content?_eq (h : t.Grows t' ds) (x : NodePlace) : t'.content? x = t.content? x := by
  rcases h x with hsame | ⟨_, hold, hnew⟩
  · exact content?_congr hsame
  · rw [content?_of_directory hnew, content?_of_none hold]

theorem Grows.trans (h : t.Grows t' ds) (h' : t'.Grows t'' ds) : t.Grows t'' ds := by
  intro x
  rcases h x with hsame | ⟨hx, hold, hnew⟩ <;> rcases h' x with hsame' | ⟨hx', hold', hnew'⟩
  · exact .inl (hsame'.trans hsame)
  · exact .inr ⟨hx', hsame ▸ hold', hnew'⟩
  · exact .inr ⟨hx, hold, hsame'.trans hnew⟩
  · simp [hnew] at hold'

theorem Opens.grows (h : t.Opens t' ds) (hfree : ∀ d ∈ ds, t.content? d = none) : t.Grows t' ds := by
  intro x
  rw [h x]
  by_cases hx : x ∈ ds
  · have := content?_eq_none_iff.1 (hfree x hx)
    cases hnode : t.node? x with
    | none => simp [hx]
    | some node => cases node <;> simp_all
  · simp [hx]

theorem passable_nil : t.Passable place [] := ⟨short_nil, by simp [stops]⟩

theorem passable_cons_up : t.Passable place (.up :: steps) ↔ t.Passable place.dropLast steps :=
  ⟨fun h => ⟨short_cons_up.1 h.short, h.noFile⟩, fun h => ⟨short_cons_up.2 h.short, h.noFile⟩⟩

theorem passable_cons_name {n : String} : t.Passable place (.name n :: steps) ↔
    (¬isOverlong n = true ∧ t.content? (place ++ [n]) = none) ∧ t.Passable (place ++ [n]) steps := by
  constructor
  · intro h
    obtain ⟨hn, hshort⟩ := short_cons_name.1 h.short
    obtain ⟨hplace, hrest⟩ := List.forall_mem_cons.1 h.noFile
    exact ⟨⟨hn, hplace⟩, hshort, hrest⟩
  · rintro ⟨⟨hn, hplace⟩, hshort, hrest⟩
    exact ⟨short_cons_name.2 ⟨hn, hshort⟩, List.forall_mem_cons.2 ⟨hplace, hrest⟩⟩

theorem Passable.grows (h : t.Grows t' ds) : t'.Passable place steps ↔ t.Passable place steps :=
  ⟨fun hp => ⟨hp.short, fun d hd => (h.content?_eq d).symm.trans (hp.noFile d hd)⟩,
    fun hp => ⟨hp.short, fun d hd => (h.content?_eq d).trans (hp.noFile d hd)⟩⟩

end FileTree

namespace Filing

open FileTree

variable {t : FileTree} {place : NodePlace} {segments : List String}

/-- What making directories comes to: all of them if none of the steps is in the way, and else some of
those that were missing. -/
inductive Makes (t : FileTree) (place : NodePlace) (steps : List PathStep) :
    Except FileError Unit × FileTree → Prop
  | made {t' : FileTree} (hpass : t.Passable place steps) (hopens : t.Opens t' (stops place steps)) :
      Makes t place steps (.ok (), t')
  | blocked {e : FileError} {t' : FileTree} (hpass : ¬t.Passable place steps)
      (hgrows : t.Grows t' (stops place steps)) : Makes t place steps (.error e, t')

variable {steps : List PathStep} {result : Except FileError Unit × FileTree}

theorem Makes.up (h : Makes t place.dropLast steps result) : Makes t place (.up :: steps) result := by
  cases h with
  | made hpass hopens => exact .made (passable_cons_up.2 hpass) hopens
  | blocked hpass hgrows => exact .blocked (mt passable_cons_up.1 hpass) hgrows

/-- A directory on the way was there, or it is made first. -/
theorem Makes.name {n : String} {t₁ : FileTree} (hn : ¬isOverlong n = true)
    (hfree : t.content? (place ++ [n]) = none) (hput : t.Opens t₁ [place ++ [n]])
    (h : Makes t₁ (place ++ [n]) steps result) : Makes t place (.name n :: steps) result := by
  have hgrows₁ : t.Grows t₁ (stops place (.name n :: steps)) :=
    (hput.grows (by simpa using hfree)).mono (by simp [stops])
  cases h with
  | @made t' hpass hopens =>
    refine .made (passable_cons_name.2 ⟨⟨hn, hfree⟩, (Passable.grows hgrows₁).1 hpass⟩) fun x => ?_
    rw [hopens x, hput x]
    by_cases hx : x = place ++ [n] <;> simp [stops, hx]
  | blocked hpass hgrows =>
    refine .blocked (fun hp => hpass ?_) (hgrows₁.trans (hgrows.mono (by simp [stops])))
    exact (Passable.grows hgrows₁).2 (passable_cons_name.1 hp).2

theorem makes (t : FileTree) (place : NodePlace) (made : Bool) (segments : List String) :
    Makes t place (stepsOf segments) ((makeDirectories place made segments).on t) := by
  induction segments generalizing t place made with
  | nil => exact .made passable_nil fun x => by simp [stops]
  | cons segment rest ih =>
    rw [makeDirectories]
    by_cases hidle : isIdle segment = true
    · rw [if_pos hidle, stepsOf_cons_of_idle hidle]
      exact ih t place made
    rw [if_neg hidle]
    by_cases hup : segment = ".."
    · rw [if_pos hup, hup, stepsOf_cons_up]
      exact (ih t place.dropLast made).up
    rw [if_neg hup, stepsOf_cons_name hidle hup]
    by_cases hn : isOverlong segment = true
    · rw [if_pos hn, on_throw]
      exact .blocked (fun hp => (passable_cons_name.1 hp).1.1 hn) (.refl t _)
    rw [if_neg hn, on_get_bind]
    cases hnode : t.node? (place ++ [segment]) with
    | none =>
      refine .name hn (content?_of_none hnode) (fun x => ?_) (ih _ _ true)
      simp [node?_put t (by simp : place ++ [segment] ≠ [])]
    | some node =>
      cases node with
      | directory =>
        refine .name hn (content?_of_directory hnode) (fun x => ?_) (ih t _ made)
        by_cases hx : x = place ++ [segment] <;> simp [hx, hnode]
      | file content =>
        refine .blocked (fun hp => ?_) (.refl t _)
        simpa [content?, hnode] using (passable_cons_name.1 hp).1.2

end Filing

/-! ### Files -/

namespace Path

variable {p : Path} {front : List String} {name : String}

/-- A path can name a file: it ends in a name, and nothing about it is too long. -/
structure Fileable (p : Path) : Prop where
  fault : p.fault? = none
  named : ∃ front name, p.segments = front ++ [name] ∧ ¬isIdle name = true ∧ name ≠ ".."
  short : Short p.steps

theorem steps_of_segments (h : p.segments = front ++ [name]) (hidle : ¬isIdle name = true)
    (hup : name ≠ "..") : p.steps = stepsOf front ++ [.name name] := by
  rw [steps_eq, h, stepsOf_append, stepsOf_cons_name hidle hup, stepsOf_nil]

theorem ways_of_steps {steps : List PathStep} {step : PathStep} (h : p.steps = steps ++ [step]) :
    p.ways = stops [] steps := by
  rw [ways, h, List.dropLast_concat]

theorem place_of_steps {steps : List PathStep} (h : p.steps = steps ++ [.name name]) :
    p.place = steps.foldl PathStep.reach [] ++ [name] := by
  simp [place, h]

theorem Fileable.exists_steps (h : p.Fileable) : ∃ steps name, p.steps = steps ++ [.name name] := by
  obtain ⟨front, name, hsegments, hidle, hup⟩ := h.named
  exact ⟨_, name, steps_of_segments hsegments hidle hup⟩

theorem Fileable.place_ne_nil (h : p.Fileable) : p.place ≠ [] := by
  obtain ⟨steps, name, hsteps⟩ := h.exists_steps
  simp [place_of_steps hsteps]

end Path

namespace FileTree

variable {t : FileTree}

/-- A file can be written at a path when its directories are made: none of them is a file, or is to be
the file itself, and there is no directory in its place. -/
structure Admits (t : FileTree) (p : Path) : Prop where
  fileable : p.Fileable
  parent_fault : ∀ parent, p.parent? = some parent → parent.fault? = none
  noFile : ∀ d ∈ p.ways, t.content? d = none
  goal : t.node? p.place ≠ some .directory
  apart : p.place ∉ p.ways

theorem Admits.passable {p : Path} (h : t.Admits p) : t.Passable [] p.steps.dropLast :=
  ⟨fun n hn => h.fileable.short n (List.mem_of_mem_dropLast hn), h.noFile⟩

end FileTree

namespace Filing

open FileTree

variable {t : FileTree} {p : Path}

/-- What writing a file in a directory that exists comes to. -/
inductive Writes (t : FileTree) (p : Path) (text : String) : Except FileError Unit × FileTree → Prop
  | written (hfileable : p.Fileable) (hgoal : t.node? p.place ≠ some .directory)
      (hparent : t.node? p.place.dropLast = some .directory) :
      Writes t p text (.ok (), t.put p.place (.file text.toUTF8))
  | refused (e : FileError) : Writes t p text (.error e, t)

theorem dropSlashes_concat {front : List String} {name : String} (h : name ≠ "") :
    dropSlashes (front ++ [name]) = front ++ [name] := by
  simp [dropSlashes, h]

theorem writes (t : FileTree) (p : Path) (text : String) : Writes t p text ((write p text).on t) := by
  obtain ⟨front, name, hsegments⟩ := p.exists_segments
  have hname : p.segments.getLast?.getD "" = name := by simp [hsegments]
  have hfront : ¬isIdle name = true → (dropSlashes p.segments).dropLast = front := fun hidle => by
    rw [hsegments, dropSlashes_concat fun hempty => hidle (by simp [isIdle, hempty]), List.dropLast_concat]
  cases hfault : p.fault? with
  | some fault =>
    simp only [write, hfault, on_throw_bind]
    exact .refused fault
  | none =>
    simp only [write, hfault, on_get_bind, hname]
    cases hplace : t.follow [] (dropSlashes p.segments).dropLast with
    | error e => exact .refused e
    | ok place =>
      simp only [on_ok_bind]
      split
      · exact .refused _
      · exact .refused _
      · next hdirectory =>
        by_cases hend : (isIdle name || decide (name = "..")) = true
        · rw [if_pos hend, on_throw_bind]
          exact .refused _
        rw [if_neg hend]
        by_cases hlong : isOverlong name = true
        · rw [if_pos hlong, on_throw_bind]
          exact .refused _
        rw [if_neg hlong]
        simp only [Bool.or_eq_true, decide_eq_true_eq, not_or] at hend
        rw [hfront hend.1] at hplace
        obtain ⟨hreach, hshort⟩ := of_follow_eq_ok hplace
        have hsteps := steps_of_segments hsegments hend.1 hend.2
        have hgoal : p.place = place ++ [name] := by rw [place_of_steps hsteps, hreach]
        have hparent : t.node? p.place.dropLast = some .directory := by rwa [hgoal, List.dropLast_concat]
        rw [← hgoal]
        split
        · exact .refused _
        · next hnode =>
          refine .written ⟨hfault, ⟨front, name, hsegments, hend.1, hend.2⟩, ?_⟩ hnode hparent
          rw [hsteps, short_append]
          exact ⟨hshort, by simpa using hlong⟩

/-- A file is written where nothing is in the way, in a directory that exists. -/
theorem on_write_of_fileable (text : String) (h : p.Fileable) (hways : ∀ d ∈ p.ways, t.node? d = some .directory)
    (hgoal : t.node? p.place ≠ some .directory) :
    (write p text).on t = (.ok (), t.put p.place (.file text.toUTF8)) := by
  obtain ⟨front, name, hsegments, hidle, hup⟩ := h.named
  have hsteps := steps_of_segments hsegments hidle hup
  obtain ⟨hshort, hname⟩ := short_append.1 (hsteps ▸ h.short)
  have hlast : p.segments.getLast?.getD "" = name := by simp [hsegments]
  have hfront : (dropSlashes p.segments).dropLast = front := by
    rw [hsegments, dropSlashes_concat fun hempty => hidle (by simp [isIdle, hempty]), List.dropLast_concat]
  rw [ways_of_steps hsteps] at hways
  have hfollow := follow_eq_ok (open_nil t) hways hshort
  have hdirectory := ((open_nil t).foldl hways).node?_eq
  have hend : ¬(isIdle name || decide (name = "..")) = true := by simp [hidle, hup]
  have hlong : ¬isOverlong name = true := by simpa using hname
  simp only [write, h.fault, on_get_bind, hfront, hlast, hfollow, on_ok_bind, hdirectory]
  rw [if_neg hend, if_neg hlong, ← place_of_steps hsteps]
  split
  · next hnode => exact absurd hnode hgoal
  · rfl

/-- What writing a file comes to, when its directories are made. -/
inductive WritesDeep (t : FileTree) (p : Path) (text : String) :
    Except FileError Unit × FileTree → Prop
  | written {t' : FileTree} (hadmits : t.Admits p)
      (hnode : ∀ x, t'.node? x = if x = p.place then some (.file text.toUTF8)
        else if x ∈ p.ways then some .directory else t.node? x) : WritesDeep t p text (.ok (), t')
  | refused {t' : FileTree} (e : FileError) (hadmits : ¬t.Admits p) (hgrows : t.Grows t' p.ways) :
      WritesDeep t p text (.error e, t')

/-- A tree with the directories that are missing takes the file just if the tree without them does. -/
theorem writesDeep_of_makes {t' : FileTree} (text : String)
    (hparent : ∀ parent, p.parent? = some parent → parent.fault? = none)
    (hpass : t.Passable [] p.steps.dropLast) (hopens : t.Opens t' p.ways) :
    WritesDeep t p text ((write p text).on t') := by
  have hwrites := writes t' p text
  generalize hresult : (write p text).on t' = result at hwrites ⊢
  cases hwrites with
  | written hfileable hgoal =>
    have hapart : p.place ∉ p.ways := fun hmem => hgoal (by rw [hopens, if_pos hmem])
    rw [hopens, if_neg hapart] at hgoal
    refine .written ⟨hfileable, hparent, hpass.noFile, hgoal, hapart⟩ fun x => ?_
    rw [node?_put t' hfileable.place_ne_nil, hopens]
  | refused e =>
    refine .refused e (fun hadmits => ?_) (hopens.grows hpass.noFile)
    have hok := on_write_of_fileable text hadmits.fileable (fun d hd => by rw [hopens, if_pos hd])
      (by rw [hopens, if_neg hadmits.apart]; exact hadmits.goal)
    simp [hok] at hresult

theorem writesDeep (t : FileTree) (p : Path) (text : String) :
    WritesDeep t p text ((writeDeep p text).on t) := by
  rw [writeDeep]
  cases hparent : p.parent? with
  | none =>
    -- The path has no steps, so there is nothing to make and no file to write.
    have hopens : t.Opens t p.ways := fun x => by
      simp [ways, steps_of_parent?_eq_none hparent, stops]
    refine writesDeep_of_makes text (by simp [hparent]) ?_ hopens
    rw [steps_of_parent?_eq_none hparent]
    exact passable_nil
  | some parent =>
    dsimp only
    cases hfault : parent.fault? with
    | some fault =>
      refine .refused fault (fun hadmits => ?_) (.refl t _)
      simp [hadmits.parent_fault parent hparent] at hfault
    | none =>
      have hmakes := makes t [] false parent.segments
      rw [← steps_eq, steps_parent hparent] at hmakes
      generalize hmade : (makeDirectories [] false parent.segments).on t = result at hmakes
      cases hmakes with
      | made hpass hopens =>
        rw [on_bind_of_ok hmade]
        exact writesDeep_of_makes text (by simp [hparent, hfault]) hpass hopens
      | @blocked e t' hpass hgrows =>
        rw [on_bind_of_error hmade]
        exact .refused e (fun hadmits => hpass hadmits.passable) hgrows

end Filing

end Restyle
