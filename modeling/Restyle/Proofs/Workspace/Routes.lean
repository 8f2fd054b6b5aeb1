import Mathlib.Data.List.TakeWhile
import Restyle.Workspace.Run
import Restyle.Proofs.Text.Search

/-! Where paths lead. The steps of a path lead through directories to a place, the same in every tree
that has those directories. -/

namespace Restyle

open Text

namespace Path

/-! ### Steps -/

/-- The steps that segments spell. -/
def stepsOf (segments : List String) : List PathStep := (segments.filter (!isIdle ·)).map stepOf

theorem steps_eq (p : Path) : p.steps = stepsOf p.segments := rfl

variable {segment : String} {segments rest : List String}

@[simp] theorem stepsOf_nil : stepsOf [] = [] := rfl

theorem stepsOf_append (segments rest : List String) :
    stepsOf (segments ++ rest) = stepsOf segments ++ stepsOf rest := by
  simp [stepsOf]

theorem stepsOf_cons_of_idle (h : isIdle segment = true) :
    stepsOf (segment :: rest) = stepsOf rest := by
  simp [stepsOf, h]

theorem stepsOf_cons_up : stepsOf (".." :: rest) = .up :: stepsOf rest := rfl

theorem stepsOf_cons_name (hidle : ¬isIdle segment = true) (hup : segment ≠ "..") :
    stepsOf (segment :: rest) = .name segment :: stepsOf rest := by
  simp [stepsOf, hidle, stepOf, hup]

theorem stepsOf_eq_nil (h : ∀ s ∈ segments, isIdle s = true) : stepsOf segments = [] := by
  rw [stepsOf, List.map_eq_nil_iff, List.filter_eq_nil_iff]
  intro s hs
  simp [h s hs]

theorem exists_dropIdleEnd (segments : List String) :
    ∃ idle, (∀ s ∈ idle, isIdle s = true) ∧ segments = dropIdleEnd segments ++ idle := by
  refine ⟨(segments.reverse.takeWhile isIdle).reverse, fun s hs => ?_, ?_⟩
  · exact List.mem_takeWhile_imp (List.mem_reverse.1 hs)
  · rw [dropIdleEnd, ← List.reverse_append, List.takeWhile_append_dropWhile, List.reverse_reverse]

theorem not_isIdle_of_dropWhile {rest : List String} (h : segments.dropWhile isIdle = segment :: rest) :
    ¬isIdle segment = true := by
  have hfirst := List.head_dropWhile_not isIdle (show segments.dropWhile isIdle ≠ [] by simp [h])
  simpa [h] using hfirst

/-- Idle segments at the end are no steps. -/
@[simp] theorem stepsOf_dropIdleEnd (segments : List String) :
    stepsOf (dropIdleEnd segments) = stepsOf segments := by
  obtain ⟨idle, hidle, hsegments⟩ := exists_dropIdleEnd segments
  conv_rhs => rw [hsegments, stepsOf_append, stepsOf_eq_nil hidle, List.append_nil]

theorem exists_dropIdleEnd_concat (h : dropIdleEnd segments ≠ []) :
    ∃ front last, dropIdleEnd segments = front ++ [last] ∧ ¬isIdle last = true := by
  have hne : segments.reverse.dropWhile isIdle ≠ [] := by simpa [dropIdleEnd] using h
  obtain ⟨last, rest, hrest⟩ := List.exists_cons_of_ne_nil hne
  exact ⟨rest.reverse, last, by simp [dropIdleEnd, hrest], not_isIdle_of_dropWhile hrest⟩

theorem mem_of_mem_dropIdleEnd (h : segment ∈ dropIdleEnd segments) : segment ∈ segments :=
  List.mem_reverse.1 ((List.dropWhile_sublist _).subset (List.mem_reverse.1 h))

/-! ### Segments -/

theorem segments_ne_nil (p : Path) : p.segments ≠ [] := by
  simp [segments, splitAtChar_ne_nil]

theorem not_mem_of_mem_segments {p : Path} (h : segment ∈ p.segments) : '/' ∉ segment.toList := by
  obtain ⟨part, hpart, rfl⟩ := List.mem_map.1 h
  simpa using not_mem_of_mem_splitAtChar hpart

theorem exists_segments (p : Path) : ∃ front last, p.segments = front ++ [last] :=
  ⟨_, _, (List.dropLast_append_getLast p.segments_ne_nil).symm⟩

theorem toList_ofSegments (segments : List String) :
    (ofSegments segments).text.toList = List.intercalate ['/'] (segments.map String.toList) := by
  simp [ofSegments, String.toList_intercalate]

/-- A path of segments spells their steps. -/
theorem steps_ofSegments (h : ∀ s ∈ segments, '/' ∉ s.toList) :
    (ofSegments segments).steps = stepsOf segments := by
  cases segments with
  | nil => rfl
  | cons s rest =>
    have hsplit : splitAtChar '/' (ofSegments (s :: rest)).text.toList
        = (s :: rest).map String.toList := by
      rw [toList_ofSegments]
      exact splitAtChar_intercalate (by simp) (by simpa using h)
    rw [steps_eq, segments, hsplit, List.map_map]
    congr 1
    simp [Function.comp_def]

theorem steps_slash (p : Path) : (⟨"/" ++ p.text⟩ : Path).steps = p.steps := by
  have htext : ("/" ++ p.text).toList = '/' :: p.text.toList := by simp
  rw [steps_eq, segments, htext, splitAtChar, if_pos rfl, List.map_cons,
    stepsOf_cons_of_idle (by rfl)]
  rfl

theorem exists_slash {p : Path} (h : p.isAbsolute = true) : ∃ cs, p.text.toList = '/' :: cs := by
  cases hp : p.text.toList with
  | nil => simp [isAbsolute, hp] at h
  | cons c cs => simp_all [isAbsolute]

/-- What stands between the slashes behind the one that an absolute path begins with. -/
def body (p : Path) : List String := if p.isAbsolute then p.segments.tail else p.segments

/-- Only an absolute path has a segment before its body, an empty one. -/
theorem exists_idle_body (p : Path) :
    ∃ idle, p.segments = idle ++ p.body ∧ p.body ≠ [] ∧ ∀ s ∈ idle, isIdle s = true := by
  by_cases habs : p.isAbsolute = true
  · obtain ⟨cs, hcs⟩ := exists_slash habs
    have hsegments : p.segments = "" :: (splitAtChar '/' cs).map String.ofList := by
      rw [segments, hcs, splitAtChar, if_pos rfl]
      rfl
    refine ⟨[""], ?_, ?_, by decide⟩ <;> simp [body, habs, hsegments, splitAtChar_ne_nil]
  · exact ⟨[], by simp [body, habs], by simp [body, habs, p.segments_ne_nil], by simp⟩

theorem parent?_eq_some {p : Path} {front : List String} {last : String}
    (h : dropIdleEnd p.body = front ++ [last]) :
    p.parent? = some ⟨(if p.isAbsolute then "/" else "") ++ (ofSegments (dropIdleEnd front)).text⟩ := by
  rw [body] at h
  rw [parent?]
  split_ifs at h ⊢ with habs <;> dsimp only
  all_goals
    rw [h]
    split
    · simp_all
    · simp_all

theorem parent?_eq_none {p : Path} (h : dropIdleEnd p.body = []) : p.parent? = none := by
  rw [body] at h
  rw [parent?]
  split_ifs at h ⊢ with habs <;> simp [h]

theorem steps_eq_body (p : Path) : p.steps = stepsOf p.body := by
  obtain ⟨idle, hsegments, -, hidle⟩ := p.exists_idle_body
  rw [steps_eq, hsegments, stepsOf_append, stepsOf_eq_nil hidle, List.nil_append]

/-- The directory of a path spells all its steps but the last. -/
theorem steps_parent {p parent : Path} (h : p.parent? = some parent) :
    parent.steps = p.steps.dropLast := by
  have hne : dropIdleEnd p.body ≠ [] := fun hnil => by simp [parent?_eq_none hnil] at h
  obtain ⟨front, last, hbody, hlast⟩ := exists_dropIdleEnd_concat hne
  obtain ⟨idle, hsegments, -, -⟩ := p.exists_idle_body
  have hslash : ∀ s ∈ dropIdleEnd front, '/' ∉ s.toList := by
    intro s hs
    have hmem : s ∈ p.body := by
      refine mem_of_mem_dropIdleEnd ?_
      rw [hbody]
      exact List.mem_append_left _ (mem_of_mem_dropIdleEnd hs)
    exact not_mem_of_mem_segments (p := p) (by rw [hsegments]; exact List.mem_append_right _ hmem)
  obtain rfl := Option.some.inj ((parent?_eq_some hbody).symm.trans h)
  calc Path.steps ⟨(if p.isAbsolute then "/" else "") ++ (ofSegments (dropIdleEnd front)).text⟩
      = (ofSegments (dropIdleEnd front)).steps := by
        split
        · exact steps_slash _
        · simp
    _ = stepsOf front := by rw [steps_ofSegments hslash, stepsOf_dropIdleEnd]
    _ = p.steps.dropLast := by
        have hend : stepsOf [last] = [stepOf last] := by simp [stepsOf, hlast]
        rw [steps_eq_body, ← stepsOf_dropIdleEnd p.body, hbody, stepsOf_append, hend, List.dropLast_concat]

theorem steps_of_parent?_eq_none {p : Path} (h : p.parent? = none) : p.steps = [] := by
  have hnil : dropIdleEnd p.body = [] := by
    by_contra hne
    obtain ⟨front, last, hbody, -⟩ := exists_dropIdleEnd_concat hne
    simp [parent?_eq_some hbody] at h
  rw [steps_eq_body, ← stepsOf_dropIdleEnd, hnil, stepsOf_nil]

/-! ### Paths below others -/

section Below

variable {p q base rest : Path} {left : List String} {steps : List PathStep}

theorem steps_slashed (a b : String) : (⟨a ++ "/" ++ b⟩ : Path).steps = (⟨a⟩ : Path).steps ++ (⟨b⟩ : Path).steps := by
  have htext : (a ++ "/" ++ b).toList = a.toList ++ '/' :: b.toList := by simp
  simp only [steps_eq, Path.segments, htext, splitAtChar_append_cons, List.map_append, stepsOf_append]

@[simp] theorem steps_empty : (⟨""⟩ : Path).steps = [] := rfl

/-- Behind a path the steps of another one are taken from its end. -/
theorem steps_join (h : q.isAbsolute = false) : (p.join q).steps = p.steps ++ q.steps := by
  obtain ⟨text⟩ := p
  rw [join, if_neg (by simp [h])]
  split_ifs with hend
  · rw [Bool.or_eq_true, decide_eq_true_eq, decide_eq_true_eq] at hend
    rcases hend with hempty | hslash
    · obtain rfl : text = "" := hempty
      simp
    · obtain ⟨front, hfront⟩ := List.getLast?_eq_some_iff.1 hslash
      obtain rfl : text = String.ofList front ++ "/" := by
        rw [← String.toList_inj, hfront]
        simp
      have hsteps := steps_slashed (String.ofList front) ""
      rw [steps_empty, List.append_nil, String.append_empty] at hsteps
      rw [steps_slashed, hsteps]
  · exact steps_slashed text q.text

theorem stepsOf_dropWhile_isIdle (segments : List String) : stepsOf (segments.dropWhile isIdle) = stepsOf segments := by
  induction segments with
  | nil => rfl
  | cons s rest ih =>
    by_cases hs : isIdle s = true
    · rw [List.dropWhile_cons_of_pos hs, stepsOf_cons_of_idle hs, ih]
    · rw [List.dropWhile_cons_of_neg hs]

/-- The segments after some steps spell the others. -/
theorem of_dropSteps (h : dropSteps steps segments = some left) :
    stepsOf segments = steps ++ stepsOf left ∧ left <:+ segments := by
  induction steps generalizing segments with
  | nil =>
    cases h
    exact ⟨rfl, List.suffix_refl _⟩
  | cons step steps ih =>
    rw [dropSteps] at h
    split at h
    · cases h
    · next s rest hdrop =>
      split_ifs at h with hs
      obtain ⟨hsteps, hsuffix⟩ := ih h
      have hidle := not_isIdle_of_dropWhile hdrop
      refine ⟨?_, (hsuffix.trans (List.suffix_cons s rest)).trans (hdrop ▸ List.dropWhile_suffix isIdle)⟩
      rw [← stepsOf_dropWhile_isIdle segments, hdrop, List.cons_append, ← hsteps, ← hs]
      simp [stepsOf, hidle]

/-- Segments of which the first is not idle make a relative path. -/
theorem isAbsolute_ofSegments (hslash : ∀ s ∈ segments, '/' ∉ s.toList)
    (hfirst : ∀ s rest, segments = s :: rest → ¬isIdle s = true) : (ofSegments segments).isAbsolute = false := by
  cases segments with
  | nil => rfl
  | cons s rest =>
    have hne : s.toList ≠ [] := fun hnil => hfirst s rest rfl (by simp [isIdle, String.toList_eq_nil_iff.1 hnil])
    obtain ⟨c, cs, hc⟩ := List.exists_cons_of_ne_nil hne
    have hnot : c ≠ '/' := fun heq => hslash s (by simp) (by simp [hc, heq])
    rw [isAbsolute, toList_ofSegments, List.map_cons, hc]
    cases rest <;> simp [List.intercalate, hnot]

/-- A path that is taken from the end of another one. If it has no steps, nothing is written. -/
structure Relative (p : Path) : Prop where
  relative : p.isAbsolute = false
  text : p.steps = [] → p.text = ""

/-- What is left of a path spells its steps behind those of the other one. -/
theorem of_below? (h : p.below? base = some rest) : p.steps = base.steps ++ rest.steps ∧ rest.Relative := by
  rw [below?] at h
  split_ifs at h
  obtain ⟨left, hleft, rfl⟩ := Option.map_eq_some_iff.1 h
  obtain ⟨hsteps, hsuffix⟩ := of_dropSteps hleft
  set segments := dropIdleEnd (left.dropWhile isIdle) with hsegments
  have hslash : ∀ s ∈ segments, '/' ∉ s.toList := fun s hs =>
    not_mem_of_mem_segments (hsuffix.subset ((List.dropWhile_suffix _).subset (mem_of_mem_dropIdleEnd hs)))
  have hspelled : (ofSegments segments).steps = stepsOf left := by
    rw [steps_ofSegments hslash, hsegments, stepsOf_dropIdleEnd, stepsOf_dropWhile_isIdle]
  have hfirst : ∀ s rest, segments = s :: rest → ¬isIdle s = true := by
    intro s rest hs
    obtain ⟨idle, -, hall⟩ := exists_dropIdleEnd (left.dropWhile isIdle)
    rw [← hsegments, hs, List.cons_append] at hall
    exact not_isIdle_of_dropWhile hall
  refine ⟨by rw [hspelled, steps_eq, hsteps], isAbsolute_ofSegments hslash hfirst, fun hnil => ?_⟩
  cases hs : segments with
  | nil => rfl
  | cons s rest =>
    rw [steps_ofSegments hslash, hs] at hnil
    simp [stepsOf, hfirst s rest hs] at hnil

/-- A name that a directory may hold. -/
structure IsName (name : String) : Prop where
  slash : '/' ∉ name.toList
  idle : ¬isIdle name = true
  up : name ≠ ".."

/-- A name spells itself. -/
theorem IsName.steps_eq {name : String} (h : IsName name) : (⟨name⟩ : Path).steps = [.name name] := by
  have hsegments : (ofSegments [name]).steps = stepsOf [name] := steps_ofSegments (by simpa using h.slash)
  rw [stepsOf_cons_name h.idle h.up, stepsOf_nil] at hsegments
  exact hsegments

theorem isName_of_fileName? {name : String} (h : p.fileName? = some name) : IsName name := by
  rw [fileName?] at h
  split at h
  · next n hlast =>
    cases h
    obtain ⟨segment, hsegment, hstep⟩ := List.mem_map.1 (List.mem_of_getLast? hlast)
    obtain ⟨hmem, hidle⟩ := List.mem_filter.1 hsegment
    rw [stepOf] at hstep
    split_ifs at hstep with hup
    cases hstep
    exact ⟨not_mem_of_mem_segments hmem, by simpa using hidle, hup⟩
  · cases h

/-- Names lead on from a path, and never up. -/
theorem steps_join_names {names : List String} (h : ∀ n ∈ names, IsName n) :
    (p.join (ofSegments names)).steps = p.steps ++ stepsOf names ∧ .up ∉ stepsOf names := by
  have hrelative : (ofSegments names).isAbsolute = false :=
    isAbsolute_ofSegments (fun n hn => (h n hn).slash) fun n rest hnames => (h n (by simp [hnames])).idle
  refine ⟨by rw [steps_join hrelative, steps_ofSegments fun n hn => (h n hn).slash], fun hup => ?_⟩
  obtain ⟨segment, hsegment, hstep⟩ := List.mem_map.1 hup
  rw [stepOf] at hstep
  split_ifs at hstep with heq
  exact (h segment (List.mem_of_mem_filter hsegment)).up heq

end Below

/-! ### Sorted paths -/

@[simp] theorem sorted_singleton (p : Path) : sorted [p] = [p] := by
  simp [sorted, distinct]

theorem mem_of_mem_distinct {p : Path} {ps : List Path} (h : p ∈ distinct ps) : p ∈ ps := by
  fun_induction distinct ps <;> simp_all <;> tauto

theorem mem_of_mem_sorted {p : Path} {ps : List Path} (h : p ∈ sorted ps) : p ∈ ps :=
  (List.mergeSort_perm ps _).mem_iff.1 (mem_of_mem_distinct h)

/-! ### Places -/

variable {p : Path} {place : NodePlace} {steps : List PathStep}

/-- The places of the names on steps from a place. -/
def stops (place : NodePlace) : List PathStep → List NodePlace
  | [] => []
  | .up :: steps => stops place.dropLast steps
  | .name n :: steps => (place ++ [n]) :: stops (place ++ [n]) steps

/-- The directories on the way to a path. -/
def ways (p : Path) : List NodePlace := stops [] p.steps.dropLast

/-- No name on the steps is longer than names may be. -/
def Short (steps : List PathStep) : Prop := ∀ n, .name n ∈ steps → ¬isOverlong n = true

@[simp] theorem short_nil : Short [] := by simp [Short]

@[simp] theorem short_cons_up : Short (.up :: steps) ↔ Short steps := by simp [Short]

@[simp] theorem short_cons_name {n : String} :
    Short (.name n :: steps) ↔ ¬isOverlong n = true ∧ Short steps := by
  simp [Short]

theorem short_append {more : List PathStep} :
    Short (steps ++ more) ↔ Short steps ∧ Short more := by
  simp only [Short, List.mem_append, or_imp, forall_and]

end Path

namespace FileTree

open Restyle.Path

variable {t t' : FileTree} {place goal : NodePlace} {segments : List String}

/-- A place and all above it are directories. -/
def Open (t : FileTree) (place : NodePlace) : Prop :=
  ∀ above, above <+: place → t.node? above = some .directory

@[simp] theorem open_nil (t : FileTree) : t.Open [] := by
  intro above h
  rw [List.prefix_nil.1 h]
  rfl

theorem Open.node?_eq (h : t.Open place) : t.node? place = some .directory :=
  h place (List.prefix_refl _)

theorem Open.dropLast (h : t.Open place) : t.Open place.dropLast := fun above habove =>
  h above (habove.trans (List.dropLast_prefix place))

theorem Open.concat (h : t.Open place) {n : String} (hn : t.node? (place ++ [n]) = some .directory) :
    t.Open (place ++ [n]) := by
  intro above habove
  rcases List.prefix_concat_iff.1 habove with rfl | habove
  · exact hn
  · exact h above habove

/-- Steps through directories end in a directory. -/
theorem Open.foldl {steps : List PathStep} (h : t.Open place)
    (hstops : ∀ d ∈ stops place steps, t.node? d = some .directory) :
    t.Open (steps.foldl PathStep.reach place) := by
  induction steps generalizing place with
  | nil => exact h
  | cons step steps ih =>
    cases step with
    | up => exact ih h.dropLast hstops
    | name n =>
      obtain ⟨hn, hstops⟩ := List.forall_mem_cons.1 hstops
      exact ih (h.concat hn) hstops

/-- Where segments lead, if they lead anywhere, does not depend on the tree. -/
theorem of_follow_eq_ok (h : t.follow place segments = .ok goal) :
    goal = (stepsOf segments).foldl PathStep.reach place ∧ Short (stepsOf segments) := by
  induction segments generalizing place with
  | nil => cases h; exact ⟨rfl, short_nil⟩
  | cons segment rest ih =>
    rw [follow] at h
    split at h <;> try cases h
    split_ifs at h with hidle hup hlong
    · rw [stepsOf_cons_of_idle hidle]
      exact ih h
    · rw [hup, stepsOf_cons_up, short_cons_up]
      exact ih h
    · dsimp only at h
      split_ifs at h
      rw [stepsOf_cons_name hidle hup, short_cons_name]
      exact ⟨(ih h).1, hlong, (ih h).2⟩

/-- Segments lead on through directories. -/
theorem follow_eq_ok (hopen : t.Open place)
    (hstops : ∀ d ∈ stops place (stepsOf segments), t.node? d = some .directory)
    (hshort : Short (stepsOf segments)) :
    t.follow place segments = .ok ((stepsOf segments).foldl PathStep.reach place) := by
  induction segments generalizing place with
  | nil => rfl
  | cons segment rest ih =>
    rw [follow, hopen.node?_eq]
    by_cases hidle : isIdle segment = true
    · rw [stepsOf_cons_of_idle hidle] at hstops hshort ⊢
      simpa [hidle] using ih hopen hstops hshort
    by_cases hup : segment = ".."
    · rw [hup, stepsOf_cons_up] at hstops hshort ⊢
      simpa [hidle, hup, isIdle] using ih hopen.dropLast hstops (short_cons_up.1 hshort)
    · rw [stepsOf_cons_name hidle hup] at hstops hshort ⊢
      have hchild := hstops _ (List.mem_cons_self ..)
      obtain ⟨hn, hshort⟩ := short_cons_name.1 hshort
      have hrest := ih (hopen.concat hchild) (fun d hd => hstops d (List.mem_cons_of_mem _ hd)) hshort
      simpa [hidle, hup, hn, hchild] using hrest

/-- A place stays where it was found in a tree that has the same directories and more. -/
theorem follow_eq_of_follow (h : t.follow place segments = .ok goal)
    (hdirs : ∀ d, t.node? d = some .directory → t'.node? d = some .directory)
    (hgoal : (t'.node? goal).isSome) : t'.follow place segments = .ok goal := by
  induction segments generalizing place with
  | nil => exact h
  | cons segment rest ih =>
    rw [follow] at h ⊢
    split at h <;> try cases h
    next hplace =>
    rw [hdirs place hplace]
    dsimp only at h ⊢
    split_ifs at h ⊢ with hidle hup hlong hchild hchild' hchild'
    · exact ih h
    · exact ih h
    · -- The child is the goal or a directory on the way to it.
      cases rest with
      | nil => cases h; simp_all
      | cons next rest =>
        rw [follow] at h
        split at h <;> try cases h
        next hdir => simp [hdirs _ hdir] at hchild
    · exact ih h

/-- Segments that lead somewhere lead there through directories. -/
theorem node?_of_follow (h : t.follow place segments = .ok goal) :
    ∀ d ∈ stops place (stepsOf segments).dropLast, t.node? d = some .directory := by
  induction segments generalizing place with
  | nil => simp [stops]
  | cons segment rest ih =>
    rw [follow] at h
    split at h <;> try cases h
    split_ifs at h with hidle hup hlong
    · rw [stepsOf_cons_of_idle hidle]
      exact ih h
    · rw [hup, stepsOf_cons_up]
      cases hrest : stepsOf rest with
      | nil => simp [stops]
      | cons step steps => simpa [stops, hrest] using ih h
    · dsimp only at h
      split_ifs at h
      rw [stepsOf_cons_name hidle hup]
      cases hrest : stepsOf rest with
      | nil => simp [stops]
      | cons step steps =>
        -- Only from a directory does a further step lead on.
        obtain ⟨next, rest', rfl⟩ : ∃ next rest', rest = next :: rest' := by
          cases rest with
          | nil => simp at hrest
          | cons next rest' => exact ⟨next, rest', rfl⟩
        have hchild : t.node? (place ++ [segment]) = some .directory := by
          rw [follow] at h
          split at h <;> first | cases h | assumption
        have htail := ih h
        rw [hrest] at htail
        rw [List.dropLast_cons_cons, stops]
        exact List.forall_mem_cons.2 ⟨hchild, htail⟩

end FileTree

end Restyle
