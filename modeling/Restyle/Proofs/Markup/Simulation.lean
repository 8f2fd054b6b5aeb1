import Restyle.Proofs.Markup.Descent
import Restyle.Proofs.Markup.Following
import Restyle.Proofs.Markup.Leaving

/-! The reader on a woven text. If at every state of a run without faults the weave does no more than the
step can bear, the reader on the woven text follows step by step, and finds no fault either. In the end it has
the same elements, with what became of their attributes, and the scripts with what they have taken in. -/

namespace Restyle.Markup

open Text Cursor

variable {w : Weave} {c c' c₁ : Cursor} {t z z' name : List Char}

/-! ### What begins at a place -/

/-- Where nothing happens to the next two bytes, the same markup begins. -/
theorem sameMark_of_quiet {offset : Nat} (h : w.Quiet offset (offset + 2)) (z : List Char) :
    SameMark z (w.text offset z) := by
  obtain ⟨hput, hdrops⟩ := h offset (Nat.le_refl _) (by omega)
  cases z with
  | nil =>
    rw [Weave.text, hput]
    exact ⟨rfl, by simp⟩
  | cons d z =>
    rw [Weave.text, hput, hdrops]
    refine ⟨rfl, fun e he hmark => ?_⟩
    cases he
    have hone : d.utf8Size = 1 := by
      rcases hmark with rfl | rfl <;> decide
    rw [hone]
    obtain ⟨hput', hdrops'⟩ := h (offset + 1) (by omega) (by omega)
    cases z with
    | nil =>
      rw [Weave.text, hput']
      rfl
    | cons e z =>
      rw [Weave.text, hput', hdrops']
      rfl

theorem SameMark.atElement (h : SameMark c.rest c'.rest) : c'.AtElement ↔ c.AtElement := by
  have hiff : ∀ r : Cursor, r.AtElement ↔
      r.rest.head? = some '<' ∧ ∃ d, r.rest.tail.head? = some d ∧ d.isAlpha = true := by
    intro r
    constructor
    · rintro ⟨d, rest, hrest, hd⟩
      rw [hrest]
      exact ⟨rfl, d, rfl, hd⟩
    · rintro ⟨hangle, d, htail, hd⟩
      obtain ⟨rest, hrest⟩ := List.head?_eq_some_iff.1 hangle
      rw [hrest] at htail
      obtain ⟨more, rfl⟩ := List.head?_eq_some_iff.1 htail
      exact ⟨d, more, hrest, hd⟩
  rw [hiff, hiff, h.first]
  refine and_congr_right fun hangle => ?_
  rw [h.second '<' hangle (.inl rfl)]

theorem SameMark.atEnd (h : SameMark c.rest c'.rest) : c'.atEnd = c.atEnd := by
  have hhead := h.first
  unfold Cursor.atEnd
  cases hc : c.rest <;> cases hc' : c'.rest <;> rw [hc, hc'] at hhead <;> first | rfl | cases hhead

theorem endsFragment_eq (h : SameMark c.rest c'.rest) : c'.endsFragment = c.endsFragment := by
  have hangle := h.startsWith (.inl rfl) '/'
  have hbrace := h.startsWith (.inr rfl) '/'
  unfold Cursor.endsFragment Cursor.startsWith
  rw [SameMark.atEnd h, h.atContinuation, hangle, hbrace]

/-- The letters of a name up to its end. -/
theorem takeWhile_name {rest : List Char} (hletters : ∀ d ∈ name, endsTagName d = false)
    (hends : ∀ d ∈ rest.head?, endsTagName d = true) :
    (name ++ rest).takeWhile (!endsTagName ·) = name := by
  rw [List.takeWhile_append_of_pos fun d hd => by simp [hletters d hd]]
  cases rest with
  | nil => simp
  | cons d rest => simp [hends d rfl]

/-- A tag of the given name opens where an element of that name does. -/
theorem atTag_iff (hfirst : ∃ d u, name = d :: u ∧ d.isAlpha = true)
    (hletters : ∀ d ∈ name, endsTagName d = false) :
    c.atTag name = true ↔ c.AtElement ∧ (readOpeningTag c).name = String.ofList name := by
  constructor
  · intro h
    obtain ⟨rest, hrest, hends⟩ := rest_of_atTag h
    have hat : c.AtElement := by
      obtain ⟨d, u, rfl, hd⟩ := hfirst
      exact ⟨d, u ++ rest, hrest, hd⟩
    obtain ⟨n, c₁, hopens⟩ := exists_opensWith hat
    have hsame : n = name := by
      rw [← takeWhile_name hopens.letters hopens.ends, ← takeWhile_name hletters hends]
      exact congrArg _ (List.cons.inj (hopens.rest.symm.trans hrest)).2
    refine ⟨hat, ?_⟩
    rw [hopens.tag, hsame]
  · rintro ⟨hat, hname⟩
    obtain ⟨n, c₁, hopens⟩ := exists_opensWith hat
    rw [hopens.tag] at hname
    obtain rfl : n = name := String.ofList_injective hname
    exact atTag_of_rest hopens.rest hopens.ends

theorem atTag_eq (hmark : SameMark c.rest c'.rest)
    (hname : c.AtElement → (readOpeningTag c').name = (readOpeningTag c).name)
    (hfirst : ∃ d u, name = d :: u ∧ d.isAlpha = true) (hletters : ∀ d ∈ name, endsTagName d = false) :
    c'.atTag name = c.atTag name := by
  rw [Bool.eq_iff_iff, atTag_iff hfirst hletters, atTag_iff hfirst hletters, hmark.atElement]
  refine and_congr_right fun hat => ?_
  rw [hname hat]

/-- Attributes begin behind the first two bytes of their tag. -/
theorem le_attributes (hat : c.AtElement) : ∀ a ∈ (readOpeningTag c).attributes, c.offset + 2 ≤ a.span.start := by
  intro a ha
  obtain ⟨name, c₁, hopens⟩ := exists_opensWith hat
  rw [hopens.tag] at ha
  have hin := (inOrder_attributes c₁).of_mem (List.mem_map_of_mem ha)
  have hoffset := hopens.reaches.offset_eq (t := '<' :: name) hopens.rest
  obtain ⟨d, u, rfl, -⟩ := hopens.first
  have hd := d.utf8Size_pos
  have hangle : Char.utf8Size '<' = 1 := by decide
  simp only [width_cons, hangle] at hoffset
  omega

/-- So does the content of a script or style. -/
theorem le_contentSpan (hclean : (c.rawBlock name).cursor.faults = []) (hat : c.atTag name = true)
    (hname : name ≠ []) : c.offset + 2 ≤ (c.rawBlock name).contentSpan.start
      ∧ (c.rawBlock name).contentSpan.start ≤ (c.rawBlock name).contentSpan.stop := by
  obtain ⟨t, hc, -⟩ := rest_of_atTag hat
  obtain ⟨hreads, -, hreach⟩ := readsRaw_rawBlock hclean hc
  have hattributes := (reaches_attributes (c.moved ('<' :: name) t)).offset_le
  have hle := hreach.offset_le
  have hangle : Char.utf8Size '<' = 1 := by decide
  have hoffset : (c.moved ('<' :: name) t).offset = c.offset + (1 + width name) := by
    rw [← hangle]
    rfl
  have hwidth := length_le_width name
  have hpos := List.length_pos_iff.2 hname
  cases hreads with
  | selfClosing _ hspan =>
    rw [hspan]
    refine ⟨?_, Nat.le_refl _⟩
    show _ ≤ (c.rawBlock name).cursor.offset
    omega
  | content _ _ _ _ _ hspan _ =>
    rw [hspan]
    refine ⟨?_, Nat.le_add_right _ _⟩
    show _ ≤ (c.moved ('<' :: name) t).attributes.2.offset + 1
    omega

/-! ### What the weave may do -/

namespace Reader

variable {first r r' : Reader}

/-- The tag that the next step reads shows an attribute. -/
def Shows (r : Reader) (a : Attribute) : Prop :=
  r.readsNode = true ∧ r.cursor.AtElement ∧ a ∈ (readOpeningTag r.cursor).attributes

/-- The next step reads a script. -/
def Takes (r : Reader) (s : Script) : Prop :=
  r.frames = [] ∧ r.cursor.atTag "script".toList = true
    ∧ s = (r.cursor.rawBlock "script".toList).script r.cursor.offset

theorem not_takes_of_readsNode (h : r.readsNode = true) (s : Script) : ¬ r.Takes s := by
  rintro ⟨hframes, htag, -⟩
  rw [readsNode, hframes] at h
  dsimp only at h
  rw [htag] at h
  cases h

/-- The weave does no more to the text of the next step than the step can bear: attributes give way to
spreads or are dropped, and texts are put at the ends of the content of a script. If the reader on the woven
text had a script of a kind at first, the step reads none of that kind. -/
structure Fits (w : Weave) (r first : Reader) : Prop where
  put : ∀ o, r.cursor.offset ≤ o → o < r.step.cursor.offset + 2 →
    (∀ a, r.Shows a → a.span.contains o = false) →
    (∀ s, r.Takes s → s.contentSpan.stop < s.span.stop →
      o ≠ s.contentSpan.start ∧ o ≠ s.contentSpan.stop) → w.put o = []
  drops : ∀ o, r.cursor.offset ≤ o → o < r.step.cursor.offset + 2 →
    (∀ a, r.Shows a → a.span.contains o = false) → w.drops o = false
  edits : ∀ a, r.Shows a → Edits w a
  free : ∀ s, r.Takes s → s.contentSpan.stop < s.span.stop →
    Free "</script".toList (w.filled s.contentSpan.start s.content.toList)
  moduleScript : ∀ s, r.Takes s → s.context = .perModule → first.moduleScript = none
  instanceScript : ∀ s, r.Takes s → s.context = .perInstance → first.instanceScript = none

theorem Fits.quiet (hw : r.Fits w first) (hshows : ∀ a, ¬ r.Shows a) (htakes : ∀ s, ¬ r.Takes s) :
    w.Quiet r.cursor.offset (r.step.cursor.offset + 2) := fun o hlo hhi =>
  ⟨hw.put o hlo hhi (fun a ha => absurd ha (hshows a)) fun s hs => absurd hs (htakes s),
    hw.drops o hlo hhi fun a ha => absurd ha (hshows a)⟩

theorem Fits.suits (hw : r.Fits w first) (hreads : r.readsNode = true) (hat : r.cursor.AtElement) :
    Suits w r.cursor.offset (readOpeningTag r.cursor).attributes (r.step.cursor.offset + 2) where
  still o hlo hhi hnone :=
    ⟨hw.put o hlo hhi (fun a ha => hnone a ha.2.2) fun s hs => absurd hs (not_takes_of_readsNode hreads s),
      hw.drops o hlo hhi fun a ha => hnone a ha.2.2⟩
  edits a ha := hw.edits a ⟨hreads, hat, ha⟩

theorem Fits.fills (hw : r.Fits w first) (hframes : r.frames = [])
    (htag : r.cursor.atTag "script".toList = true)
    (hle : (r.cursor.rawBlock "script".toList).cursor.offset ≤ r.step.cursor.offset) :
    Fills w "script".toList r.cursor.offset (r.cursor.rawBlock "script".toList) := by
  have htakes : r.Takes ((r.cursor.rawBlock "script".toList).script r.cursor.offset) := ⟨hframes, htag, rfl⟩
  have hshows : ∀ a, ¬ r.Shows a := fun a ha => not_takes_of_readsNode ha.1 _ htakes
  refine ⟨fun o hlo hhi hends => ?_, fun o hlo hhi => ?_, hw.free _ htakes⟩
  · refine hw.put o hlo (by omega) (fun a ha => absurd ha (hshows a)) fun s hs hlt => ?_
    obtain ⟨-, -, rfl⟩ := hs
    exact hends hlt
  · exact hw.drops o hlo (by omega) fun a ha => absurd ha (hshows a)

theorem step_of_script (hframes : r.frames = []) (htag : r.cursor.atTag "script".toList = true) :
    r.step = r.readScript := by
  rw [step, hframes]
  exact if_pos htag

theorem reaches_readScript (r : Reader) :
    (r.cursor.rawBlock "script".toList).cursor.Reaches r.readScript.cursor := by
  unfold readScript
  dsimp only
  split <;> split <;> first | exact reaches_fault (.refl _) | exact .refl _

theorem Takes.step {s : Script} (h : r.Takes s) :
    (r.cursor.rawBlock "script".toList).cursor.Reaches r.step.cursor := by
  rw [step_of_script h.1 h.2.1]
  exact reaches_readScript r

/-- The content of a script lies behind the first two bytes of its tag. -/
theorem Takes.le_content {s : Script} (h : r.Takes s) (hclean : r.step.cursor.faults = []) :
    r.cursor.offset + 2 ≤ s.contentSpan.start ∧ s.contentSpan.start ≤ s.contentSpan.stop := by
  have hblock := h.step.clean hclean
  obtain ⟨hframes, htag, rfl⟩ := h
  exact le_contentSpan hblock htag (by decide)

/-- Nothing happens to the first two bytes. -/
theorem Fits.quiet_first (hw : r.Fits w first) (hclean : r.step.cursor.faults = []) :
    w.Quiet r.cursor.offset (r.cursor.offset + 2) := by
  have hle := (reaches_step r).offset_le
  have hbefore : ∀ o, o < r.cursor.offset + 2 → ∀ a, r.Shows a → a.span.contains o = false := by
    intro o ho a ha
    have := le_attributes ha.2.1 a ha.2.2
    exact Span.contains_eq_false_iff.2 (.inl (by omega))
  intro o hlo hhi
  refine ⟨hw.put o hlo (by omega) (hbefore o hhi) fun s hs _ => ?_, hw.drops o hlo (by omega) (hbefore o hhi)⟩
  have := hs.le_content hclean
  omega

/-! ### One step -/

end Reader

/-- What becomes of a script: it is of the same kind, and it has taken in what is put at the ends of its
content. -/
structure Script.Refills (w : Weave) (s s' : Script) : Prop where
  context : s'.context = s.context
  content : s'.content.toList = refill w s.contentSpan s.content s.span.stop

/-- A script of the woven text: what becomes of that of the text, or the one that was there at first. -/
def Refilled (w : Weave) (first : Option Script) : Option Script → Option Script → Prop
  | none, s' => s' = first
  | some s, s' => ∃ t, s' = some t ∧ s.Refills w t

namespace Reader

variable {first r r' : Reader}

/-- The reader on the woven text follows the one on the text: it stands before what becomes of the rest, what
it has read has the same elements, and its scripts are those that it had at first and what becomes of those
that the other one has. -/
structure Follows (w : Weave) (r first r' : Reader) : Prop where
  cursor : r.cursor.Follows w r'.cursor
  alike : Alike (Rewoven w) r r' r.frames r'.frames
  moduleScript : Refilled w first.moduleScript r.moduleScript r'.moduleScript
  instanceScript : Refilled w first.instanceScript r.instanceScript r'.instanceScript
  style : r.style = none → r'.style = none

theorem Follows.of_mirrors {r₁ r₁' : Reader} (h : r.Follows w first r') (hkeeps : r.Keeps r₁)
    (hkeeps' : r'.Keeps r₁')
    (hmirrors : r₁.Mirrors (Rewoven w) (w.text r₁.cursor.offset r₁.cursor.rest) r₁') :
    r₁.Follows w first r₁' := by
  refine ⟨hmirrors.cursor, hmirrors.alike, ?_, ?_, ?_⟩
  · rw [hkeeps.moduleScript, hkeeps'.moduleScript]
    exact h.moduleScript
  · rw [hkeeps.instanceScript, hkeeps'.instanceScript]
    exact h.instanceScript
  · rw [hkeeps.style, hkeeps'.style]
    exact h.style

theorem Follows.sameMark (h : r.Follows w first r') (hquiet : w.Quiet r.cursor.offset (r.cursor.offset + 2)) :
    SameMark r.cursor.rest r'.cursor.rest := by
  rw [h.cursor.rest]
  exact sameMark_of_quiet hquiet _

/-- The next step reads a node in both texts, or in neither. -/
theorem readsNode_eq (hframes : List.Forall₂ (Frame.Like (Rewoven w)) r.frames r'.frames)
    (hmark : SameMark r.cursor.rest r'.cursor.rest)
    (hname : r.cursor.AtElement → (readOpeningTag r'.cursor).name = (readOpeningTag r.cursor).name) :
    r'.readsNode = r.readsNode := by
  have hstarts : ∀ d e, d = '<' ∨ d = '{' → r'.cursor.startsWith [d, e] = r.cursor.startsWith [d, e] :=
    fun d e hd => hmark.startsWith hd e
  unfold readsNode
  generalize r.frames = frames at hframes ⊢
  generalize r'.frames = frames' at hframes ⊢
  cases hframes with
  | nil =>
    have hscript : r'.cursor.atTag "script".toList = r.cursor.atTag "script".toList :=
      atTag_eq hmark hname ⟨'s', _, rfl, by decide⟩ (forall_mem_of_all rfl)
    have hstyle : r'.cursor.atTag "style".toList = r.cursor.atTag "style".toList :=
      atTag_eq hmark hname ⟨'s', _, rfl, by decide⟩ (forall_mem_of_all rfl)
    dsimp only
    rw [hscript, hstyle, hstarts _ _ (.inl rfl), hstarts _ _ (.inr rfl), hstarts _ _ (.inr rfl)]
  | cons =>
    dsimp only
    rw [endsFragment_eq hmark]

/-- The next step reads an element. -/
theorem follows_element (h : r.Follows w first r') (hw : r.Fits w first) (hreads : r.readsNode = true)
    (hat : r.cursor.AtElement) (hclean : r.readNode.cursor.faults = []) :
    r'.readsNode = true ∧ r.readNode.Follows w first r'.readNode := by
  have hstep := step_of_readsNode hreads
  have hsuits := hw.suits hreads hat
  rw [hstep] at hsuits
  have hmore := reaches_readNode_found r
  have hbefore := hmore.clean hclean
  rw [readNode_of_element hat] at hmore hbefore
  have hle := hmore.offset_le
  obtain ⟨hat', hname, hlike, hfollows⟩ := h.cursor.readElement hat hbefore
    (hsuits.mono (Nat.le_refl _) (by omega))
  have hmark := h.sameMark (hw.quiet_first (by rw [hstep]; exact hclean))
  have hreads' : r'.readsNode = true := by
    rw [readsNode_eq h.alike.frames hmark fun _ => hname]
    exact hreads
  obtain ⟨t, ht, -⟩ := reaches_readNode_found r
  rw [readNode_of_element hat] at ht
  have htag := (reaches_element (readOpeningTag r.cursor) r.cursor.offset).offset_le
  have hstart : r.cursor.offset ≤ (readOpeningTag r.cursor).cursor.offset :=
    ((reaches_moved_take r.cursor 1).trans (reaches_readOpeningTag r.cursor)).offset_le
  have hquiet : w.Quiet (readElement r.cursor).2.offset r.readNode.cursor.offset := by
    refine (hsuits.behind (fun a ha => ?_) hstart).mono htag (by omega)
    exact ((inOrder_attributes _).of_mem (List.mem_map_of_mem ha)).2.2
  have hmirrors := mirrors_readNode (z := r.readNode.cursor.rest)
    (by rw [readNode_of_element hat, readNode_of_element hat']; exact hlike) hclean h.alike
    (by rw [readNode_of_element hat]; exact ht) rfl
    (by rw [readNode_of_element hat']; exact hfollows.sees hmore ht hquiet)
  exact ⟨hreads', h.of_mirrors (keeps_readNode r) (keeps_readNode r') hmirrors⟩

/-- The next step reads a node that is not an element. -/
theorem follows_other (h : r.Follows w first r') (hw : r.Fits w first) (hreads : r.readsNode = true)
    (hnot : ¬ r.cursor.AtElement) (hne : r.cursor.rest ≠ []) (hclean : r.readNode.cursor.faults = []) :
    r'.readsNode = true ∧ r.readNode.Follows w first r'.readNode := by
  have hstep := step_of_readsNode hreads
  have hquiet := hw.quiet (fun a ha => hnot ha.2.1) fun s hs => not_takes_of_readsNode hreads s hs
  rw [hstep] at hquiet
  have hread := Markup.reaches_readNode r.cursor
  have hmore := reaches_readNode_found r
  have hlo := hread.offset_le
  have hhi := hmore.offset_le
  obtain ⟨t, ht, -⟩ := Markup.reaches_readNode r.cursor
  obtain ⟨t', ht', -⟩ := reaches_readNode_found r
  have hmark : SameMark (Markup.readNode r.cursor).2.rest
      (w.text (Markup.readNode r.cursor).2.offset (Markup.readNode r.cursor).2.rest) :=
    sameMark_of_quiet (hquiet.mono hlo (by omega)) _
  obtain ⟨hlike, hsees⟩ := (h.cursor.sees hread ht (hquiet.mono (Nat.le_refl _) (by omega))).readNode hnot
    (hmore.clean hclean) ht rfl hmark hne
  rw [hmore.text_of_quiet ht' (hquiet.mono hlo (by omega))] at hsees
  have hreads' : r'.readsNode = true := by
    rw [readsNode_eq h.alike.frames (h.sameMark (hquiet.mono (Nat.le_refl _) (by omega)))
      fun hat => absurd hat hnot]
    exact hreads
  exact ⟨hreads', h.of_mirrors (keeps_readNode r) (keeps_readNode r')
    (mirrors_readNode hlike hclean h.alike ht' rfl hsees)⟩

/-- The next step leaves a fragment. -/
theorem follows_leave {f : Frame} {frames : List Frame} (h : r.Follows w first r') (hw : r.Fits w first)
    (hframes : r.frames = f :: frames) (hends : r.cursor.endsFragment = true) (hclean : r.step.cursor.faults = []) :
    r.step.Follows w first r'.step := by
  have hquiet := hw.quiet (fun a ha => by
      have := ha.1
      rw [readsNode, hframes] at this
      simp [hends] at this)
    fun s hs => by
      rw [hs.1] at hframes
      cases hframes
  have hstep : r.step = r.leave f frames := by
    rw [step, hframes]
    exact if_pos hends
  have hreach := reaches_step r
  have hle := hreach.offset_le
  have hmark := h.sameMark (hquiet.mono (Nat.le_refl _) (by omega))
  obtain ⟨t, ht, -⟩ := reaches_step r
  have hsees := h.cursor.sees hreach ht (hquiet.mono (Nat.le_refl _) (by omega))
  have halike := h.alike.frames
  rw [hframes] at halike
  obtain ⟨f', frames', hlike, hmore, hframes'⟩ := List.forall₂_cons_left_iff.1 halike
  have hstep' : r'.step = r'.leave f' frames' := by
    rw [step, hframes']
    exact if_pos ((endsFragment_eq hmark).trans hends)
  rw [hstep] at hclean ht hsees ⊢
  rw [hstep']
  exact h.of_mirrors (keeps_leave r f frames) (keeps_leave r' f' frames')
    (mirrors_leave hlike hclean ⟨hmore, h.alike.nodes⟩ hmark ht rfl hsees)

/-! Scripts and styles. -/

theorem readScript_of_perModule
    (hcontext : ((r.cursor.rawBlock "script".toList).script r.cursor.offset).context = .perModule)
    (hnone : r.moduleScript = none) : r.readScript = { r with
      cursor := (r.cursor.rawBlock "script".toList).cursor
      moduleScript := some ((r.cursor.rawBlock "script".toList).script r.cursor.offset) } := by
  unfold readScript
  dsimp only
  rw [hcontext, hnone]
  rfl

theorem readScript_of_perInstance
    (hcontext : ((r.cursor.rawBlock "script".toList).script r.cursor.offset).context = .perInstance)
    (hnone : r.instanceScript = none) : r.readScript = { r with
      cursor := (r.cursor.rawBlock "script".toList).cursor
      instanceScript := some ((r.cursor.rawBlock "script".toList).script r.cursor.offset) } := by
  unfold readScript
  dsimp only
  rw [hcontext, hnone]
  rfl

/-- Without a fault a script is the first one of its kind. -/
theorem none_of_readScript (hclean : r.readScript.cursor.faults = []) :
    (((r.cursor.rawBlock "script".toList).script r.cursor.offset).context = .perModule → r.moduleScript = none)
      ∧ (((r.cursor.rawBlock "script".toList).script r.cursor.offset).context = .perInstance →
        r.instanceScript = none) := by
  unfold readScript at hclean
  dsimp only at hclean
  constructor
  · intro hcontext
    rw [hcontext] at hclean
    cases hscript : r.moduleScript with
    | none => rfl
    | some script =>
      rw [hscript] at hclean
      cases hclean
  · intro hcontext
    rw [hcontext] at hclean
    cases hscript : r.instanceScript with
    | none => rfl
    | some script =>
      rw [hscript] at hclean
      cases hclean

/-- The next step reads a script. -/
theorem follows_script (h : r.Follows w first r') (hw : r.Fits w first) (hframes : r.frames = [])
    (htag : r.cursor.atTag "script".toList = true) (hclean : r.step.cursor.faults = []) :
    r.step.Follows w first r'.step := by
  have htakes : r.Takes ((r.cursor.rawBlock "script".toList).script r.cursor.offset) := ⟨hframes, htag, rfl⟩
  have hreach := htakes.step
  obtain ⟨htag', hattributes, hcontent, hfollows⟩ := h.cursor.rawBlock htag (hreach.clean hclean)
    (hw.fills hframes htag hreach.offset_le)
  have hframes' : r'.frames = [] := by
    have := h.alike.frames
    rw [hframes] at this
    exact List.forall₂_nil_left_iff.1 this
  have halike : Alike (Rewoven w) r r' [] [] := ⟨.nil, h.alike.nodes⟩
  have hrefills : ((r.cursor.rawBlock "script".toList).script r.cursor.offset).Refills w
      ((r'.cursor.rawBlock "script".toList).script r'.cursor.offset) := by
    refine ⟨?_, hcontent⟩
    rw [RawBlock.script, RawBlock.script, any_unplaced Attribute.namesModule_unplaced hattributes]
  rw [step_of_script hframes htag] at hclean ⊢
  rw [step_of_script hframes' htag']
  obtain ⟨hmodule, hinstance⟩ := none_of_readScript hclean
  cases hcontext : ((r.cursor.rawBlock "script".toList).script r.cursor.offset).context with
  | perModule =>
    have hnone := hmodule hcontext
    have hnone' : r'.moduleScript = none := by
      have hfirst := h.moduleScript
      rw [hnone] at hfirst
      exact Eq.trans hfirst (hw.moduleScript _ htakes hcontext)
    rw [readScript_of_perModule hcontext hnone,
      readScript_of_perModule (hrefills.context.trans hcontext) hnone']
    refine ⟨hfollows, ?_, ⟨_, rfl, hrefills⟩, h.instanceScript, h.style⟩
    show Alike _ _ _ r.frames r'.frames
    rw [hframes, hframes']
    exact ⟨halike.frames, halike.nodes⟩
  | perInstance =>
    have hnone := hinstance hcontext
    have hnone' : r'.instanceScript = none := by
      have hfirst := h.instanceScript
      rw [hnone] at hfirst
      exact Eq.trans hfirst (hw.instanceScript _ htakes hcontext)
    rw [readScript_of_perInstance hcontext hnone,
      readScript_of_perInstance (hrefills.context.trans hcontext) hnone']
    refine ⟨hfollows, ?_, h.moduleScript, ⟨_, rfl, hrefills⟩, h.style⟩
    show Alike _ _ _ r.frames r'.frames
    rw [hframes, hframes']
    exact ⟨halike.frames, halike.nodes⟩

theorem not_script_of_style (htag : c.atTag "style".toList = true) : c.atTag "script".toList = false := by
  rw [← Bool.not_eq_true]
  intro hscript
  obtain ⟨rest, hrest, -⟩ := rest_of_atTag htag
  obtain ⟨rest', hrest', -⟩ := rest_of_atTag hscript
  rw [hrest] at hrest'
  simp at hrest'

theorem step_of_style (hframes : r.frames = []) (htag : r.cursor.atTag "style".toList = true) :
    r.step = r.readStyle := by
  rw [step, hframes]
  dsimp only
  rw [readTop, if_neg (by rw [not_script_of_style htag]; exact Bool.false_ne_true), if_pos htag]

theorem readStyle_of_none (hnone : r.style = none) : r.readStyle = { r with
    cursor := (r.cursor.rawBlock "style".toList).cursor
    style := some ((r.cursor.rawBlock "style".toList).style r.cursor.offset) } := by
  unfold readStyle
  dsimp only
  rw [hnone]
  rfl

/-- Without a fault a style is the first one. -/
theorem none_of_readStyle (hclean : r.readStyle.cursor.faults = []) : r.style = none := by
  unfold readStyle at hclean
  dsimp only at hclean
  cases hstyle : r.style with
  | none => rfl
  | some style =>
    rw [hstyle] at hclean
    cases hclean

/-- The next step reads a style. -/
theorem follows_style (h : r.Follows w first r') (hw : r.Fits w first) (hframes : r.frames = [])
    (htag : r.cursor.atTag "style".toList = true) (hclean : r.step.cursor.faults = []) :
    r.step.Follows w first r'.step := by
  have hstep := step_of_style hframes htag
  have hquiet := hw.quiet (fun a ha => by
      have hreads := ha.1
      rw [readsNode, hframes] at hreads
      simp only [htag, Bool.or_true, Bool.true_or, Bool.not_true, Bool.false_eq_true] at hreads)
    fun s hs => Bool.false_ne_true ((not_script_of_style htag).symm.trans hs.2.1)
  have hframes' : r'.frames = [] := by
    have := h.alike.frames
    rw [hframes] at this
    exact List.forall₂_nil_left_iff.1 this
  rw [hstep] at hclean hquiet ⊢
  have hnone := none_of_readStyle hclean
  rw [readStyle_of_none hnone] at hclean hquiet ⊢
  obtain ⟨htag', -, -, hfollows⟩ := h.cursor.rawBlock htag hclean
    (.of_quiet htag hclean (hquiet.mono (Nat.le_refl _) (Nat.le_add_right _ 2)))
  rw [step_of_style hframes' htag', readStyle_of_none (h.style hnone)]
  refine ⟨hfollows, ?_, h.moduleScript, h.instanceScript, fun hsome => by cases hsome⟩
  show Alike _ _ _ r.frames r'.frames
  exact ⟨h.alike.frames, h.alike.nodes⟩

theorem Follows.isDone_eq (h : r.Follows w first r') (hmark : SameMark r.cursor.rest r'.cursor.rest) :
    r'.isDone = r.isDone := by
  have hframes := h.alike.frames
  rw [isDone, isDone, SameMark.atEnd hmark]
  generalize r.frames = frames at hframes ⊢
  generalize r'.frames = frames' at hframes ⊢
  cases hframes <;> rfl

theorem rest_ne_nil_of_readsNode (hdone : r.isDone = false) (hreads : r.readsNode = true) : r.cursor.rest ≠ [] := by
  intro hnil
  rw [isDone, atEnd, hnil] at hdone
  rw [readsNode] at hreads
  cases hframes : r.frames with
  | nil =>
    rw [hframes] at hdone
    cases hdone
  | cons f frames =>
    rw [hframes] at hreads
    simp [endsFragment, atEnd, hnil] at hreads

/-- One step before the end. -/
theorem Follows.step (h : r.Follows w first r') (hw : r.Fits w first) (hdone : r.isDone = false)
    (hclean : r.step.cursor.faults = []) : r'.isDone = false ∧ r.step.Follows w first r'.step := by
  have hmark := h.sameMark (hw.quiet_first hclean)
  refine ⟨(h.isDone_eq hmark).trans hdone, ?_⟩
  cases hreads : r.readsNode with
  | true =>
    have hne := rest_ne_nil_of_readsNode hdone hreads
    rw [step_of_readsNode hreads] at hclean ⊢
    by_cases hat : r.cursor.AtElement
    · obtain ⟨hreads', hfollows⟩ := follows_element h hw hreads hat hclean
      rw [step_of_readsNode hreads']
      exact hfollows
    · obtain ⟨hreads', hfollows⟩ := follows_other h hw hreads hat hne hclean
      rw [step_of_readsNode hreads']
      exact hfollows
  | false =>
    cases hframes : r.frames with
    | cons f frames =>
      refine follows_leave h hw hframes ?_ hclean
      rw [readsNode, hframes] at hreads
      simpa using hreads
    | nil =>
      have hstep : r.step = r.readTop := by rw [Reader.step, hframes]
      cases takesTop hframes hreads with
      | script htag _ => exact follows_script h hw hframes htag hclean
      | style htag _ => exact follows_style h hw hframes htag hclean
      | closingTag _ htop =>
        rw [hstep, htop] at hclean
        cases hclean
      | blockTag htop =>
        rw [hstep, htop] at hclean
        cases hclean

/-- All steps to the end. -/
theorem Follows.run (h : r.Follows w first r') (hclean : r.run.cursor.faults = [])
    (hw : ∀ r₁, r.Leads r₁ → r₁.isDone = false → r₁.Fits w first)
    (hend : w.put r.run.cursor.offset = []) : r.run.Follows w first r'.run := by
  fun_induction Reader.run r generalizing r' with
  | case1 r hdone =>
    have hrest : r.cursor.rest = [] := by
      simp only [isDone, atEnd, Bool.and_eq_true, List.isEmpty_iff] at hdone
      exact hdone.2
    have hmark : SameMark r.cursor.rest r'.cursor.rest := by
      rw [h.cursor.rest, hrest, Weave.text, hend]
      exact ⟨rfl, by simp⟩
    rw [run_of_isDone ((h.isDone_eq hmark).trans hdone)]
    exact h
  | case2 r hdone ih =>
    have hdone : r.isDone = false := by simpa using hdone
    have hreach := (leads_to_run r.step).reaches
    obtain ⟨hdone', hstep⟩ := h.step (hw r (.refl r) hdone) hdone (hreach.clean hclean)
    rw [run_of_leads (r := r') (.of_step hdone' (.refl _))]
    exact ih hstep hclean (fun r₁ hr₁ => hw r₁ (.of_step hdone hr₁)) hend

end Reader

end Restyle.Markup
