import Mathlib.Logic.Relation
import Restyle.Proofs.Markup.Departures

/-! Documents that are read lie well in the text. The frames that are open lie one inside the other,
with the nodes and scripts of the document itself before them; every step of the reader keeps this,
faulty text or not, so it holds of the document at the end. -/

namespace Restyle.Markup

open Text Restyle.Span

variable {cs : List Char} {P : Attribute → Prop}

/-! ### The state of the reader -/

/-- The span of a script or style, and that of its content, lie well in the text. -/
structure Raw.Sound (cs : List Char) (raw : Span × Span) : Prop where
  cuts : raw.1.Cuts cs
  nonempty : raw.1.start < raw.1.stop
  content_cuts : raw.2.Cuts cs
  inside : raw.1.Encloses raw.2

/-- The nodes of a document, newest first, and its scripts and style, up to an offset. -/
structure Top (cs : List Char) (P : Attribute → Prop) (nodes : List Node) (raws : List (Span × Span)) (hi : Nat) : Prop where
  inOrder : InOrder 0 (nodes.reverse.map Node.span) hi
  sound : ∀ n ∈ nodes, n.Sound cs P
  raws_sound : ∀ s ∈ raws, Raw.Sound cs s
  raws_le : ∀ s ∈ raws, s.1.stop ≤ hi
  raws_apart : ∀ s ∈ raws, ∀ n ∈ nodes, s.1.Apart n.span

/-- Frames, innermost first, that lie one inside the other up to an offset. Before them comes the
document. -/
def Stacked (cs : List Char) (P : Attribute → Prop) (document : Nat → Prop) : List Frame → Nat → Prop
  | [], hi => document hi
  | f :: frames, hi => f.Sound cs P hi ∧ Stacked cs P document frames f.start

/-- The spans of a script's or style's whole text and of its content. -/
def rawSpans (scripts : List Script) (styles : List Style) : List (Span × Span) :=
  scripts.map (fun s => (s.span, s.contentSpan)) ++ styles.map fun s => (s.span, s.contentSpan)

/-- The scripts and the style of a document. -/
def Document.raws (d : Document) : List (Span × Span) :=
  rawSpans (d.moduleScript.toList ++ d.instanceScript.toList) d.style.toList

namespace Reader

/-- The scripts and the style that have been read. -/
def raws (r : Reader) : List (Span × Span) :=
  rawSpans (r.moduleScript.toList ++ r.instanceScript.toList) r.style.toList

/-- What has been read lies well in the text. -/
structure Sound (cs : List Char) (P : Attribute → Prop) (r : Reader) : Prop where
  on : r.cursor.On cs
  stacked : Stacked cs P (Top cs P r.nodes r.raws) r.frames r.cursor.offset

end Reader

variable {nodes : List Node} {raws : List (Span × Span)} {frames : List Frame} {lo hi hi' : Nat}

theorem Top.mono (h : Top cs P nodes raws hi) (hle : hi ≤ hi') : Top cs P nodes raws hi' where
  inOrder := h.inOrder.mono_right hle
  sound := h.sound
  raws_sound := h.raws_sound
  raws_le s hs := Nat.le_trans (h.raws_le s hs) hle
  raws_apart := h.raws_apart

/-- One more node. -/
theorem Top.cons {n : Node} (h : Top cs P nodes raws n.span.start) (hn : n.Sound cs P) :
    Top cs P (n :: nodes) raws n.span.stop where
  inOrder := by
    have hone := InOrder.single (Nat.le_refl _) hn.place.nonempty (Nat.le_refl _)
    simpa using h.inOrder.append hone
  sound m hm := by
    rcases List.mem_cons.1 hm with rfl | hm
    · exact hn
    · exact h.sound m hm
  raws_sound := h.raws_sound
  raws_le s hs := Nat.le_trans (h.raws_le s hs) hn.place.cuts.le
  raws_apart s hs m hm := by
    rcases List.mem_cons.1 hm with rfl | hm
    · exact .inl (h.raws_le s hs)
    · exact h.raws_apart s hs m hm

/-- One more script or style. -/
theorem Top.add {raw : Span × Span} {raws' : List (Span × Span)} (h : Top cs P nodes raws raw.1.start)
    (hraw : Raw.Sound cs raw) (hraws : ∀ s ∈ raws', s = raw ∨ s ∈ raws) :
    Top cs P nodes raws' raw.1.stop where
  inOrder := h.inOrder.mono_right hraw.cuts.le
  sound := h.sound
  raws_sound s hs := by
    rcases hraws s hs with rfl | hs
    · exact hraw
    · exact h.raws_sound s hs
  raws_le s hs := by
    rcases hraws s hs with rfl | hs
    · exact Nat.le_refl _
    · exact Nat.le_trans (h.raws_le s hs) hraw.cuts.le
  raws_apart s hs n hn := by
    rcases hraws s hs with rfl | hs
    · have hmem : n.span ∈ nodes.reverse.map Node.span := by simpa using ⟨n, hn, rfl⟩
      exact .inr (h.inOrder.of_mem hmem).2.2
    · exact h.raws_apart s hs n hn

theorem Stacked.mono (h : Stacked cs P (Top cs P nodes raws) frames hi) (hle : hi ≤ hi') :
    Stacked cs P (Top cs P nodes raws) frames hi' := by
  cases frames with
  | nil => exact Top.mono h hle
  | cons f frames => exact ⟨h.1.mono hle, h.2⟩

/-! ### Leaving a frame -/

section Leaving

variable {f : Frame}

/-- The fragment that is being read ends. -/
theorem Frame.Sound.complete (h : f.Sound cs P hi) (hhi : isBoundary cs hi = true) {mid stop : Nat}
    (hstop : hi ≤ stop) (hmid : mid ≤ f.contentStart)
    (hb : Branches cs P mid f.opened.fragments f.contentStart) :
    Branches cs P mid (f.opened.fragments ++ [f.fragment hi]) stop :=
  hb.snoc (h.fragment hhi) hmid (Nat.le_refl _) hstop

/-- The node of a construct whose last fragment has ended. -/
theorem Frame.Sound.node_of_subperm {n : Node} {c : Cursor} (h : f.Sound cs P hi)
    (hhi : isBoundary cs hi = true) (hle : hi ≤ c.offset) (hc : c.On cs)
    (hspan : n.span = c.spanFrom f.start) (hattrs : n.attributes = f.opened.attributes)
    (hfs : n.fragments.Subperm (f.opened.fragments ++ [f.fragment hi])) : n.Sound cs P :=
  h.node hle hc.isBoundary hspan hattrs fun _ hmid hb => (h.complete hhi hle hmid hb).subperm hfs

/-- The frame of the next branch of a block. -/
theorem Frame.Sound.next {opened : Opened} {c : Cursor} (h : f.Sound cs P hi)
    (hhi : isBoundary cs hi = true) (hle : hi ≤ c.offset) (hc : c.On cs)
    (hattrs : opened.attributes = [])
    (hfs : opened.fragments.Subperm (f.opened.fragments ++ [f.fragment hi])) :
    (⟨opened, f.start, c.offset, []⟩ : Frame).Sound cs P c.offset where
  start := h.start
  contentStart := hc.isBoundary
  lt := by
    have := h.lt
    have := h.contentStart_le
    show f.start < c.offset
    omega
  shown := by simp [hattrs]
  head := by
    obtain ⟨mid, hhead, hmid, hb⟩ := h.head
    have := h.contentStart_le
    refine ⟨mid, ?_, ?_, (h.complete hhi hle hmid hb).subperm hfs⟩
    · simp only [hattrs]
      exact InOrder.nil hhead.le
    · show mid ≤ c.offset
      omega
  nodes := InOrder.nil (Nat.le_refl _)
  sound := by simp

end Leaving

namespace Reader

open Cursor

variable {r : Reader} {f : Frame} {n : Node}

/-- A node that has been read joins the innermost frame, and may complete blocks there. -/
theorem sound_deliver (hc : r.cursor.On cs) (hn : n.Sound cs P) (hle : n.span.stop ≤ r.cursor.offset)
    (h : Stacked cs P (Top cs P r.nodes r.raws) frames n.span.start) :
    (r.deliver n frames).Sound cs P := by
  induction frames generalizing r n with
  | nil => exact ⟨hc, (Top.cons h hn).mono hle⟩
  | cons f frames ih =>
    obtain ⟨hf, hframes⟩ := h
    unfold deliver
    split
    · next elseif test consequent hopened =>
      have hreach := reaches_ifNode r.cursor f.start elseif test consequent (some ⟨[n], n.span⟩)
      have hc' := hc.reaches hreach
      have hstop : n.span.stop ≤ _ := Nat.le_trans hle hreach.offset_le
      refine ih hc' ?_ (Nat.le_refl _) hframes
      have hcuts := hn.place.cuts
      have hlast : (⟨[n], n.span⟩ : Fragment).Sound cs P :=
        ⟨⟨hcuts, InOrder.single (Nat.le_refl _) hn.place.nonempty (Nat.le_refl _)⟩, by simpa using hn⟩
      refine hf.node (Nat.le_trans hcuts.le hstop) hc'.isBoundary rfl (by rw [hopened]; rfl) ?_
      intro mid hmid hb
      rw [hopened] at hb
      exact hb.snoc hlast (Nat.le_trans hmid hf.contentStart_le) hf.contentStart_le hstop
    · exact ⟨hc, (hf.cons hn).mono hle, hframes⟩

/-- A frame is left with its node. -/
theorem sound_leaveWith {c : Cursor} (h : Stacked cs P (Top cs P r.nodes r.raws) frames f.start)
    (hc : c.On cs) (hn : n.Sound cs P) (hspan : n.span = c.spanFrom f.start) :
    (r.leaveWith n c frames).Sound cs P := by
  refine sound_deliver hc hn ?_ ?_
  · rw [hspan]
    exact Nat.le_refl _
  · rw [hspan]
    exact h

section Leave

variable (hc : r.cursor.On cs) (hf : f.Sound cs P r.cursor.offset)
  (h : Stacked cs P (Top cs P r.nodes r.raws) frames f.start)

include hc hf h

theorem sound_continueWith {opened : Opened} {c : Cursor} (hreach : r.cursor.Reaches c)
    (hattrs : opened.attributes = [])
    (hfs : opened.fragments.Subperm (f.opened.fragments ++ [f.fragment r.cursor.offset])) :
    (r.continueWith f opened c frames).Sound cs P :=
  ⟨hc.reaches hreach, hf.next hc.isBoundary hreach.offset_le (hc.reaches hreach) hattrs hfs, h⟩

/-- A frame is left with a node that has the complete fragments and the one that was being read. -/
theorem sound_leaveWith_of_subperm {c : Cursor} (hreach : r.cursor.Reaches c)
    (hspan : n.span = c.spanFrom f.start) (hattrs : n.attributes = f.opened.attributes)
    (hfs : n.fragments.Subperm (f.opened.fragments ++ [f.fragment r.cursor.offset])) :
    (r.leaveWith n c frames).Sound cs P :=
  sound_leaveWith h (hc.reaches hreach)
    (hf.node_of_subperm hc.isBoundary hreach.offset_le (hc.reaches hreach) hspan hattrs hfs) hspan

/-- Leaving the innermost frame keeps the invariant. -/
theorem sound_leave : (r.leave f frames).Sound cs P := by
  rw [leave_eq]
  rcases hleave : leaving f.opened f.start (f.fragment r.cursor.offset) r.cursor with ⟨left, c⟩
  have hleaves := leaves_of_leaving hleave
  have hreach := hleaves.further.reaches
  cases left with
  | done n => exact sound_leaveWith_of_subperm hc hf h hreach hleaves.span hleaves.attributes hleaves.fragments
  | next opened => exact sound_continueWith hc hf h hreach hleaves.attributes_next hleaves.fragments
  | branch elseif test consequent test' =>
    -- the else-if branch starts where the continuation does, inside the frame of its block
    have hlt : r.cursor.offset < c.offset := hreach.offset_lt (hleaves.further.shorter (by simp))
    exact ⟨hc.reaches hreach, .opened hc hreach hlt rfl rfl,
      hf.next hc.isBoundary (Nat.le_refl _) hc rfl hleaves.fragments, h⟩

end Leave

/-! ### Steps -/

theorem deliver_of_chain {elseif : Bool} {test : Expression} {consequent : Fragment}
    (h : f.opened = .chain elseif test consequent) : r.deliver n (f :: frames) =
      deliver { r with cursor := (ifNode r.cursor f.start elseif test consequent (some ⟨[n], n.span⟩)).2 }
        (ifNode r.cursor f.start elseif test consequent (some ⟨[n], n.span⟩)).1 frames := by
  rw [deliver, h]

theorem deliver_of_not_chain (h : ∀ elseif test consequent, f.opened ≠ .chain elseif test consequent) :
    r.deliver n (f :: frames) = { r with frames := { f with nodes := n :: f.nodes } :: frames } := by
  rw [deliver]
  split
  · next hchain => exact absurd hchain (h _ _ _)
  · rfl

theorem reaches_readNode_found (r : Reader) : (Markup.readNode r.cursor).2.Reaches r.readNode.cursor := by
  unfold readNode
  dsimp only
  split
  · exact reaches_deliver { r with cursor := _ } _ _
  · exact .refl _
  · exact .refl _

theorem reaches_readNode (r : Reader) : r.cursor.Reaches r.readNode.cursor :=
  (Markup.reaches_readNode r.cursor).trans (reaches_readNode_found r)

theorem reaches_readTop (r : Reader) : r.cursor.Reaches r.readTop.cursor := by
  have hblock : ∀ name, r.cursor.Reaches (r.cursor.rawBlock name).cursor := fun name =>
    (reaches_moved_take _ _).trans (reaches_rawBlock r.cursor name)
  unfold readTop
  dsimp only
  split
  · unfold readScript
    dsimp only
    split <;> split <;> first | exact reaches_fault (hblock _) | exact hblock _
  · split
    · unfold readStyle
      dsimp only
      split
      · exact reaches_fault (hblock _)
      · exact hblock _
    · split
      · exact reaches_fault (reaches_skipStray ..)
      · split
        · exact reaches_fault (reaches_skipStray ..)
        · exact reaches_readNode r

/-- Every step reads on. -/
theorem reaches_step (r : Reader) : r.cursor.Reaches r.step.cursor := by
  unfold step
  split
  · exact reaches_readTop r
  · split
    · exact reaches_leave ..
    · exact reaches_readNode r

/-- Reading a node keeps the invariant. -/
theorem sound_readNode (h : r.Sound cs P) (hc : r.cursor.rest ≠ []) (hshown : TagShows P r.cursor) :
    r.readNode.Sound cs P := by
  have hfound := Markup.sound_readNode h.on hc hshown
  have hon := h.on.reaches (Markup.reaches_readNode r.cursor)
  unfold readNode
  dsimp only
  split
  · next n hn =>
    rw [hn] at hfound
    obtain ⟨hsound, hspan⟩ := hfound
    refine sound_deliver hon hsound ?_ ?_
    · rw [hspan]
      exact Nat.le_refl _
    · rw [hspan]
      exact h.stacked
  · exact ⟨hon, h.stacked.mono (Markup.reaches_readNode r.cursor).offset_le⟩
  · next f hf =>
    rw [hf] at hfound
    obtain ⟨hsound, hstart⟩ := hfound
    refine ⟨hon, hsound, ?_⟩
    rw [hstart]
    exact h.stacked

/-- The content of a raw block lies on boundaries, between the start and the end of the block. -/
theorem contentSpan_rawBlock {c : Cursor} (hc : c.On cs) (name : List Char) :
    (c.rawBlock name).contentSpan.Cuts cs ∧ c.offset ≤ (c.rawBlock name).contentSpan.start ∧
      (c.rawBlock name).contentSpan.stop ≤ (c.rawBlock name).cursor.offset := by
  have htag := (reaches_moved_take c (name.length + 1)).trans (reaches_attributes _)
  unfold rawBlock
  dsimp only
  split
  · next c' heat =>
    have hend := htag.trans (reaches_eat? heat).1
    exact ⟨(hc.reaches hend).cuts_point, hend.offset_le, Nat.le_refl _⟩
  · have hbody := htag.trans (reaches_expect _ ['>'])
    have hcontent := reaches_breakWhere
      ((c.moved (c.rest.take (name.length + 1)) (c.rest.drop (name.length + 1))).attributes.2.expect ['>'])
      (Text.startsWith ('<' :: '/' :: name))
    have hcuts := (hc.reaches hbody).cuts hcontent
    split
    · next c' heat =>
      have hend := (reaches_eat? heat).1.trans ((reaches_skipBlanks c').trans (reaches_expect _ ['>']))
      exact ⟨hcuts, hbody.offset_le, hend.offset_le⟩
    · exact ⟨hcuts, hbody.offset_le, Nat.le_refl _⟩

theorem reaches_rawBlock_start (c : Cursor) (name : List Char) :
    c.Reaches (c.rawBlock name).cursor :=
  (reaches_moved_take c _).trans (reaches_rawBlock c name)

theorem sound_rawBlock {c : Cursor} (hc : c.On cs) {name : List Char} (htag : c.atTag name = true) :
    Raw.Sound cs ((c.rawBlock name).cursor.spanFrom c.offset, (c.rawBlock name).contentSpan) := by
  have hreach := reaches_rawBlock_start c name
  obtain ⟨hcuts, hlo, hhi⟩ := contentSpan_rawBlock hc name
  exact ⟨hc.cuts hreach, hreach.offset_lt (length_of_atTag htag (reaches_rawBlock c name)), hcuts,
    hlo, hhi⟩

/-- A step that reads on and leaves nothing in the document. -/
theorem Sound.skip {c : Cursor} (h : r.Sound cs P) (hreach : r.cursor.Reaches c) :
    ({ r with cursor := c } : Reader).Sound cs P :=
  ⟨h.on.reaches hreach, h.stacked.mono hreach.offset_le⟩

theorem Sound.top (h : r.Sound cs P) (hframes : r.frames = []) : Top cs P r.nodes r.raws r.cursor.offset := by
  have := h.stacked
  rwa [hframes] at this

/-- A step that leaves a script or style in the document. -/
theorem Sound.keep {r' : Reader} {name : List Char} (h : r.Sound cs P) (hframes : r.frames = [])
    (htag : r.cursor.atTag name = true) (hcursor : r'.cursor = (r.cursor.rawBlock name).cursor)
    (hframes' : r'.frames = r.frames) (hnodes : r'.nodes = r.nodes)
    (hraws : ∀ s ∈ r'.raws, s = ((r.cursor.rawBlock name).cursor.spanFrom r.cursor.offset,
      (r.cursor.rawBlock name).contentSpan) ∨ s ∈ r.raws) : r'.Sound cs P := by
  refine ⟨?_, ?_⟩
  · rw [hcursor]
    exact h.on.reaches (reaches_rawBlock_start r.cursor name)
  · rw [hframes', hframes, hnodes, hcursor]
    exact (h.top hframes).add (sound_rawBlock h.on htag) hraws

theorem sound_readScript (h : r.Sound cs P) (hframes : r.frames = [])
    (htag : r.cursor.atTag "script".toList = true) : r.readScript.Sound cs P := by
  have hreach := reaches_rawBlock_start r.cursor "script".toList
  unfold readScript
  dsimp only
  split
  · split
    · exact h.skip (reaches_fault hreach)
    · refine h.keep hframes htag rfl rfl rfl fun s hs => ?_
      simp only [raws, rawSpans, List.map_append, List.mem_append] at hs ⊢
      rcases hs with (hs | hs) | hs
      · exact .inl (List.mem_singleton.1 hs)
      · exact .inr (.inl (.inr hs))
      · exact .inr (.inr hs)
  · split
    · exact h.skip (reaches_fault hreach)
    · refine h.keep hframes htag rfl rfl rfl fun s hs => ?_
      simp only [raws, rawSpans, List.map_append, List.mem_append] at hs ⊢
      rcases hs with (hs | hs) | hs
      · exact .inr (.inl (.inl hs))
      · exact .inl (List.mem_singleton.1 hs)
      · exact .inr (.inr hs)

theorem sound_readStyle (h : r.Sound cs P) (hframes : r.frames = [])
    (htag : r.cursor.atTag "style".toList = true) : r.readStyle.Sound cs P := by
  have hreach := reaches_rawBlock_start r.cursor "style".toList
  unfold readStyle
  dsimp only
  split
  · exact h.skip (reaches_fault hreach)
  · refine h.keep hframes htag rfl rfl rfl fun s hs => ?_
    simp only [raws, rawSpans, List.map_append, List.mem_append] at hs ⊢
    rcases hs with hs | hs
    · exact .inr (.inl hs)
    · exact .inl (List.mem_singleton.1 hs)

/-- The next step reads a node, and so does not take a script or a style or leave a fragment. -/
def readsNode (r : Reader) : Bool :=
  match r.frames with
  | [] => !(r.cursor.atTag "script".toList || r.cursor.atTag "style".toList
      || r.cursor.startsWith ['<', '/'] || r.cursor.startsWith ['{', ':'] || r.cursor.startsWith ['{', '/'])
  | _ :: _ => !r.cursor.endsFragment

theorem step_of_readsNode (h : r.readsNode = true) : r.step = r.readNode := by
  unfold readsNode at h
  unfold step
  split
  · next hframes =>
    rw [hframes] at h
    simp only [Bool.not_eq_true', Bool.or_eq_false_iff] at h
    obtain ⟨⟨⟨⟨hscript, hstyle⟩, hclosing⟩, hbranch⟩, hblock⟩ := h
    unfold readTop
    simp only [hscript, hstyle, hclosing, hbranch, hblock, Bool.or_self, Bool.false_eq_true, if_false]
  · next hframes =>
    rw [hframes] at h
    rw [if_neg (by simpa using h)]

theorem sound_readTop (h : r.Sound cs P) (hframes : r.frames = []) (hc : r.cursor.rest ≠ [])
    (hshown : r.readsNode = true → TagShows P r.cursor) : r.readTop.Sound cs P := by
  unfold readTop
  dsimp only
  split
  · next htag => exact sound_readScript h hframes htag
  · next hscript =>
    split
    · next htag => exact sound_readStyle h hframes htag
    · next hstyle =>
      split
      · exact h.skip (reaches_fault (reaches_skipStray ..))
      · next hclosing =>
        split
        · exact h.skip (reaches_fault (reaches_skipStray ..))
        · next hblock =>
          refine sound_readNode h hc (hshown ?_)
          simp_all [readsNode]

/-- A step before the end keeps the invariant. -/
theorem sound_step (h : r.Sound cs P) (hdone : r.isDone = false)
    (hshown : r.readsNode = true → TagShows P r.cursor) : r.step.Sound cs P := by
  unfold step
  split
  · next hframes =>
    refine sound_readTop h hframes (fun hc => ?_) hshown
    simp [isDone, hframes, atEnd, hc] at hdone
  · next f frames hframes =>
    split
    · have hstacked := h.stacked
      rw [hframes] at hstacked
      exact sound_leave h.on hstacked.1 hstacked.2
    · next hend =>
      refine sound_readNode h (fun hc => ?_) (hshown ?_)
      · exact hend (by simp [endsFragment, atEnd, hc])
      · simp [readsNode, hframes, hend]

/-- One step before the end. -/
def Moves (r r' : Reader) : Prop := r.isDone = false ∧ r' = r.step

/-- Steps lead from one state to another. -/
def Leads : Reader → Reader → Prop := Relation.ReflTransGen Moves

theorem Leads.refl (r : Reader) : r.Leads r := Relation.ReflTransGen.refl

theorem Leads.of_step {r' : Reader} (hdone : r.isDone = false) (h : r.step.Leads r') : r.Leads r' :=
  Relation.ReflTransGen.head ⟨hdone, rfl⟩ h

theorem Leads.reaches {r' : Reader} (h : r.Leads r') : r.cursor.Reaches r'.cursor := by
  induction h with
  | refl => exact .refl _
  | tail _ hmove ih =>
    rw [hmove.2]
    exact ih.trans (reaches_step _)

/-- All steps keep the invariant, and at the end nothing is open. -/
theorem sound_run (h : r.Sound cs P)
    (hshown : ∀ r', r.Leads r' → r'.readsNode = true → TagShows P r'.cursor) :
    r.run.Sound cs P ∧ r.run.frames = [] := by
  fun_induction run r with
  | case1 r hdone =>
    simp only [isDone, Bool.and_eq_true, List.isEmpty_iff] at hdone
    exact ⟨h, hdone.1⟩
  | case2 r hdone ih =>
    have hdone : r.isDone = false := by simpa using hdone
    exact ih (sound_step h hdone (hshown r (.refl r))) fun r' hr' => hshown r' (.of_step hdone hr')

end Reader

/-- A document lies well in a text. -/
structure Document.Sound (cs : List Char) (P : Attribute → Prop) (d : Document) : Prop where
  fragment : d.fragment.Sound cs P
  raws_sound : ∀ s ∈ d.raws, Raw.Sound cs s
  raws_apart : ∀ s ∈ d.raws, ∀ n ∈ d.fragment.nodes, s.1.Apart n.span

/-- The reader at the start of a text. -/
def Reader.ofText (text : String) : Reader := { cursor := .ofText text.toList }

/-- The document that is read from a text lies well in it. If all tags that the reader comes to show
attributes with a property, so do its elements. -/
theorem sound_read (text : String)
    (hshown : ∀ r, (Reader.ofText text).Leads r → r.readsNode = true → TagShows P r.cursor) :
    (read text).document.Sound text.toList P := by
  have hnone : (Reader.ofText text).raws = [] := rfl
  have hfirst : (Reader.ofText text).Sound text.toList P :=
    ⟨Cursor.on_ofText _, InOrder.nil (Nat.le_refl 0), by simp [Reader.ofText], by simp [hnone],
      by simp [hnone], by simp [hnone]⟩
  obtain ⟨hsound, hframes⟩ := Reader.sound_run hfirst hshown
  have hend := hsound.on.isBoundary
  have htop := (hsound.top hframes).mono (le_width_of_isBoundary hend)
  have hspan : (⟨0, width text.toList⟩ : Span).Cuts text.toList :=
    ⟨Nat.zero_le _, isBoundary_zero _, by simpa using isBoundary_width_append text.toList []⟩
  exact ⟨⟨⟨hspan, htop.inOrder⟩, fun n hn => htop.sound n (List.mem_reverse.1 hn)⟩, htop.raws_sound,
    fun s hs n hn => htop.raws_apart s hs n (List.mem_reverse.1 hn)⟩

/-- All attributes lie on boundaries of the text. -/
theorem sound_read_cuts (text : String) :
    (read text).document.Sound text.toList (fun a => a.span.Cuts text.toList) :=
  sound_read text fun _ hr _ => tagShows_cuts ((Cursor.on_ofText _).reaches hr.reaches)

end Restyle.Markup
