import Restyle.Proofs.Markup.Findings
import Restyle.Proofs.Markup.Placement

/-! Nodes and frames that are read lie well in the text: what reading one node finds is sound, whether
the node was read whole or its frame was opened. -/

namespace Restyle.Markup

open Text Restyle.Span

variable {cs : List Char} {P : Attribute → Prop}

/-! ### Frames -/

/-- The attributes of the tag that opened the construct. -/
def Opened.attributes : Opened → List Attribute
  | .element _ attributes => attributes
  | _ => []

def AwaitBranches.fragments (b : AwaitBranches) : List Fragment :=
  b.pending.toList ++ b.resolved.toList ++ b.failed.toList

/-- The fragments of the construct that are complete. -/
def Opened.fragments : Opened → List Fragment
  | .alternate _ _ first | .chain _ _ first => [first]
  | .eachFallback _ body => [body]
  | .awaitBranch _ branches _ => branches.fragments
  | _ => []

/-- The frame lies well in the text up to an offset. -/
structure Frame.Sound (cs : List Char) (P : Attribute → Prop) (f : Frame) (hi : Nat) : Prop where
  start : isBoundary cs f.start = true
  contentStart : isBoundary cs f.contentStart = true
  lt : f.start < f.contentStart
  shown : ∀ a ∈ f.opened.attributes, P a
  /-- The attributes come first, then the complete fragments, then the one that is being read. -/
  head : ∃ mid, InOrder f.start (f.opened.attributes.map Attribute.span) mid ∧ mid ≤ f.contentStart ∧
    Branches cs P mid f.opened.fragments f.contentStart
  nodes : InOrder f.contentStart (f.nodes.reverse.map Node.span) hi
  sound : ∀ n ∈ f.nodes, n.Sound cs P

namespace Frame.Sound

variable {f : Frame} {hi : Nat}

theorem contentStart_le (h : f.Sound cs P hi) : f.contentStart ≤ hi := h.nodes.le

theorem mono {hi' : Nat} (h : f.Sound cs P hi) (hle : hi ≤ hi') : f.Sound cs P hi' :=
  { h with nodes := h.nodes.mono_right hle }

/-- One more node. -/
theorem cons {n : Node} (h : f.Sound cs P n.span.start) (hn : n.Sound cs P) :
    ({ f with nodes := n :: f.nodes } : Frame).Sound cs P n.span.stop :=
  { h with
    nodes := by
      have hone := InOrder.single (Nat.le_refl _) hn.place.nonempty (Nat.le_refl _)
      simpa using h.nodes.append hone
    sound := by
      intro m hm
      rcases List.mem_cons.1 hm with rfl | hm
      · exact hn
      · exact h.sound m hm }

theorem fragment (h : f.Sound cs P hi) (hhi : isBoundary cs hi = true) :
    (f.fragment hi).Sound cs P where
  cuts := ⟨h.contentStart_le, h.contentStart, hhi⟩
  nodes := h.nodes
  sound n hn := h.sound n (List.mem_reverse.1 hn)

/-- A node made of a frame is sound if its fragments are in place. -/
theorem node {n : Node} {stop : Nat} (h : f.Sound cs P hi) (hhi : hi ≤ stop)
    (hstop : isBoundary cs stop = true) (hspan : n.span = ⟨f.start, stop⟩)
    (hattrs : n.attributes = f.opened.attributes)
    (hfs : ∀ mid ≤ f.contentStart, Branches cs P mid f.opened.fragments f.contentStart →
      Branches cs P mid n.fragments stop) : n.Sound cs P := by
  obtain ⟨mid, hhead, hmid, hbranches⟩ := h.head
  have hle := h.contentStart_le
  have hlt := h.lt
  refine .of_branches mid ?_ ?_ ?_ ?_ ?_ ?_
  · rw [hspan]
    exact ⟨by dsimp only; omega, h.start, hstop⟩
  · rw [hspan]
    dsimp only
    omega
  · rw [hspan, hattrs]
    exact hhead
  · rw [hattrs]
    exact h.shown
  · rw [hspan]
    dsimp only
    omega
  · rw [hspan]
    exact hfs mid hmid hbranches

end Frame.Sound

/-! ### What a node leaves -/

/-- What was found from an offset up to a cursor lies well in the text. -/
def Found.Sound (cs : List Char) (P : Attribute → Prop) (start : Nat) (c : Cursor) : Found → Prop
  | .node n => n.Sound cs P ∧ n.span = c.spanFrom start
  | .nothing => True
  | .opened f => f.Sound cs P c.offset ∧ f.start = start

theorem Begins.attributes {keyword : String} {opened : Expression → Opened} (h : Begins keyword opened)
    (e : Expression) : (opened e).attributes = [] := by
  cases h <;> rfl

theorem Begins.fragments {keyword : String} {opened : Expression → Opened} (h : Begins keyword opened)
    (e : Expression) : (opened e).fragments = [] := by
  cases h <;> rfl

section Leaves

variable {c c' : Cursor}

theorem Found.Sound.leaf {n : Node} (h : c.On cs) (hc : c.Reaches c') (hlt : c.offset < c'.offset)
    (hspan : n.span = c'.spanFrom c.offset) (hattrs : n.attributes = []) (hfs : n.fragments = []) :
    (Found.node n).Sound cs P c.offset c' := by
  refine ⟨.leaf ?_ ?_ hattrs hfs, hspan⟩
  · rw [hspan]
    exact h.cuts hc
  · rw [hspan]
    exact hlt

/-- A frame that has just been opened. -/
theorem Frame.Sound.opened {opened : Opened} (h : c.On cs) (hc : c.Reaches c') (hlt : c.offset < c'.offset)
    (hattrs : opened.attributes = []) (hfs : opened.fragments = []) :
    (⟨opened, c.offset, c'.offset, []⟩ : Frame).Sound cs P c'.offset where
  start := h.isBoundary
  contentStart := (h.reaches hc).isBoundary
  lt := hlt
  shown := by simp [hattrs]
  head := by
    refine ⟨c.offset, ?_, hc.offset_le, ?_⟩
    · simp only [hattrs]
      exact InOrder.nil (Nat.le_refl _)
    · simp only [hfs]
      exact Branches.nil ..
  nodes := InOrder.nil (Nat.le_refl _)
  sound := by simp

end Leaves

/-! ### Elements -/

section Elements

open Cursor

variable {c : Cursor} {start : Nat}

theorem attributes_elementNode (c : Cursor) (start : Nat) (name : String) (attributes : List Attribute)
    (content : Fragment) (selfClosing : Bool) :
    (elementNode c start name attributes content selfClosing).1.attributes = attributes :=
  elementNode_cases (P := fun n => n.attributes = attributes) rfl rfl fun _ => rfl

theorem fragments_elementNode (c : Cursor) (start : Nat) (name : String) (attributes : List Attribute)
    (content : Fragment) (selfClosing : Bool) :
    (elementNode c start name attributes content selfClosing).1.fragments = [content] :=
  elementNode_cases (P := fun n => n.fragments = [content]) rfl rfl fun _ => rfl

theorem span_elementNode (c : Cursor) (start : Nat) (name : String) (attributes : List Attribute)
    (content : Fragment) (selfClosing : Bool) :
    (elementNode c start name attributes content selfClosing).1.span = c.spanFrom start :=
  elementNode_cases (P := fun n => n.span = c.spanFrom start) rfl rfl fun _ => rfl

theorem offset_elementNode (c : Cursor) (start : Nat) (name : String) (attributes : List Attribute)
    (content : Fragment) (selfClosing : Bool) :
    (elementNode c start name attributes content selfClosing).2.offset = c.offset := by
  unfold elementNode
  dsimp only
  split
  · rfl
  · split <;> rfl

/-- An opening tag that has been read from an offset on. -/
structure OpeningTag.Sound (cs : List Char) (P : Attribute → Prop) (start : Nat) (t : OpeningTag) : Prop where
  on : t.cursor.On cs
  cut : isBoundary cs start = true
  lt : start < t.cursor.offset
  shown : ∀ a ∈ t.attributes, P a
  attributes : InOrder start (t.attributes.map Attribute.span) t.cursor.offset

/-- An element opens here. -/
def Cursor.AtElement (c : Cursor) : Prop := ∃ d rest, c.rest = '<' :: d :: rest ∧ d.isAlpha = true

/-- The attributes of the tag at a cursor, if one stands there, have the property. -/
def TagShows (P : Attribute → Prop) (c : Cursor) : Prop :=
  c.AtElement → ∀ a ∈ (readOpeningTag c).attributes, P a

theorem tagShows_cuts (h : c.On cs) : TagShows (fun a => a.span.Cuts cs) c := by
  intro _
  exact ((h.reaches (reaches_moved_take c 1)).reaches (reaches_takeWhile _ _)).attributes_cut

theorem sound_readOpeningTag (h : c.On cs) (hc : c.rest ≠ [])
    (hshown : ∀ a ∈ (readOpeningTag c).attributes, P a) :
    (readOpeningTag c).Sound cs P c.offset := by
  have hone := reaches_moved_take c 1
  have hname := reaches_takeWhile (c.moved (c.rest.take 1) (c.rest.drop 1)) (!endsTagName ·)
  have htag := (h.reaches hone).reaches hname
  refine ⟨htag.reaches (reaches_attributes _), h.isBoundary, ?_, hshown, ?_⟩
  · exact (hone.trans (reaches_readOpeningTag c)).offset_lt (length_of_moved hc (reaches_readOpeningTag c))
  · exact (inOrder_attributes _).mono_left (hone.trans hname).offset_le

theorem sound_empty (h : c.On cs) : (⟨[], .point c.offset⟩ : Fragment).Sound cs P where
  cuts := h.cuts_point
  nodes := InOrder.nil (Nat.le_refl _)
  sound := by simp

/-- An element that is read whole. -/
theorem sound_elementNode {t : OpeningTag} {content : Fragment} {c' : Cursor} (h : t.Sound cs P start)
    (hcontent : content.Sound cs P) (hlo : t.cursor.offset ≤ content.span.start)
    (hhi : content.span.stop ≤ c'.offset) (hc : t.cursor.Reaches c') (selfClosing : Bool) :
    (Found.node (elementNode c' start t.name t.attributes content selfClosing).1).Sound cs P start
      (elementNode c' start t.name t.attributes content selfClosing).2 := by
  have hle := hc.offset_le
  have hlt := h.lt
  have hspan := span_elementNode c' start t.name t.attributes content selfClosing
  refine ⟨.of_branches t.cursor.offset ?_ ?_ ?_ ?_ ?_ ?_, ?_⟩
  · rw [hspan]
    exact ⟨by dsimp only [spanFrom]; omega, h.cut, (h.on.reaches hc).isBoundary⟩
  · rw [hspan]
    dsimp only [spanFrom]
    omega
  · rw [hspan, attributes_elementNode]
    exact h.attributes
  · rw [attributes_elementNode]
    exact h.shown
  · rw [hspan]
    exact hle
  · rw [hspan, fragments_elementNode]
    exact .single hcontent hlo hhi
  · rw [hspan]
    simp only [spanFrom, offset_elementNode]

/-- Text and expressions that have been read between two cursors. -/
structure Reads (cs : List Char) (P : Attribute → Prop) (c c' : Cursor) (nodes : List Node) : Prop where
  inOrder : InOrder c.offset (nodes.map Node.span) c'.offset
  sound : ∀ n ∈ nodes, n.Sound cs P

theorem Reads.nil {c c' : Cursor} (hc : c.Reaches c') : Reads cs P c c' [] :=
  ⟨InOrder.nil hc.offset_le, by simp⟩

/-- One more node in front, which has neither attributes nor fragments. -/
theorem Reads.cons {c c₁ c' : Cursor} {n : Node} {nodes : List Node} (h : c.On cs) (hc : c.Reaches c₁)
    (hlt : c.offset < c₁.offset) (hspan : n.span = c₁.spanFrom c.offset) (hattrs : n.attributes = [])
    (hfs : n.fragments = []) (hr : Reads cs P c₁ c' nodes) : Reads cs P c c' (n :: nodes) where
  inOrder := by
    rw [List.map_cons, hspan]
    exact ⟨Nat.le_refl _, hlt, hr.inOrder⟩
  sound m hm := by
    rcases List.mem_cons.1 hm with rfl | hm
    · exact .leaf (hspan ▸ h.cuts hc) (by rw [hspan]; exact hlt) hattrs hfs
    · exact hr.sound m hm

theorem Reads.fragment {c c' : Cursor} {nodes : List Node} (h : c.On cs) (hc : c.Reaches c')
    (hr : Reads cs P c c' nodes) : (⟨nodes, c'.spanFrom c.offset⟩ : Fragment).Sound cs P :=
  ⟨⟨h.cuts hc, hr.inOrder⟩, hr.sound⟩

theorem reads_textNodes (h : c.On cs) (closing : List Char) :
    Reads cs P c (c.textNodes closing).2 (c.textNodes closing).1 := by
  fun_induction textNodes closing c with
  | case1 c hc => exact .nil (.refl c)
  | case2 c d ds hc hclosing => exact .nil (.refl c)
  | case3 c ds hc hclosing inside more he ih =>
    have hinside := (reaches_moved_one hc).trans (reaches_braced (c.moved ['{'] ds))
    have ih := ih (h.reaches hinside)
    exact ⟨ih.inOrder.mono_left hinside.offset_le, ih.sound⟩
  | case4 c ds e hc hclosing inside more he ih =>
    have hbraced := reaches_braced (c.moved ['{'] ds)
    have hinside := (reaches_moved_one hc).trans hbraced
    have hlt := Nat.lt_of_lt_of_le (offset_lt_moved (by simp) ds) hbraced.offset_le
    exact .cons h hinside hlt rfl rfl rfl (ih (h.reaches hinside))
  | case5 c d ds hc hclosing hbrace text more ih =>
    have htext := reaches_breakWhere c fun cs => cs.head? == some '{' || Text.startsWith closing cs
    have hlt := htext.offset_lt (length_breakWhere hc (by simp [hclosing, hbrace]))
    exact .cons h htext hlt rfl rfl rfl (ih (h.reaches htext))

theorem reads_rawContent (h : c.On cs) (name : String) :
    Reads cs P c (c.rawContent name).2 (c.rawContent name).1.nodes := by
  have htext := reaches_rawContent c name
  unfold rawContent
  dsimp only
  split
  · exact .nil htext
  · next hne =>
    refine .cons h htext (offset_lt_moved ?_ _) rfl rfl rfl (.nil (.refl _))
    exact fun he => hne (List.isEmpty_iff.2 he)

/-- What an opening tag begins lies well in the text. -/
theorem OpeningTag.Ends.sound {t : OpeningTag} {found : Found} {c' : Cursor} (hends : t.Ends start found c')
    (h : t.Sound cs P start) : found.Sound cs P start c' := by
  have hclosed {c c₁ : Cursor} {nodes : List Node} (hopen : t.cursor.eat? ['>'] = some c) (hread : c.Reaches c₁)
      (hreads : Reads cs P c c₁ nodes) :
      (Found.node (elementNode (c₁.closeTag t.name start) start t.name t.attributes ⟨nodes, c₁.spanFrom c.offset⟩
        false).1).Sound cs P start (elementNode (c₁.closeTag t.name start) start t.name t.attributes
        ⟨nodes, c₁.spanFrom c.offset⟩ false).2 := by
    have hc := (reaches_eat? hopen).1
    have hclose := reaches_closeTag c₁ t.name start
    exact sound_elementNode h (hreads.fragment (h.on.reaches hc) hread) hc.offset_le hclose.offset_le
      ((hc.trans hread).trans hclose) false
  cases hends with
  | selfClosing hself =>
    have hc := (reaches_eat? hself).1
    exact sound_elementNode h (sound_empty (h.on.reaches hc)) hc.offset_le (Nat.le_refl _) hc true
  | unclosed _ hfault =>
    have hc : t.cursor.Reaches (t.cursor.fault (.unclosedTag t.name) (t.cursor.spanFrom start)) :=
      reaches_fault (.refl _)
    subst hfault
    exact sound_elementNode h (sound_empty h.on) (Nat.le_refl _) hc.offset_le hc false
  | @raw c _ hopen _ hclose =>
    subst hclose
    exact hclosed hopen (reaches_rawContent c t.name) (reads_rawContent (h.on.reaches (reaches_eat? hopen).1) t.name)
  | @text c _ hopen _ hclose =>
    subst hclose
    exact hclosed hopen (reaches_textContent c t.name) (reads_textNodes (h.on.reaches (reaches_eat? hopen).1) _)
  | void hopen =>
    have hc := (reaches_eat? hopen).1
    exact sound_elementNode h (sound_empty h.on) (Nat.le_refl _) hc.offset_le hc false
  | opened hopen =>
    have hc := (reaches_eat? hopen).1
    refine ⟨⟨h.cut, (h.on.reaches hc).isBoundary, ?_, h.shown, ?_, InOrder.nil (Nat.le_refl _), ?_⟩, rfl⟩
    · exact Nat.lt_of_lt_of_le h.lt hc.offset_le
    · exact ⟨t.cursor.offset, h.attributes, hc.offset_le, Branches.nil ..⟩
    · simp

theorem Finds.sound {found : Found} {c' : Cursor} (hfinds : Finds c found c') (h : c.On cs) (hc : c.rest ≠ [])
    (hreach : c.Reaches c') (hlt : c.offset < c'.offset) (hshown : TagShows P c) : found.Sound cs P c.offset c' := by
  cases hfinds with
  | comment | unclosedComment | tag | expression | text => exact .leaf h hreach hlt rfl rfl rfl
  | unclosed | unknown | noExpression => trivial
  | block _ _ _ hbegins => exact ⟨.opened h hreach hlt (hbegins.attributes _) (hbegins.fragments _), rfl⟩
  | element hrest hd hends => exact hends.sound (sound_readOpeningTag h hc (hshown ⟨_, _, hrest, hd⟩))

/-- What reading a node finds lies well in the text. -/
theorem sound_readNode (h : c.On cs) (hc : c.rest ≠ []) (hshown : TagShows P c) :
    (readNode c).1.Sound cs P c.offset (readNode c).2 :=
  (finds_readNode c).sound h hc (reaches_readNode c) ((reaches_readNode c).offset_lt (length_readNode hc)) hshown

end Elements

end Restyle.Markup
