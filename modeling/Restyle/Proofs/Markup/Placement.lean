import Mathlib.Data.List.Perm.Subperm
import Restyle.Proofs.Source.Spans
import Restyle.Markup.Reader

/-! Where the parts of a markup document lie. A node that has been read is not empty, its attributes
follow one another at its head, and its fragments come after them, inside the node and apart from one
another; the nodes of a fragment follow one another inside it. Besides, all attributes may be known to
have some property. -/

namespace Restyle.Markup

open Text Restyle.Span

/-! ### Trees -/

/-- The attributes of a node that is written as a tag. -/
def Node.attributes : Node → List Attribute
  | .element _ _ attributes .. | .component _ _ attributes .. | .special _ _ _ attributes .. => attributes
  | _ => []

/-- What holds of a node apart from what is in its fragments. -/
structure Node.Local (cs : List Char) (P : Attribute → Prop) (n : Node) : Prop where
  cuts : n.span.Cuts cs
  nonempty : n.span.start < n.span.stop
  /-- The attributes follow one another, and all fragments come after them. -/
  head : ∃ mid, InOrder n.span.start (n.attributes.map Attribute.span) mid ∧ mid ≤ n.span.stop ∧
    ∀ f ∈ n.fragments, mid ≤ f.span.start
  shown : ∀ a ∈ n.attributes, P a
  inside : ∀ f ∈ n.fragments, n.span.Encloses f.span
  apart : n.fragments.Pairwise fun f g => f.span.Apart g.span

/-- What holds of a fragment apart from what is below its nodes. -/
structure Fragment.Local (cs : List Char) (f : Fragment) : Prop where
  cuts : f.span.Cuts cs
  nodes : InOrder f.span.start (f.nodes.map Node.span) f.span.stop

/-- The node lies well in the text, and so does everything below it. -/
inductive Node.Sound (cs : List Char) (P : Attribute → Prop) : Node → Prop where
  | mk {n : Node} : n.Local cs P → (∀ f ∈ n.fragments, f.Local cs) →
    (∀ f ∈ n.fragments, ∀ m ∈ f.nodes, Node.Sound cs P m) → Node.Sound cs P n

/-- The fragment lies well in the text, and so do all its nodes. -/
structure Fragment.Sound (cs : List Char) (P : Attribute → Prop) (f : Fragment) : Prop
    extends f.Local cs where
  sound : ∀ n ∈ f.nodes, n.Sound cs P

variable {cs : List Char} {P : Attribute → Prop}

theorem Node.Sound.place {n : Node} (h : n.Sound cs P) : n.Local cs P := by
  cases h with
  | mk h _ _ => exact h

theorem Node.Sound.of_mem {n : Node} (h : n.Sound cs P) {f : Fragment} (hf : f ∈ n.fragments) :
    f.Sound cs P := by
  cases h with
  | mk _ hlocal hbelow => exact ⟨hlocal f hf, hbelow f hf⟩

/-- Fragments between two offsets, no two of which share a byte. -/
structure Branches (cs : List Char) (P : Attribute → Prop) (lo : Nat) (fs : List Fragment) (hi : Nat) : Prop where
  sound : ∀ f ∈ fs, f.Sound cs P
  inside : ∀ f ∈ fs, lo ≤ f.span.start ∧ f.span.stop ≤ hi
  apart : fs.Pairwise fun f g => f.span.Apart g.span

namespace Branches

variable {lo mid hi : Nat} {fs fs' : List Fragment} {f : Fragment}

theorem nil (lo hi : Nat) : Branches cs P lo [] hi := ⟨by simp, by simp, List.Pairwise.nil⟩

/-- A fragment that begins behind all others. -/
theorem snoc (h : Branches cs P lo fs mid) (hf : f.Sound cs P) (hlo : lo ≤ f.span.start)
    (hmid : mid ≤ f.span.start) (hhi : f.span.stop ≤ hi) : Branches cs P lo (fs ++ [f]) hi where
  sound g hg := by
    rcases List.mem_append.1 hg with hg | hg
    · exact h.sound g hg
    · rwa [List.mem_singleton.1 hg]
  inside g hg := by
    have := hf.cuts.le
    rcases List.mem_append.1 hg with hg | hg
    · have := h.inside g hg
      omega
    · rw [List.mem_singleton.1 hg]
      exact ⟨hlo, hhi⟩
  apart := by
    refine List.pairwise_append.2 ⟨h.apart, List.pairwise_singleton .., fun g hg g' hg' => .inl ?_⟩
    have := (h.inside g hg).2
    rw [List.mem_singleton.1 hg']
    omega

theorem single (hf : f.Sound cs P) (hlo : lo ≤ f.span.start) (hhi : f.span.stop ≤ hi) :
    Branches cs P lo [f] hi := (nil lo lo).snoc hf hlo hlo hhi

theorem subperm (h : Branches cs P lo fs hi) (hfs : fs'.Subperm fs) : Branches cs P lo fs' hi where
  sound f hf := h.sound f (hfs.subset hf)
  inside f hf := h.inside f (hfs.subset hf)
  apart := by
    obtain ⟨fs'', hperm, hsub⟩ := hfs
    exact (hperm.pairwise_iff fun h => Apart.symm h).1 (h.apart.sublist hsub)

end Branches

/-- A node is sound if its attributes come first and its fragments after them. -/
theorem Node.Sound.of_branches {n : Node} (mid : Nat) (hcuts : n.span.Cuts cs)
    (hlt : n.span.start < n.span.stop)
    (hhead : InOrder n.span.start (n.attributes.map Attribute.span) mid)
    (hattrs : ∀ a ∈ n.attributes, P a) (hmid : mid ≤ n.span.stop)
    (hfs : Branches cs P mid n.fragments n.span.stop) : n.Sound cs P := by
  refine .mk ⟨hcuts, hlt, ⟨mid, hhead, hmid, fun f hf => (hfs.inside f hf).1⟩, hattrs, ?_, hfs.apart⟩
    (fun f hf => (hfs.sound f hf).toLocal) fun f hf => (hfs.sound f hf).sound
  intro f hf
  have := hfs.inside f hf
  exact ⟨Nat.le_trans hhead.le this.1, this.2⟩

/-- A node without attributes and fragments. -/
theorem Node.Sound.leaf {n : Node} (hcuts : n.span.Cuts cs) (hlt : n.span.start < n.span.stop)
    (hattrs : n.attributes = []) (hfs : n.fragments = []) : n.Sound cs P := by
  refine of_branches n.span.start hcuts hlt ?_ ?_ hcuts.le ?_
  · rw [hattrs]
    exact InOrder.nil (Nat.le_refl _)
  · rw [hattrs]
    simp
  · rw [hfs]
    exact Branches.nil ..

/-! ### Cursors -/

namespace Cursor

/-- The cursor stands in the text, and its offset counts what is before it. -/
def On (cs : List Char) (c : Cursor) : Prop := ∃ before, cs = before ++ c.rest ∧ c.offset = width before

theorem on_ofText (cs : List Char) : (ofText cs).On cs := ⟨[], rfl, rfl⟩

theorem On.reaches {c c' : Cursor} (h : c.On cs) (h' : c.Reaches c') : c'.On cs := by
  obtain ⟨before, hcs, hoffset⟩ := h
  obtain ⟨read, hrest, hoffset'⟩ := h'
  exact ⟨before ++ read, by simp [hcs, hrest], by simp [hoffset', hoffset]⟩

theorem On.isBoundary {c : Cursor} (h : c.On cs) : isBoundary cs c.offset = true := by
  obtain ⟨before, hcs, hoffset⟩ := h
  exact isBoundary_iff.2 ⟨before, c.rest, hcs, hoffset.symm⟩

theorem Reaches.offset_le {c c' : Cursor} (h : c.Reaches c') : c.offset ≤ c'.offset := by
  obtain ⟨read, -, hoffset⟩ := h
  omega

theorem Reaches.offset_lt {c c' : Cursor} (h : c.Reaches c') (hlt : c'.rest.length < c.rest.length) :
    c.offset < c'.offset := by
  obtain ⟨read, hrest, hoffset⟩ := h
  have := length_le_width read
  rw [hrest, List.length_append] at hlt
  omega

theorem offset_lt_moved {c : Cursor} {read : List Char} (h : read ≠ []) (rest : List Char) :
    c.offset < (c.moved read rest).offset := by
  have := length_le_width read
  have := List.length_pos_iff.2 h
  show c.offset < c.offset + width read
  omega

theorem On.cuts {c c' : Cursor} (h : c.On cs) (h' : c.Reaches c') : (c'.spanFrom c.offset).Cuts cs :=
  ⟨h'.offset_le, h.isBoundary, (h.reaches h').isBoundary⟩

theorem On.cuts_point {c : Cursor} (h : c.On cs) : (Span.point c.offset).Cuts cs := h.cuts (.refl c)

/-! ### Attributes -/

theorem span_bracedAttribute {span : Span} {inner : Expression} {a : Attribute}
    (h : bracedAttribute span inner = some a) : a.span = span := by
  unfold bracedAttribute at h
  dsimp only at h
  split at h
  · cases h
    rfl
  · cases h
    rfl
  · split at h
    · cases h
    · cases h
      rfl

theorem span_namedAttribute (span : Span) (name : List Char) (value : AttributeValue) :
    (namedAttribute span name value).span = span := by
  unfold namedAttribute
  dsimp only
  split
  · rfl
  · split <;> rfl

/-- An attribute has the span that was read for it. -/
theorem span_attribute? {c : Cursor} {a : Attribute} :
    c.attribute?.1 = some a → a.span = c.attribute?.2.spanFrom c.offset := by
  unfold attribute?
  split
  · rintro ⟨⟩
  · split
    · dsimp only
      split
      · rintro ⟨⟩
      · split
        · next hbraced =>
          rintro ⟨⟩
          exact span_bracedAttribute hbraced
        · rintro ⟨⟩
    · dsimp only
      split
      · rintro ⟨⟩
      · split <;> rintro ⟨⟩ <;> exact span_namedAttribute ..

/-- The attributes of a tag follow one another. -/
theorem inOrder_attributes (c : Cursor) :
    InOrder c.offset (c.attributes.1.map Attribute.span) c.attributes.2.offset := by
  fun_induction attributes c with
  | case1 c h => exact InOrder.nil (reaches_skipBlanks c).offset_le
  | case2 c h first more ih =>
    have hblanks := (reaches_skipBlanks c).offset_le
    have hreach := reaches_attribute? c.skipBlanks
    rw [List.map_append]
    cases hfirst : c.skipBlanks.attribute?.1 with
    | none =>
      have hle : c.offset ≤ first.2.offset := Nat.le_trans hblanks hreach.offset_le
      simpa [first, hfirst] using ih.mono_left hle
    | some a =>
      have hlt := hreach.offset_lt (length_attribute? ?_)
      · have hspan := span_attribute? hfirst
        have hone : InOrder c.offset [a.span] first.2.offset :=
          InOrder.single (by rw [hspan]; exact hblanks) (by rw [hspan]; exact hlt)
            (by rw [hspan]; exact Nat.le_refl _)
        simpa [first, hfirst] using hone.append ih
      · intro hnil
        exact h (by simp [endsAttributes, atEnd, hnil])

theorem On.attributes_cut {c : Cursor} (h : c.On cs) :
    ∀ a ∈ c.attributes.1, a.span.Cuts cs := by
  fun_induction attributes c with
  | case1 c _ => simp
  | case2 c hend first more ih =>
    have hblanks := h.reaches (reaches_skipBlanks c)
    have hreach := reaches_attribute? c.skipBlanks
    intro a ha
    rcases List.mem_append.1 ha with ha | ha
    · rw [span_attribute? (Option.mem_toList.1 ha)]
      exact hblanks.cuts hreach
    · exact ih (hblanks.reaches hreach) a ha

end Cursor

end Restyle.Markup
