import Restyle.Proofs.Markup.Branches
import Restyle.Proofs.Markup.Contents
import Restyle.Proofs.Markup.Preorder

/-! The order in which the walk shows the elements of a document. Nodes of a fragment stand in the order of the
text, and the first branch of a block stands before all others. But the branches of an await block that tags go
on to are shown in the order of their kinds, whichever of them was written first. So the elements are in the
order of the text if and only if no await block has its last two branches the other way round. -/

namespace Restyle.Markup

open Text Restyle.Span

/-- The branch for a failure stands before the one for a result, and there is an element in each of them. -/
inductive Node.Swaps (n : Node) : Prop where
  | mk {resolved failed : Fragment} : n.branch? .resolved = some resolved → n.branch? .failed = some failed →
    failed.span.stop ≤ resolved.span.start → resolved.elements ≠ [] → failed.elements ≠ [] → n.Swaps

/-! ### The places of branches -/

section Branches

variable {cs : List Char} {branches : List Branch} {head : Head} {n : Node} {f g : Fragment} {kind kind' : BranchKind}

theorem Lined.le_of_mem {lo hi : Nat} (h : Lined cs lo branches hi) : ∀ b ∈ branches, lo ≤ b.content.span.start := by
  induction branches generalizing lo with
  | nil => simp
  | cons b branches ih =>
    obtain ⟨htag, hle, hrest⟩ := h
    have hlo : lo ≤ b.content.span.start := by
      rw [(slice?_eq_some_iff.1 htag).2]
      exact Nat.le_add_right ..
    intro b' hb'
    rcases List.mem_cons.1 hb' with rfl | hb'
    · exact hlo
    · exact (hlo.trans hle).trans (ih hrest b' hb')

theorem Lined.pairwise {lo hi : Nat} (h : Lined cs lo branches hi) :
    branches.Pairwise fun b b' => b.content.span.stop ≤ b'.content.span.start := by
  induction branches generalizing lo with
  | nil => exact List.Pairwise.nil
  | cons b branches ih => exact List.pairwise_cons.2 ⟨h.2.2.le_of_mem, ih h.2.2⟩

/-- A branch that no tag goes on to stands before all others. -/
theorem Node.Spelled.stop_le_start (h : n.Spelled cs head branches) (hkind : kind.keyword? = none)
    (hne : kind' ≠ kind) (hf : n.branch? kind = some f) (hg : n.branch? kind' = some g) :
    f.span.stop ≤ g.span.start := by
  obtain ⟨hrow, -, -⟩ := h
  rw [hrow.kept] at hf hg
  obtain ⟨b, hb, rfl, rfl⟩ := exists_of_latest hf
  obtain ⟨b', hb', rfl, rfl⟩ := exists_of_latest hg
  have hpairwise := hrow.lined.pairwise
  cases hrow.begins with
  | mk _ _ hmore =>
    rcases List.mem_cons.1 hb with rfl | hb
    · rcases List.mem_cons.1 hb' with rfl | hb'
      · exact absurd rfl hne
      · exact List.rel_of_pairwise_cons hpairwise hb'
    · exact absurd hkind (hmore b hb).keyword?_ne_none

/-- The branches for a result and for a failure, in this order. -/
theorem Node.sublist_fragments (hf : n.branch? .resolved = some f) (hg : n.branch? .failed = some g) :
    [f, g].Sublist n.fragments := by
  cases n with
  | awaitBlock span header pending resolved failed =>
    cases hf
    cases hg
    rw [Node.fragments, List.append_assoc]
    exact List.sublist_append_right ..
  | _ => cases hf

end Branches

/-! ### One element before another -/

/-- The first element starts before the second one, and all its attributes are before that. -/
structure ElementView.Before (x y : ElementView) : Prop where
  starts : x.span.start < y.span.start
  attributes : ∀ a ∈ x.attributes, a.span.stop ≤ y.span.start

/-- The element is inside a span with all its attributes. -/
structure ElementView.Within (s : Span) (e : ElementView) : Prop where
  encloses : s.Encloses e.span
  nonempty : e.span.start < e.span.stop
  attributes : ∀ a ∈ e.attributes, e.span.Encloses a.span

namespace ElementView

variable {x y : ElementView} {s t : Span}

theorem Within.mono (h : x.Within t) (hst : s.Encloses t) : x.Within s := { h with encloses := hst.trans h.encloses }

theorem Within.before (hx : x.Within s) (hy : y.Within t) (h : s.stop ≤ t.start) : x.Before y where
  starts := by
    have hnonempty := hx.nonempty
    have hstop := hx.encloses.2
    have hstart := hy.encloses.1
    omega
  attributes a ha := by
    have hattribute := (hx.attributes a ha).2
    have hstop := hx.encloses.2
    have hstart := hy.encloses.1
    omega

end ElementView

section Elements

variable {cs : List Char} {P : Attribute → Prop} {n : Node} {f : Fragment} {e : ElementView}

theorem Node.span_of_element? (h : n.element? = some e) : e.span = n.span := by
  obtain ⟨content, selfClosing, rfl⟩ | ⟨content, rfl⟩ := Node.element?_eq_some_iff.1 h <;> rfl

theorem Node.Sound.within_element? (h : n.Sound cs P) (he : n.element? = some e) : e.Within n.span := by
  obtain ⟨mid, hhead, hmid, -⟩ := h.place.head
  rw [← n.span_of_element? he] at hhead hmid ⊢
  refine ⟨⟨Nat.le_refl _, Nat.le_refl _⟩, ?_, fun a ha => ?_⟩
  · rw [n.span_of_element? he]
    exact h.place.nonempty
  · rw [Node.attributes_of_element? he] at ha
    have hin := hhead.of_mem (List.mem_map_of_mem ha)
    exact ⟨hin.1, hin.2.2.trans hmid⟩

theorem Node.Sound.within_elements (h : n.Sound cs P) : ∀ e ∈ n.elements, e.Within n.span := by
  induction h with
  | mk hplace hlocal hbelow ih =>
    intro e he
    rcases List.mem_append.1 he with he | he
    · exact (Node.Sound.mk hplace hlocal hbelow).within_element? (Option.mem_toList.1 he)
    · obtain ⟨f, hf, he⟩ := List.mem_flatMap.1 he
      rw [Fragment.elements, walk_eq_flatMap] at he
      obtain ⟨m, hm, he⟩ := List.mem_flatMap.1 he
      have hin := (hlocal f hf).nodes.of_mem (List.mem_map_of_mem hm)
      exact (ih f hf m hm e he).mono ((hplace.inside f hf).trans ⟨hin.1, hin.2.2⟩)

theorem Fragment.Sound.within_elements (h : f.Sound cs P) : ∀ e ∈ f.elements, e.Within f.span := by
  rw [Fragment.elements, walk_eq_flatMap]
  intro e he
  obtain ⟨m, hm, he⟩ := List.mem_flatMap.1 he
  have hin := h.nodes.of_mem (List.mem_map_of_mem hm)
  exact ((h.sound m hm).within_elements e he).mono ⟨hin.1, hin.2.2⟩

/-- An element comes before those below it. -/
theorem Node.Sound.before_of_fragment (h : n.Sound cs P) (hlater : ∀ f ∈ n.fragments, n.span.start < f.span.start)
    (he : n.element? = some e) (hf : f ∈ n.fragments) : ∀ x ∈ f.elements, e.Before x := by
  intro x hx
  have hstart := ((h.of_mem hf).within_elements x hx).encloses.1
  obtain ⟨mid, hhead, -, hmid⟩ := h.place.head
  refine ⟨?_, fun a ha => ?_⟩
  · rw [n.span_of_element? he]
    exact Nat.lt_of_lt_of_le (hlater f hf) hstart
  · rw [Node.attributes_of_element? he] at ha
    exact ((hhead.of_mem (List.mem_map_of_mem ha)).2.2.trans (hmid f hf)).trans hstart

end Elements

/-! ### Elements in order -/

/-- A node that lies well in a text and is written as it should. -/
structure Node.Regular (cs : List Char) (n : Node) : Prop where
  sound : ∃ P, n.Sound cs P
  later : ∀ f ∈ n.fragments, n.span.start < f.span.start
  written : n.Written cs

section Order

-- any relation that one element has to a later one, and that tells which of them starts first
variable {R : ElementView → ElementView → Prop} (hbefore : ∀ {x y : ElementView}, x.Before y → R x y)
  (hstarts : ∀ {x y : ElementView}, R x y → x.span.start < y.span.start) {cs : List Char} {n : Node}

include hbefore in
theorem Node.Regular.ordered_of_le (h : n.Regular cs) {f g : Fragment} (hf : f ∈ n.fragments) (hg : g ∈ n.fragments)
    (hle : f.span.stop ≤ g.span.start) : ∀ x ∈ f.elements, ∀ y ∈ g.elements, R x y := by
  obtain ⟨P, hsound⟩ := h.sound
  exact fun x hx y hy =>
    hbefore (((hsound.of_mem hf).within_elements x hx).before ((hsound.of_mem hg).within_elements y hy) hle)

include hbefore in
/-- A branch that no tag goes on to has its elements before those of another branch. -/
theorem Node.Regular.ordered_first (h : n.Regular cs) {head : Head} (hhead : n.head? = some head)
    (kind kind' : BranchKind) {f g : Fragment} (hkind : kind.keyword? = none) (hne : kind' ≠ kind)
    (hf : n.branch? kind = some f) (hg : n.branch? kind' = some g) : ∀ x ∈ f.elements, ∀ y ∈ g.elements, R x y := by
  obtain ⟨branches, hspelled⟩ := h.written head hhead
  have hmem : ∀ {kind : BranchKind} {f : Fragment}, n.branch? kind = some f → f ∈ n.fragments := by
    intro kind f hf
    rw [n.fragments_eq hhead]
    exact List.mem_filterMap.2 ⟨kind, kind.mem_all, hf⟩
  exact h.ordered_of_le hbefore (hmem hf) (hmem hg) (hspelled.stop_le_start hkind hne hf hg)

include hbefore in
/-- Branches that do not swap have their elements in the order of the text. -/
theorem Node.Regular.pairwise_fragments (h : n.Regular cs) (hswaps : ¬n.Swaps) :
    n.fragments.Pairwise fun f g => ∀ x ∈ f.elements, ∀ y ∈ g.elements, R x y := by
  cases n with
  | ifBlock span elseif test consequent alternate =>
    cases alternate with
    | none => exact List.pairwise_singleton ..
    | some alternate =>
      exact List.pairwise_pair.2 (h.ordered_first hbefore rfl .first .otherwise rfl (by decide) rfl rfl)
  | eachBlock span header body fallback =>
    cases fallback with
    | none => exact List.pairwise_singleton ..
    | some fallback =>
      exact List.pairwise_pair.2 (h.ordered_first hbefore rfl .first .otherwise rfl (by decide) rfl rfl)
  | awaitBlock span header pending resolved failed =>
    have hfirst : ∀ f ∈ pending, ∀ g ∈ resolved.toList ++ failed.toList, ∀ x ∈ f.elements, ∀ y ∈ g.elements, R x y := by
      intro f hf g hg
      rcases List.mem_append.1 hg with hg | hg
      · exact h.ordered_first hbefore rfl .pending .resolved rfl (by decide) hf (Option.mem_toList.1 hg)
      · exact h.ordered_first hbefore rfl .pending .failed rfl (by decide) hf (Option.mem_toList.1 hg)
    have hlast : ∀ f ∈ resolved, ∀ g ∈ failed, ∀ x ∈ f.elements, ∀ y ∈ g.elements, R x y := by
      rintro f ⟨⟩ g ⟨⟩ x hx y hy
      obtain ⟨P, hsound⟩ := h.sound
      have hpair := (Node.awaitBlock span header pending (some f) (some g)).sublist_fragments rfl rfl
      rcases List.pairwise_pair.1 (hsound.place.apart.sublist hpair) with hle | hle
      · exact h.ordered_of_le hbefore (hpair.subset (by simp)) (hpair.subset (by simp)) hle x hx y hy
      · exact absurd ⟨rfl, rfl, hle, List.ne_nil_of_mem hx, List.ne_nil_of_mem hy⟩ hswaps
    have hrest : (resolved.toList ++ failed.toList).Pairwise fun f g => ∀ x ∈ f.elements, ∀ y ∈ g.elements, R x y := by
      cases resolved with
      | none => cases failed <;> simp
      | some f =>
        cases failed with
        | none => exact List.pairwise_singleton ..
        | some g => exact List.pairwise_pair.2 (hlast f rfl g rfl)
    rw [Node.fragments, List.append_assoc]
    cases pending with
    | none => exact hrest
    | some f => exact List.pairwise_cons.2 ⟨hfirst f rfl, hrest⟩
  | _ => simp [Node.fragments]

include hstarts in
/-- Branches that swap have no such order. -/
theorem Node.Regular.not_swaps (h : n.Regular cs)
    (hpairwise : n.fragments.Pairwise fun f g => ∀ x ∈ f.elements, ∀ y ∈ g.elements, R x y) : ¬n.Swaps := by
  rintro ⟨hresolved, hfailed, hle, hx, hy⟩
  obtain ⟨P, hsound⟩ := h.sound
  obtain ⟨x, hx⟩ := List.exists_mem_of_ne_nil _ hx
  obtain ⟨y, hy⟩ := List.exists_mem_of_ne_nil _ hy
  have hpair := n.sublist_fragments hresolved hfailed
  have hxy := hstarts (List.pairwise_pair.1 (hpairwise.sublist hpair) x hx y hy)
  have hyx : y.Before x := ((hsound.of_mem (hpair.subset (by simp))).within_elements y hy).before
    ((hsound.of_mem (hpair.subset (by simp))).within_elements x hx) hle
  exact Nat.lt_asymm hxy hyx.starts

include hbefore in
/-- Nodes that stand side by side show their elements in order if each of them does so. -/
theorem pairwise_walk_iff {P : Attribute → Prop} {nodes : List Node} {lo hi : Nat} (hsound : ∀ n ∈ nodes, n.Sound cs P)
    (horder : InOrder lo (nodes.map Node.span) hi) :
    (walk nodes).Pairwise R ↔ ∀ n ∈ nodes, n.elements.Pairwise R := by
  rw [walk_eq_flatMap, List.pairwise_flatMap, and_iff_left_iff_imp]
  intro _
  refine (List.pairwise_map.1 horder.pairwise_le).imp_of_mem fun {m n} hm hn hle x hx y hy => ?_
  exact hbefore (((hsound m hm).within_elements x hx).before ((hsound n hn).within_elements y hy) hle)

include hbefore hstarts in
/-- The elements of a node are in order if and only if none of its blocks swaps. -/
theorem Node.pairwise_elements_iff (h : n.Everywhere (Node.Regular cs)) :
    n.elements.Pairwise R ↔ n.Everywhere fun m => ¬m.Swaps := by
  induction h with
  | @mk n hn hchildren ih =>
    obtain ⟨P, hsound⟩ := hn.sound
    have hfragment : ∀ f ∈ n.fragments, f.elements.Pairwise R ↔ ∀ m ∈ f.nodes, m.Everywhere fun m => ¬m.Swaps := by
      intro f hf
      have hsoundf := hsound.of_mem hf
      rw [Fragment.elements, pairwise_walk_iff hbefore hsoundf.sound hsoundf.nodes]
      exact forall₂_congr fun m hm => ih m (List.mem_flatMap.2 ⟨f, hf, hm⟩)
    have hfirst : ∀ e ∈ n.element?.toList, ∀ x ∈ n.fragments.flatMap Fragment.elements, R e x := by
      intro e he x hx
      obtain ⟨f, hf, hx⟩ := List.mem_flatMap.1 hx
      exact hbefore (hsound.before_of_fragment hn.later (Option.mem_toList.1 he) hf x hx)
    have hone : n.element?.toList.Pairwise R := by cases n.element? <;> simp
    rw [Node.elements, List.pairwise_append, List.pairwise_flatMap]
    constructor
    · rintro ⟨-, ⟨hfragments, hpairwise⟩, -⟩
      refine .mk (hn.not_swaps hstarts hpairwise) fun m hm => ?_
      obtain ⟨f, hf, hm⟩ := List.mem_flatMap.1 hm
      exact (hfragment f hf).1 (hfragments f hf) m hm
    · intro hswaps
      refine ⟨hone, ⟨fun f hf => (hfragment f hf).2 fun m hm => ?_, hn.pairwise_fragments hbefore hswaps.here⟩, hfirst⟩
      exact hswaps.children m (List.mem_flatMap.2 ⟨f, hf, hm⟩)

end Order

/-! ### Documents -/

theorem regular_read {source : String} (h : (read source).faults = []) :
    ∀ n ∈ (read source).document.fragment.nodes, n.Everywhere (Node.Regular source.toList) := fun n hn =>
  ((everywhere_read source n hn).and (written_read h n hn)).imp fun _ hm => ⟨⟨_, hm.1.1⟩, hm.1.2.later, hm.2⟩

/-- What every element has to all later ones, in a text without faults. -/
theorem pairwise_elements_read_iff {R : ElementView → ElementView → Prop}
    (hbefore : ∀ {x y : ElementView}, x.Before y → R x y)
    (hstarts : ∀ {x y : ElementView}, R x y → x.span.start < y.span.start) {source : String}
    (h : (read source).faults = []) : (read source).document.fragment.elements.Pairwise R ↔
      ∀ n ∈ subnodes (read source).document.fragment.nodes, ¬n.Swaps := by
  have hsound := (sound_read_placed source).fragment
  rw [Fragment.elements, pairwise_walk_iff hbefore hsound.sound hsound.nodes, forall_subnodes_iff]
  exact forall₂_congr fun n hn => n.pairwise_elements_iff hbefore hstarts (regular_read h n hn)

/-- In a text without faults the elements that the walk shows start in the order of the text if and only if no
await block has both its last branches, with elements in them, and the one for a failure first. -/
theorem starts_elements_iff (source : String) (h : (read source).faults = []) :
    ((read source).document.fragment.elements.map fun e => e.span.start).Pairwise (· < ·) ↔
      ∀ n ∈ subnodes (read source).document.fragment.nodes, ¬n.Swaps := by
  rw [List.pairwise_map]
  exact pairwise_elements_read_iff ElementView.Before.starts id h

/-- A page with an await block whose branch for a failure is written before the one for the result. -/
def swappedPage : String := "\x7b#await a\x7db\x7b:catch c\x7d<i/>\x7b:then d\x7d<b/>\x7b/await\x7d"

/-- The walk shows the last element of the page first. -/
theorem starts_elements_swappedPage : (read swappedPage).faults = [] ∧
    (read swappedPage).document.fragment.elements.map (fun e => (e.name, e.span.start)) = [("b", 34), ("i", 21)] ∧
    ¬((read swappedPage).document.fragment.elements.map fun e => e.span.start).Pairwise (· < ·) := by
  refine ⟨by decide +kernel, by decide +kernel, by decide +kernel⟩

end Restyle.Markup
