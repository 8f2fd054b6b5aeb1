import Restyle.Markup.Elements
import Restyle.Proofs.Markup.Document

/-! The attributes that the walk over a document shows. No two of them share a byte, whichever elements
they belong to: those of an element come before everything inside it. -/

namespace Restyle.Markup

open Text Restyle.Span

variable {cs : List Char} {P : Attribute → Prop} {n : Node}

theorem Node.Sound.of_mem_children (h : n.Sound cs P) {m : Node} (hm : m ∈ n.children) :
    m.Sound cs P ∧ n.span.Encloses m.span ∧ ∀ a ∈ n.attributes, a.span.Apart m.span := by
  obtain ⟨f, hf, hm⟩ := List.mem_flatMap.1 hm
  have hfragment := h.of_mem hf
  have hin := hfragment.nodes.of_mem (List.mem_map_of_mem hm)
  have hinside := h.place.inside f hf
  obtain ⟨mid, hhead, -, hmid⟩ := h.place.head
  refine ⟨hfragment.sound m hm, hinside.trans ⟨hin.1, hin.2.2⟩, fun a ha => .inl ?_⟩
  have := (hhead.of_mem (List.mem_map_of_mem ha)).2.2
  have := hmid f hf
  omega

theorem Node.Sound.pairwise_children (h : n.Sound cs P) :
    n.children.Pairwise fun m m' => m.span.Apart m'.span := by
  refine List.pairwise_flatMap.2 ⟨fun f hf => ?_, ?_⟩
  · exact List.pairwise_map.1 (h.of_mem hf).nodes.pairwise
  · refine List.Pairwise.imp_of_mem (fun {f g} hf hg hfg m hm m' hm' => ?_) h.place.apart
    have hin := (h.of_mem hf).nodes.of_mem (List.mem_map_of_mem hm)
    have hin' := (h.of_mem hg).nodes.of_mem (List.mem_map_of_mem hm')
    exact hfg.enclosed ⟨hin.1, hin.2.2⟩ ⟨hin'.1, hin'.2.2⟩

theorem Node.attributes_of_element? {e : ElementView} (h : n.element? = some e) :
    e.attributes = n.attributes := by
  obtain ⟨content, selfClosing, rfl⟩ | ⟨content, rfl⟩ := Node.element?_eq_some_iff.1 h <;> rfl

/-- The attributes of some elements, in document order. -/
def allAttributes (es : List ElementView) : List Attribute := es.flatMap ElementView.attributes

theorem allAttributes_append (es es' : List ElementView) :
    allAttributes (es ++ es') = allAttributes es ++ allAttributes es' := List.flatMap_append ..

theorem allAttributes_element? :
    allAttributes n.element?.toList = [] ∨ allAttributes n.element?.toList = n.attributes := by
  cases h : n.element? with
  | none => exact .inl rfl
  | some e => exact .inr (by simp [allAttributes, Node.attributes_of_element? h])

/-- What holds of an attribute that the walk shows: it has the property of all attributes, it is not
empty, and it is inside one of the nodes that were to be visited. -/
structure Shown (P : Attribute → Prop) (nodes : List Node) (a : Attribute) : Prop where
  holds : P a
  nonempty : a.span.start < a.span.stop
  inside : ∃ n ∈ nodes, n.span.Encloses a.span

theorem Node.Sound.shown (h : n.Sound cs P) {nodes : List Node} (hn : n ∈ nodes) {a : Attribute}
    (ha : a ∈ n.attributes) : Shown P nodes a := by
  obtain ⟨mid, hhead, hmid, -⟩ := h.place.head
  have hin := hhead.of_mem (List.mem_map_of_mem ha)
  exact ⟨h.place.shown a ha, hin.2.1, n, hn, hin.1, Nat.le_trans hin.2.2 hmid⟩

/-- The attributes below nodes that are apart are apart. -/
theorem shown_walk {nodes : List Node} (hs : ∀ n ∈ nodes, n.Sound cs P)
    (hp : nodes.Pairwise fun m m' => m.span.Apart m'.span) :
    (∀ a ∈ allAttributes (walk nodes), Shown P nodes a)
      ∧ (allAttributes (walk nodes)).Pairwise fun a b => a.span.Apart b.span := by
  fun_induction walk nodes with
  | case1 => exact ⟨by simp [allAttributes], List.Pairwise.nil⟩
  | case2 n rest ih =>
    have hn := hs n (List.mem_cons_self ..)
    obtain ⟨hfirst, hrest⟩ := List.pairwise_cons.1 hp
    obtain ⟨hshown, hapart⟩ := ih
      (fun m hm => by
        rcases List.mem_append.1 hm with hm | hm
        · exact (hn.of_mem_children hm).1
        · exact hs m (List.mem_cons_of_mem n hm))
      (List.pairwise_append.2 ⟨hn.pairwise_children, hrest, fun m hm m' hm' =>
        (hfirst m' hm').enclosed (hn.of_mem_children hm).2.1 ⟨Nat.le_refl _, Nat.le_refl _⟩⟩)
    have hmem : ∀ a ∈ allAttributes n.element?.toList, a ∈ n.attributes := by
      intro a ha
      rcases allAttributes_element? (n := n) with h | h <;> rw [h] at ha
      · cases ha
      · exact ha
    rw [allAttributes_append]
    constructor
    · intro a ha
      rcases List.mem_append.1 ha with ha | ha
      · exact hn.shown (List.mem_cons_self ..) (hmem a ha)
      · obtain ⟨hholds, hlt, m, hm, hin⟩ := hshown a ha
        rcases List.mem_append.1 hm with hm | hm
        · exact ⟨hholds, hlt, n, List.mem_cons_self .., (hn.of_mem_children hm).2.1.trans hin⟩
        · exact ⟨hholds, hlt, m, List.mem_cons_of_mem n hm, hin⟩
    · refine List.pairwise_append.2 ⟨?_, hapart, fun a ha b hb => ?_⟩
      · obtain ⟨mid, hhead, -, -⟩ := hn.place.head
        rcases allAttributes_element? (n := n) with h | h <;> rw [h]
        · exact List.Pairwise.nil
        · exact List.pairwise_map.1 hhead.pairwise
      · have ha := hmem a ha
        obtain ⟨-, -, m, hm, hin⟩ := hshown b hb
        rcases List.mem_append.1 hm with hm | hm
        · exact ((hn.of_mem_children hm).2.2 a ha).enclosed ⟨Nat.le_refl _, Nat.le_refl _⟩ hin
        · obtain ⟨n', hn', hin'⟩ := (hn.shown (List.mem_singleton_self n) ha).inside
          rw [List.mem_singleton.1 hn'] at hin'
          exact (hfirst m hm).enclosed hin' hin

/-- The attributes of a fragment that lies well in the text. -/
theorem Fragment.Sound.shown {content : Fragment} (h : content.Sound cs P) :
    ∀ a ∈ allAttributes content.elements, Shown P content.nodes a :=
  (shown_walk h.sound (List.pairwise_map.1 h.nodes.pairwise)).1

theorem Fragment.Sound.attributes_apart {content : Fragment} (h : content.Sound cs P) :
    ((allAttributes content.elements).map Attribute.span).Pairwise Span.Apart :=
  List.pairwise_map.2 (shown_walk h.sound (List.pairwise_map.1 h.nodes.pairwise)).2

end Restyle.Markup
