import Restyle.Proofs.Markup.Walk

/-! All nodes of a tree. A node that has a property, with all nodes below it, passes the property on to the
list of these nodes; and in a tree that lies well in a text no two nodes start at the same offset, if the
fragments of a node start behind it. -/

namespace Restyle.Markup

open Text Restyle.Span

/-- The given nodes and all nodes below them, in document order. -/
def subnodes : List Node → List Node
  | [] => []
  | n :: rest => n :: subnodes (n.children ++ rest)
termination_by nodes => totalSize nodes
decreasing_by
  have := totalSize_children_lt n
  have : totalSize (n :: rest) = sizeOf n + totalSize rest := by simp [totalSize]
  rw [totalSize_append]
  omega

/-- The property holds of the node and of all nodes below it. -/
inductive Node.Everywhere (Q : Node → Prop) : Node → Prop where
  | mk {n : Node} : Q n → (∀ m ∈ n.children, Node.Everywhere Q m) → Node.Everywhere Q n

variable {Q Q' : Node → Prop} {n : Node} {nodes : List Node}

namespace Node.Everywhere

theorem here (h : n.Everywhere Q) : Q n := by
  cases h with
  | mk h _ => exact h

theorem children (h : n.Everywhere Q) : ∀ m ∈ n.children, m.Everywhere Q := by
  cases h with
  | mk _ h => exact h

theorem and (h : n.Everywhere Q) (h' : n.Everywhere Q') : n.Everywhere fun m => Q m ∧ Q' m := by
  induction h with
  | mk hn _ ih => exact .mk ⟨hn, h'.here⟩ fun m hm => ih m hm (h'.children m hm)

theorem imp (h : n.Everywhere Q) (himp : ∀ m, Q m → Q' m) : n.Everywhere Q' := by
  induction h with
  | mk hn _ ih => exact .mk (himp _ hn) ih

end Node.Everywhere

theorem forall_subnodes (h : ∀ n ∈ nodes, n.Everywhere Q) : ∀ m ∈ subnodes nodes, Q m := by
  fun_induction subnodes nodes with
  | case1 => simp
  | case2 n rest ih =>
    have hn := h n (List.mem_cons_self ..)
    intro m hm
    rcases List.mem_cons.1 hm with rfl | hm
    · exact hn.here
    · refine ih (fun k hk => ?_) m hm
      rcases List.mem_append.1 hk with hk | hk
      · exact hn.children k hk
      · exact h k (List.mem_cons_of_mem n hk)

theorem forall_subnodes_iff : (∀ m ∈ subnodes nodes, Q m) ↔ ∀ n ∈ nodes, n.Everywhere Q := by
  refine ⟨fun h => ?_, forall_subnodes⟩
  fun_induction subnodes nodes with
  | case1 => simp
  | case2 n rest ih =>
    obtain ⟨hn, hbelow⟩ := List.forall_mem_cons.1 h
    obtain ⟨hchildren, hrest⟩ := List.forall_mem_append.1 (ih hbelow)
    exact List.forall_mem_cons.2 ⟨.mk hn hchildren, hrest⟩

/-! ### Starts -/

/-- The node is not empty, and what is below it lies inside it and starts behind its start. -/
structure Node.Nests (n : Node) : Prop where
  nonempty : n.span.start < n.span.stop
  inside : ∀ m ∈ n.children, n.span.Encloses m.span ∧ n.span.start < m.span.start
  apart : n.children.Pairwise fun m m' => m.span.Apart m'.span

/-- A node below others lies inside one of them. -/
theorem enclosed_of_mem_subnodes (h : ∀ n ∈ nodes, n.Everywhere Node.Nests) :
    ∀ m ∈ subnodes nodes, m.span.start < m.span.stop ∧ ∃ n ∈ nodes, n.span.Encloses m.span := by
  fun_induction subnodes nodes with
  | case1 => simp
  | case2 n rest ih =>
    have hn := h n (List.mem_cons_self ..)
    intro m hm
    rcases List.mem_cons.1 hm with rfl | hm
    · exact ⟨hn.here.nonempty, m, List.mem_cons_self .., Nat.le_refl _, Nat.le_refl _⟩
    · obtain ⟨hlt, k, hk, hin⟩ := ih (fun k hk => by
        rcases List.mem_append.1 hk with hk | hk
        · exact hn.children k hk
        · exact h k (List.mem_cons_of_mem n hk)) m hm
      rcases List.mem_append.1 hk with hk | hk
      · exact ⟨hlt, n, List.mem_cons_self .., (hn.here.inside k hk).1.trans hin⟩
      · exact ⟨hlt, k, List.mem_cons_of_mem n hk, hin⟩

/-- No two nodes start at the same offset. -/
theorem pairwise_start_subnodes (h : ∀ n ∈ nodes, n.Everywhere Node.Nests)
    (hapart : nodes.Pairwise fun m m' => m.span.Apart m'.span) :
    (subnodes nodes).Pairwise fun m m' => m.span.start ≠ m'.span.start := by
  fun_induction subnodes nodes with
  | case1 => exact List.Pairwise.nil
  | case2 n rest ih =>
    have hn := h n (List.mem_cons_self ..)
    obtain ⟨hfirst, hrest⟩ := List.pairwise_cons.1 hapart
    have hmore : ∀ k ∈ n.children ++ rest, k.Everywhere Node.Nests := by
      intro k hk
      rcases List.mem_append.1 hk with hk | hk
      · exact hn.children k hk
      · exact h k (List.mem_cons_of_mem n hk)
    refine List.pairwise_cons.2 ⟨fun m hm => ?_, ih hmore ?_⟩
    · obtain ⟨hlt, k, hk, hin⟩ := enclosed_of_mem_subnodes hmore m hm
      have hnonempty := hn.here.nonempty
      have hle := hin.1
      have hle' := hin.2
      rcases List.mem_append.1 hk with hk | hk
      · have := (hn.here.inside k hk).2
        omega
      · rcases hfirst k hk with hbefore | hbehind
        · omega
        · omega
    · refine List.pairwise_append.2 ⟨hn.here.apart, hrest, fun m hm m' hm' => ?_⟩
      exact (hfirst m' hm').enclosed (hn.here.inside m hm).1 ⟨Nat.le_refl _, Nat.le_refl _⟩

/-! ### Trees that lie well -/

variable {cs : List Char} {P : Attribute → Prop}

theorem Node.Sound.everywhere (h : n.Sound cs P) : n.Everywhere fun m => m.Sound cs P := by
  induction h with
  | mk hlocal hfragments hbelow ih =>
    refine .mk (.mk hlocal hfragments hbelow) fun m hm => ?_
    obtain ⟨f, hf, hm⟩ := List.mem_flatMap.1 hm
    exact ih f hf m hm

theorem Node.Sound.nests (h : n.Sound cs P) (hlater : ∀ f ∈ n.fragments, n.span.start < f.span.start) :
    n.Nests where
  nonempty := h.place.nonempty
  inside m hm := by
    refine ⟨(h.of_mem_children hm).2.1, ?_⟩
    obtain ⟨f, hf, hm⟩ := List.mem_flatMap.1 hm
    have hin := (h.of_mem hf).nodes.of_mem (List.mem_map_of_mem hm)
    have hlt := hlater f hf
    omega
  apart := h.pairwise_children

end Restyle.Markup
