import Restyle.Markup.Tree

/-! The elements of a tree that can carry style attributes, in document order. The walk keeps a list
of nodes still to visit and puts the children of a node in front of it; it descends through
components, special elements and blocks but yields elements only. -/

namespace Restyle.Markup

/-- An element as the walk shows it. -/
structure ElementView where
  /-- The name as written. -/
  name : String
  span : Span
  attributes : List Attribute
  deriving Repr, DecidableEq

/-- Plain elements, and special ones whose tag is chosen when they are shown. -/
def Node.element? : Node → Option ElementView
  | .element span name attributes .. => some ⟨name, span, attributes⟩
  | .special span .element name attributes _ => some ⟨name, span, attributes⟩
  | _ => none

/-- The nodes that are shown are the plain elements and the special ones whose tag is chosen when they are shown, and
no others. What is shown of them are the span, the name and the attributes. -/
theorem Node.element?_eq_some_iff {n : Node} {e : ElementView} :
    n.element? = some e ↔
      (∃ content selfClosing, n = .element e.span e.name e.attributes content selfClosing) ∨
        ∃ content, n = .special e.span .element e.name e.attributes content := by
  constructor
  · intro h
    unfold Node.element? at h
    split at h
    · cases h
      exact .inl ⟨_, _, rfl⟩
    · cases h
      exact .inr ⟨_, rfl⟩
    · cases h
  · rintro (⟨content, selfClosing, rfl⟩ | ⟨content, rfl⟩) <;> rfl

/-- The total size of nodes still to visit. -/
noncomputable def totalSize : List Node → Nat
  | [] => 0
  | n :: ns => sizeOf n + totalSize ns

theorem totalSize_append (a b : List Node) : totalSize (a ++ b) = totalSize a + totalSize b := by
  induction a with
  | nil => simp [totalSize]
  | cons n ns ih => simp [totalSize, ih, Nat.add_assoc]

theorem totalSize_le (nodes : List Node) : totalSize nodes < sizeOf nodes := by
  induction nodes with
  | nil => decide
  | cons n ns ih =>
    simp only [totalSize, List.cons.sizeOf_spec]
    omega

theorem totalSize_nodes_lt (f : Fragment) : totalSize f.nodes < sizeOf f := by
  obtain ⟨nodes, span⟩ := f
  have := totalSize_le nodes
  simp only [Fragment.mk.sizeOf_spec]
  omega

theorem totalSize_option_le (f : Option Fragment) :
    totalSize (f.toList.flatMap Fragment.nodes) < sizeOf f := by
  cases f with
  | none => decide
  | some f =>
    have := totalSize_nodes_lt f
    simp only [Option.toList_some, List.flatMap_cons, List.flatMap_nil, List.append_nil,
      Option.some.sizeOf_spec]
    omega

/-- The children of a node are smaller than the node. -/
theorem totalSize_children_lt (n : Node) : totalSize n.children < sizeOf n := by
  have one := totalSize_nodes_lt
  have opt := totalSize_option_le
  cases n with
  | element _ _ _ content => have := one content; simp [Node.children, Node.fragments]; omega
  | component _ _ _ content => have := one content; simp [Node.children, Node.fragments]; omega
  | special _ _ _ _ content => have := one content; simp [Node.children, Node.fragments]; omega
  | ifBlock _ _ _ consequent alternate =>
    have := one consequent
    have := opt alternate
    simp [Node.children, Node.fragments, totalSize_append]
    omega
  | eachBlock _ _ body fallback =>
    have := one body
    have := opt fallback
    simp [Node.children, Node.fragments, totalSize_append]
    omega
  | awaitBlock _ _ pending resolved failed =>
    have := opt pending
    have := opt resolved
    have := opt failed
    simp [Node.children, Node.fragments, totalSize_append]
    omega
  | keyBlock _ _ body => have := one body; simp [Node.children, Node.fragments]; omega
  | snippetBlock _ _ _ body => have := one body; simp [Node.children, Node.fragments]; omega
  | _ =>
    simp only [Node.children, Node.fragments, totalSize, List.flatMap_nil, Node.text.sizeOf_spec,
      Node.comment.sizeOf_spec, Node.expression.sizeOf_spec, Node.tag.sizeOf_spec]
    omega

/-- The elements in and below the given nodes. -/
def walk : List Node → List ElementView
  | [] => []
  | n :: rest => n.element?.toList ++ walk (n.children ++ rest)
termination_by nodes => totalSize nodes
decreasing_by
  have := totalSize_children_lt n
  have : totalSize (n :: rest) = sizeOf n + totalSize rest := by simp [totalSize]
  rw [totalSize_append]
  omega

/-- The next element of a walk with some nodes still to visit, and the nodes still to visit after it. Nodes
that are no elements are passed by. -/
def nextElement? : List Node → Option (ElementView × List Node)
  | [] => none
  | n :: rest =>
    match n.element? with
    | some e => some (e, n.children ++ rest)
    | none => nextElement? (n.children ++ rest)
termination_by nodes => totalSize nodes
decreasing_by
  have := totalSize_children_lt n
  have : totalSize (n :: rest) = sizeOf n + totalSize rest := by simp [totalSize]
  rw [totalSize_append]
  omega

/-- The elements of a fragment, in document order. -/
def Fragment.elements (f : Fragment) : List ElementView := walk f.nodes

end Restyle.Markup
