import Restyle.Proofs.Markup.Below

/-! The walk told from the tree. The walk keeps a list of nodes, but what it gives is told by recursion on the
tree: each node, if it is an element, and then what is below it, fragment by fragment. A node has an address,
its place among its siblings behind the address of the node that it is a child of; the walk comes to every
address of an element once, in lexicographic order. -/

namespace Restyle.Markup

/-! ### The walk by recursion on the tree -/

theorem walk_append (ns ms : List Node) : walk (ns ++ ms) = walk ns ++ walk ms := by
  fun_induction walk ns with
  | case1 => rfl
  | case2 n rest ih => rw [List.cons_append, walk, ← List.append_assoc n.children, ih, List.append_assoc]

theorem walk_flatMap (fs : List Fragment) : walk (fs.flatMap Fragment.nodes) = fs.flatMap Fragment.elements := by
  induction fs with
  | nil =>
    rw [List.flatMap_nil, walk]
    rfl
  | cons f fs ih => rw [List.flatMap_cons, walk_append, ih, List.flatMap_cons, Fragment.elements]

/-- The node itself, if it is an element, and the elements of its fragments. -/
def Node.elements (n : Node) : List ElementView := n.element?.toList ++ n.fragments.flatMap Fragment.elements

theorem walk_cons (n : Node) (rest : List Node) : walk (n :: rest) = n.elements ++ walk rest := by
  rw [walk, walk_append, Node.children, walk_flatMap, ← List.append_assoc, Node.elements]

theorem walk_eq_flatMap (nodes : List Node) : walk nodes = nodes.flatMap Node.elements := by
  induction nodes with
  | nil =>
    rw [walk]
    rfl
  | cons n rest ih => rw [walk_cons, ih, List.flatMap_cons]

/-- What holds of a list of nodes if it holds of all lists that are smaller than its first node, and of the
nodes behind that. -/
theorem nodes_induction {motive : List Node → Prop} (nil : motive [])
    (cons : ∀ n rest, (∀ below, totalSize below < sizeOf n → motive below) → motive rest → motive (n :: rest))
    (nodes : List Node) : motive nodes := by
  suffices h : ∀ size nodes, totalSize nodes < size → motive nodes from h _ nodes (Nat.lt_succ_self _)
  intro size
  induction size with
  | zero => exact fun nodes h => absurd h (Nat.not_lt_zero _)
  | succ size ih =>
    intro nodes h
    cases nodes with
    | nil => exact nil
    | cons n rest =>
      have hsize : totalSize (n :: rest) = sizeOf n + totalSize rest := rfl
      have hchildren := totalSize_children_lt n
      exact cons n rest (fun below hbelow => ih below (by omega)) (ih rest (by omega))

/-! ### Addresses -/

/-- The node at an address in and below some nodes. -/
def nodeAt? (nodes : List Node) : List Nat → Option Node
  | [] => none
  | i :: address => nodes[i]?.bind fun n => if address = [] then some n else nodeAt? n.children address

def elementAt? (nodes : List Node) (address : List Nat) : Option ElementView :=
  (nodeAt? nodes address).bind Node.element?

/-- The addresses are those of all elements in and below the nodes, in their order. -/
structure Addressed (nodes : List Node) (addresses : List (List Nat)) : Prop where
  sorted : addresses.Pairwise (· < ·)
  complete : ∀ a, (elementAt? nodes a).isSome → a ∈ addresses
  elements : addresses.map (elementAt? nodes) = (walk nodes).map some

/-- The address behind which there is one sibling more. -/
def onward : List Nat → List Nat
  | [] => []
  | i :: address => (i + 1) :: address

theorem onward_lt_onward {a b : List Nat} (h : a < b) : onward a < onward b := by
  cases b with
  | nil => exact absurd h (List.not_lt_nil a)
  | cons j b =>
    cases a with
    | nil => exact List.nil_lt_cons ..
    | cons i a =>
      rw [List.cons_lt_cons_iff] at h
      rw [onward, onward, List.cons_lt_cons_iff]
      exact h.imp Nat.succ_lt_succ fun ⟨hij, hab⟩ => ⟨congrArg _ hij, hab⟩

section Addresses

variable {n : Node} {nodes rest : List Node} {addresses inside behind : List (List Nat)}

theorem elementAt?_zero : elementAt? (n :: rest) [0] = n.element? := rfl

theorem elementAt?_zero_cons {a : List Nat} (h : a ≠ []) :
    elementAt? (n :: rest) (0 :: a) = elementAt? n.children a := by
  simp [elementAt?, nodeAt?, h]

theorem elementAt?_onward (a : List Nat) : elementAt? (n :: rest) (onward a) = elementAt? rest a := by
  cases a <;> rfl

namespace Addressed

theorem ne_nil (h : Addressed nodes addresses) : ∀ a ∈ addresses, a ≠ [] := by
  rintro a ha rfl
  have hmem := List.mem_map_of_mem (f := elementAt? nodes) ha
  rw [h.elements] at hmem
  obtain ⟨e, -, he⟩ := List.mem_map.1 hmem
  cases he

theorem nil : Addressed [] [] where
  sorted := List.Pairwise.nil
  complete a h := by cases a <;> cases h
  elements := by
    rw [walk]
    rfl

/-- The address of the first node, those below it, and those of the nodes behind it. -/
theorem cons (h : Addressed n.children inside) (h' : Addressed rest behind) :
    Addressed (n :: rest)
      ((n.element?.toList.map fun _ => [0]) ++ (inside.map (0 :: ·) ++ behind.map onward)) where
  sorted := by
    have hfirst : ∀ a, ∀ b ∈ behind, 0 :: a < onward b := by
      intro a b hb
      obtain ⟨j, b, rfl⟩ := List.exists_cons_of_ne_nil (h'.ne_nil b hb)
      exact List.cons_lt_cons_iff.2 (.inl (Nat.succ_pos j))
    refine List.pairwise_append.2 ⟨?_, List.pairwise_append.2 ⟨?_, ?_, ?_⟩, ?_⟩
    · cases n.element? <;> simp
    · exact h.sorted.map _ fun a b hab => List.cons_lt_cons_iff.2 (.inr ⟨rfl, hab⟩)
    · exact h'.sorted.map _ fun a b => onward_lt_onward
    · simp only [List.forall_mem_map]
      exact fun a _ => hfirst a
    · intro a ha b hb
      obtain ⟨e, -, rfl⟩ := List.mem_map.1 ha
      rcases List.mem_append.1 hb with hb | hb
      · obtain ⟨c, hc, rfl⟩ := List.mem_map.1 hb
        obtain ⟨j, c, rfl⟩ := List.exists_cons_of_ne_nil (h.ne_nil c hc)
        exact List.cons_lt_cons_iff.2 (.inr ⟨rfl, List.nil_lt_cons ..⟩)
      · obtain ⟨c, hc, rfl⟩ := List.mem_map.1 hb
        exact hfirst [] c hc
  complete a ha := by
    cases a with
    | nil => cases ha
    | cons i a =>
      cases i with
      | zero =>
        by_cases hnil : a = []
        · subst hnil
          rw [elementAt?_zero] at ha
          obtain ⟨e, he⟩ := Option.isSome_iff_exists.1 ha
          exact List.mem_append_left _ (by simp [he])
        · rw [elementAt?_zero_cons hnil] at ha
          exact List.mem_append_right _ (List.mem_append_left _ (List.mem_map_of_mem (h.complete a ha)))
      | succ i =>
        have hmem := h'.complete (i :: a) ha
        exact List.mem_append_right _ (List.mem_append_right _ (List.mem_map_of_mem (f := onward) hmem))
  elements := by
    have hhere : (n.element?.toList.map fun _ => [0]).map (elementAt? (n :: rest)) = n.element?.toList.map some := by
      rw [List.map_map]
      cases he : n.element? <;> simp [elementAt?_zero, he]
    have hinside : (inside.map (0 :: ·)).map (elementAt? (n :: rest)) = (walk n.children).map some := by
      rw [← h.elements, List.map_map]
      exact List.map_congr_left fun a ha => elementAt?_zero_cons (h.ne_nil a ha)
    have hbehind : (behind.map onward).map (elementAt? (n :: rest)) = (walk rest).map some := by
      rw [← h'.elements, List.map_map]
      exact List.map_congr_left fun a _ => elementAt?_onward a
    rw [walk, walk_append, List.map_append, List.map_append, hhere, hinside, hbehind, List.map_append, List.map_append]

end Addressed

theorem exists_addressed (nodes : List Node) : ∃ addresses, Addressed nodes addresses := by
  induction nodes using nodes_induction with
  | nil => exact ⟨[], .nil⟩
  | cons n rest below ih =>
    obtain ⟨inside, hinside⟩ := below n.children (totalSize_children_lt n)
    obtain ⟨behind, hbehind⟩ := ih
    exact ⟨_, hinside.cons hbehind⟩

end Addresses

/-! ### One element after the other -/

/-- The elements that are taken one by one until there is none. -/
inductive Visits : List Node → List ElementView → Prop where
  | done {nodes : List Node} : nextElement? nodes = none → Visits nodes []
  | more {nodes rest : List Node} {e : ElementView} {es : List ElementView} :
    nextElement? nodes = some (e, rest) → Visits rest es → Visits nodes (e :: es)

/-- The next element is the first one of the walk, and the walk goes on behind it. -/
theorem map_nextElement? (nodes : List Node) :
    (nextElement? nodes).map (fun (e, rest) => (e, walk rest)) =
      (walk nodes).head?.map fun e => (e, (walk nodes).tail) := by
  fun_induction nextElement? nodes with
  | case1 =>
    rw [walk]
    rfl
  | case2 n rest e he => simp [walk, he]
  | case3 n rest he ih =>
    rw [ih, walk.eq_2, he]
    rfl

theorem visits_walk (nodes : List Node) : Visits nodes (walk nodes) := by
  generalize hes : walk nodes = es
  induction es generalizing nodes with
  | nil =>
    have hnext := map_nextElement? nodes
    rw [hes] at hnext
    exact .done (Option.map_eq_none_iff.1 hnext)
  | cons e es ih =>
    have hnext := map_nextElement? nodes
    rw [hes] at hnext
    obtain ⟨⟨e', rest⟩, hsome, heq⟩ := Option.map_eq_some_iff.1 hnext
    cases heq
    exact .more hsome (ih rest rfl)

/-- The elements of any fragment, read from a text or not, are those of its nodes in order: the node itself, if
it is one, and then the elements of its fragments. Every address of an element, at any depth, is come to once,
in the order of the addresses. Taken one by one, the elements come to an end. -/
theorem elements_preorder (f : Fragment) :
    f.elements = f.nodes.flatMap (fun n => n.element?.toList ++ n.fragments.flatMap Fragment.elements) ∧
      (∃ addresses, Addressed f.nodes addresses) ∧ Visits f.nodes f.elements :=
  ⟨walk_eq_flatMap f.nodes, exists_addressed f.nodes, visits_walk f.nodes⟩

/-- A page with elements below a component, in both branches of a block and below special elements. -/
def nestedPage : String :=
  "<Card>\x7b#each a as b\x7d<svelte:element this=\x7bt\x7d><i/></svelte:element>"
    ++ "\x7b:else\x7d<svelte:head><b/></svelte:head>\x7b/each\x7d</Card><p/>"

theorem elements_preorder_nestedPage :
    let f := (read nestedPage).document.fragment
    f.elements.map ElementView.name = ["svelte:element", "i", "b", "p"] ∧
      f.elements = f.nodes.flatMap (fun n => n.element?.toList ++ n.fragments.flatMap Fragment.elements) ∧
      (∃ addresses, Addressed f.nodes addresses ∧ addresses.length = 4) ∧ Visits f.nodes f.elements := by
  intro f
  have hnames : f.elements.map ElementView.name = ["svelte:element", "i", "b", "p"] := by decide +kernel
  obtain ⟨hfirst, ⟨addresses, haddressed⟩, hvisits⟩ := elements_preorder f
  have hlength : addresses.length = f.elements.length := by
    simpa [Fragment.elements] using congrArg List.length haddressed.elements
  have hcount : f.elements.length = 4 := by simpa using congrArg List.length hnames
  exact ⟨hnames, hfirst, ⟨addresses, haddressed, hlength.trans hcount⟩, hvisits⟩

end Restyle.Markup
