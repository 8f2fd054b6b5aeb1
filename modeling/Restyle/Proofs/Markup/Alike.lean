import Restyle.Proofs.Markup.Walk

/-! Trees that are alike. Two trees are alike if they are the same apart from places and from the attributes, and
if a given relation compares the attributes; the walk then shows the same elements in both. Two constructs that
are open are alike if the same tags close and continue them, and if what they hold so far is alike. -/

namespace Restyle.Markup

variable {R : List Attribute → List Attribute → Prop}

/-! ### Nodes -/

mutual

/-- The nodes are of one kind, with the same texts, with attributes that compare and alike nodes in them. -/
inductive Node.Like (R : List Attribute → List Attribute → Prop) : Node → Node → Prop where
  | element (span span' : Span) (name : String) {as as' : List Attribute} {content content' : Fragment}
    (selfClosing : Bool) (has : R as as') (hcontent : LikeNodes R content.nodes content'.nodes) :
    Node.Like R (.element span name as content selfClosing) (.element span' name as' content' selfClosing)
  | component (span span' : Span) (name : String) {as as' : List Attribute} {content content' : Fragment}
    (selfClosing : Bool) (has : R as as') (hcontent : LikeNodes R content.nodes content'.nodes) :
    Node.Like R (.component span name as content selfClosing) (.component span' name as' content' selfClosing)
  | special (span span' : Span) (kind : SpecialElement) (name : String) {as as' : List Attribute}
    {content content' : Fragment} (has : R as as') (hcontent : LikeNodes R content.nodes content'.nodes) :
    Node.Like R (.special span kind name as content) (.special span' kind name as' content')
  | text (span span' : Span) (data : String) : Node.Like R (.text span data) (.text span' data)
  | comment (span span' : Span) (data : String) : Node.Like R (.comment span data) (.comment span' data)
  | expression (span span' : Span) {e e' : Expression} (he : e'.text = e.text) :
    Node.Like R (.expression span e) (.expression span' e')
  | tag (span span' : Span) (kind : TagKind) {e e' : Expression} (he : e'.text = e.text) :
    Node.Like R (.tag span kind e) (.tag span' kind e')
  | ifBlock (span span' : Span) (elseif : Bool) {test test' : Expression} {consequent consequent' : Fragment}
    {alternate alternate' : Option Fragment} (htest : test'.text = test.text)
    (hconsequent : LikeNodes R consequent.nodes consequent'.nodes) (halternate : LikeBranch R alternate alternate') :
    Node.Like R (.ifBlock span elseif test consequent alternate) (.ifBlock span' elseif test' consequent' alternate')
  | eachBlock (span span' : Span) {header header' : Expression} {body body' : Fragment}
    {fallback fallback' : Option Fragment} (hheader : header'.text = header.text)
    (hbody : LikeNodes R body.nodes body'.nodes) (hfallback : LikeBranch R fallback fallback') :
    Node.Like R (.eachBlock span header body fallback) (.eachBlock span' header' body' fallback')
  | awaitBlock (span span' : Span) {header header' : Expression}
    {pending resolved failed pending' resolved' failed' : Option Fragment} (hheader : header'.text = header.text)
    (hpending : LikeBranch R pending pending') (hresolved : LikeBranch R resolved resolved')
    (hfailed : LikeBranch R failed failed') :
    Node.Like R (.awaitBlock span header pending resolved failed) (.awaitBlock span' header' pending' resolved' failed')
  | keyBlock (span span' : Span) {value value' : Expression} {body body' : Fragment}
    (hvalue : value'.text = value.text) (hbody : LikeNodes R body.nodes body'.nodes) :
    Node.Like R (.keyBlock span value body) (.keyBlock span' value' body')
  | snippetBlock (span span' : Span) (name parameters : String) {body body' : Fragment}
    (hbody : LikeNodes R body.nodes body'.nodes) :
    Node.Like R (.snippetBlock span name parameters body) (.snippetBlock span' name parameters body')

/-- Nodes that are alike one by one. -/
inductive LikeNodes (R : List Attribute → List Attribute → Prop) : List Node → List Node → Prop where
  | nil : LikeNodes R [] []
  | cons {n n' : Node} {nodes nodes' : List Node} (hn : Node.Like R n n')
    (h : LikeNodes R nodes nodes') : LikeNodes R (n :: nodes) (n' :: nodes')

/-- Branches that are both there, with alike nodes, or both missing. -/
inductive LikeBranch (R : List Attribute → List Attribute → Prop) : Option Fragment → Option Fragment → Prop where
  | none : LikeBranch R none none
  | some {f f' : Fragment} (h : LikeNodes R f.nodes f'.nodes) : LikeBranch R (some f) (some f')

end

namespace LikeNodes

variable {nodes nodes' more more' : List Node} {n n' : Node}

theorem singleton (h : n.Like R n') : LikeNodes R [n] [n'] := .cons h .nil

theorem append : ∀ {nodes nodes' : List Node}, LikeNodes R nodes nodes' → LikeNodes R more more' →
    LikeNodes R (nodes ++ more) (nodes' ++ more')
  | _, _, .nil, h' => h'
  | _, _, .cons hn h, h' => .cons hn (h.append h')

/-- Nodes one after the other, newest first. -/
theorem cons_reverse (h : LikeNodes R nodes.reverse nodes'.reverse) (hn : n.Like R n') :
    LikeNodes R (n :: nodes).reverse (n' :: nodes').reverse := by
  rw [List.reverse_cons, List.reverse_cons]
  exact h.append (.singleton hn)

end LikeNodes

/-- What an element is depends on its name only. -/
theorem like_elementNode {c c' : Cursor} {start start' : Nat} {name : String} {as as' : List Attribute}
    {content content' : Fragment} {selfClosing : Bool} (has : R as as')
    (hcontent : LikeNodes R content.nodes content'.nodes) :
    (elementNode c start name as content selfClosing).1.Like R
      (elementNode c' start' name as' content' selfClosing).1 := by
  have hplain : (if isComponentName name then Node.component (c.spanFrom start) name as content selfClosing
      else .element (c.spanFrom start) name as content selfClosing).Like R
        (if isComponentName name then .component (c'.spanFrom start') name as' content' selfClosing
          else .element (c'.spanFrom start') name as' content' selfClosing) := by
    split
    · exact .component _ _ name selfClosing has hcontent
    · exact .element _ _ name selfClosing has hcontent
  unfold elementNode
  dsimp only
  split
  · exact hplain
  · split
    · exact .special _ _ _ name has hcontent
    · exact hplain

/-! ### Elements of alike trees -/

/-- The elements have the same name, and their attributes compare. -/
def ElementView.Like (R : List Attribute → List Attribute → Prop) (e e' : ElementView) : Prop :=
  e'.name = e.name ∧ R e.attributes e'.attributes

theorem LikeBranch.nodes {f f' : Option Fragment} (h : LikeBranch R f f') :
    LikeNodes R (f.toList.flatMap Fragment.nodes) (f'.toList.flatMap Fragment.nodes) := by
  cases h with
  | none => exact .nil
  | some h => simpa using h

theorem Node.Like.children {n n' : Node} (h : n.Like R n') : LikeNodes R n.children n'.children := by
  cases h with
  | element _ _ _ _ _ hcontent => simpa [Node.children, Node.fragments] using hcontent
  | component _ _ _ _ _ hcontent => simpa [Node.children, Node.fragments] using hcontent
  | special _ _ _ _ _ hcontent => simpa [Node.children, Node.fragments] using hcontent
  | ifBlock _ _ _ _ hconsequent halternate => exact hconsequent.append halternate.nodes
  | eachBlock _ _ _ hbody hfallback => exact hbody.append hfallback.nodes
  | awaitBlock _ _ _ hpending hresolved hfailed =>
    simp only [Node.children, Node.fragments, List.flatMap_append]
    exact (hpending.nodes.append hresolved.nodes).append hfailed.nodes
  | keyBlock _ _ _ hbody => simpa [Node.children, Node.fragments] using hbody
  | snippetBlock _ _ _ _ hbody => simpa [Node.children, Node.fragments] using hbody
  | _ => exact .nil

theorem Node.Like.element? {n n' : Node} (h : n.Like R n') :
    List.Forall₂ (ElementView.Like R) n.element?.toList n'.element?.toList := by
  cases h with
  | element _ _ _ _ has _ => exact .cons ⟨rfl, has⟩ .nil
  | special _ _ kind _ has _ =>
    cases kind with
    | element => exact .cons ⟨rfl, has⟩ .nil
    | _ => exact .nil
  | _ => exact .nil

/-- The walk shows the same elements, one by one. -/
theorem LikeNodes.walk {nodes nodes' : List Node} (h : LikeNodes R nodes nodes') :
    List.Forall₂ (ElementView.Like R) (Markup.walk nodes) (Markup.walk nodes') := by
  fun_induction Markup.walk nodes generalizing nodes' with
  | case1 =>
    cases h
    rw [Markup.walk]
    exact .nil
  | case2 n rest ih =>
    cases h with
    | cons hn hrest =>
      rw [Markup.walk]
      exact List.rel_append hn.element? (ih (hn.children.append hrest))

/-! ### Open constructs -/

/-- The slot apart from the place where it was begun. -/
def AwaitSlot.unplaced : AwaitSlot → AwaitSlot
  | .unknown keyword _ => .unknown keyword (.point 0)
  | slot => slot

/-- The slot is one that await blocks have. -/
def AwaitSlot.isKnown : AwaitSlot → Bool
  | .unknown .. => false
  | _ => true

theorem AwaitSlot.isKnown_unplaced (slot : AwaitSlot) : slot.unplaced.isKnown = slot.isKnown := by
  cases slot <;> rfl

structure AwaitBranches.Like (R : List Attribute → List Attribute → Prop) (b b' : AwaitBranches) : Prop where
  pending : LikeBranch R b.pending b'.pending
  resolved : LikeBranch R b.resolved b'.resolved
  failed : LikeBranch R b.failed b'.failed

theorem AwaitBranches.Like.empty : AwaitBranches.Like R {} {} := ⟨.none, .none, .none⟩

/-- One more branch. -/
theorem AwaitBranches.Like.store {b b' : AwaitBranches} {c c' : Cursor} {f f' : Fragment} {slot slot' : AwaitSlot}
    (h : b.Like R b') (hslot : slot'.unplaced = slot.unplaced) (hf : LikeNodes R f.nodes f'.nodes) :
    (Reader.storeBranch b c f slot).1.Like R (Reader.storeBranch b' c' f' slot').1 := by
  cases slot <;> cases slot' <;> cases hslot
  · exact ⟨.some hf, h.resolved, h.failed⟩
  · exact ⟨h.pending, .some hf, h.failed⟩
  · exact ⟨h.pending, h.resolved, .some hf⟩
  · exact h

/-- Two open constructs that are closed and continued by the same tags, and hold alike nodes. -/
inductive Opened.Like (R : List Attribute → List Attribute → Prop) : Opened → Opened → Prop where
  | element (name : String) {as as' : List Attribute} (h : R as as') : Like R (.element name as) (.element name as')
  | consequent (elseif : Bool) {e e' : Expression} (he : e'.text = e.text) :
    Like R (.consequent elseif e) (.consequent elseif e')
  | alternate (elseif : Bool) {e e' : Expression} (he : e'.text = e.text) {f f' : Fragment}
    (h : LikeNodes R f.nodes f'.nodes) : Like R (.alternate elseif e f) (.alternate elseif e' f')
  | chain (elseif : Bool) {e e' : Expression} (he : e'.text = e.text) {f f' : Fragment}
    (h : LikeNodes R f.nodes f'.nodes) : Like R (.chain elseif e f) (.chain elseif e' f')
  | eachBody {e e' : Expression} (he : e'.text = e.text) : Like R (.eachBody e) (.eachBody e')
  | eachFallback {e e' : Expression} (he : e'.text = e.text) {f f' : Fragment} (h : LikeNodes R f.nodes f'.nodes) :
    Like R (.eachFallback e f) (.eachFallback e' f')
  | awaitBranch {e e' : Expression} (he : e'.text = e.text) {b b' : AwaitBranches} {slot slot' : AwaitSlot}
    (h : b.Like R b') (hslot : slot'.unplaced = slot.unplaced) :
    Like R (.awaitBranch e b slot) (.awaitBranch e' b' slot')
  | key {e e' : Expression} (he : e'.text = e.text) : Like R (.key e) (.key e')
  | snippet (name parameters : String) : Like R (.snippet name parameters) (.snippet name parameters)

/-- Two frames of constructs that are alike, with alike nodes in the fragments that are being read. -/
structure Frame.Like (R : List Attribute → List Attribute → Prop) (f f' : Frame) : Prop where
  opened : f.opened.Like R f'.opened
  nodes : LikeNodes R f.nodes.reverse f'.nodes.reverse

/-- Two finds that leave alike frames open, or alike nodes behind. -/
inductive Found.Like (R : List Attribute → List Attribute → Prop) : Found → Found → Prop where
  | node {n n' : Node} (h : n.Like R n') : Like R (.node n) (.node n')
  | opened {f f' : Frame} (h : f.Like R f') : Like R (.opened f) (.opened f')

/-- Two constructs that have just been opened. -/
theorem Found.Like.of_opened {opened opened' : Opened} (h : opened.Like R opened') (start start' offset offset' : Nat) :
    Found.Like R (.opened ⟨opened, start, offset, []⟩) (.opened ⟨opened', start', offset', []⟩) :=
  .opened ⟨h, .nil⟩

end Restyle.Markup
