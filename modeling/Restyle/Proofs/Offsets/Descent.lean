import Restyle.Proofs.Markup.Contents
import Restyle.Proofs.Markup.Descent
import Restyle.Proofs.Offsets.Nodes

/-! Nodes, fragments and blocks by byte offsets. They are read by recursion, and each call further in has to
be further on in the text, or it traps. -/

namespace Restyle.Markup

open Text

namespace Offsets

variable (cs : List Char)

/-! ### The end of a fragment -/

namespace Spot

/-- The node of an if block that has been read up to its closing tag. -/
def ifNode (start : Nat) (elseif : Bool) (test : Expression) (consequent : Fragment) (alternate : Option Fragment)
    (s : Spot) : Checked (Node × Spot) := do
  let s' ← if elseif then pure s else s.closeBlock cs "if" start
  return (.ifBlock (s'.spanFrom start) elseif test consequent alternate, s')

/-- The test of an else-if branch, by the keyword of its tag and the text after it. -/
def elseIfTest? (keyword : String) (rest : Expression) : Checked (Option Expression) :=
  match strip? ['i', 'f'] rest.text.toList with
  | some (c :: _) => if keyword = "else" ∧ isSpace c then suffix? cs rest ['i', 'f'] else .ok none
  | _ => .ok none

def unexpected (block keyword : String) (span : Span) (s : Spot) : Spot :=
  (s.cursor.unexpectedContinuation block keyword span).spot

/-- A branch of an each block has ended. -/
def leavingEach (start : Nat) (header : Expression) (body : Fragment) (fallback : Option Fragment) (s : Spot) :
    Checked (Left × Spot) := do
  let next ← s.continuation? cs
  match next.1 with
  | some (keyword, rest) =>
    return (.next (.eachFallback header body), if keyword = "else" && rest.text = "" then next.2
      else next.2.unexpected "each" keyword rest.span)
  | none =>
    let s' ← next.2.closeBlock cs "each" start
    return (.done (.eachBlock (s'.spanFrom start) header body fallback), s')

/-- The first branch of an if block has ended. -/
def leavingConsequent (start : Nat) (elseif : Bool) (test : Expression) (content : Fragment) (s : Spot) :
    Checked (Left × Spot) := do
  let next ← s.continuation? cs
  match next.1 with
  | none =>
    let block ← next.2.ifNode cs start elseif test content none
    return (.done block.1, block.2)
  | some (keyword, rest) =>
    match ← elseIfTest? cs keyword rest with
    | some test' => return (.branch elseif test content test', next.2)
    | none =>
      return (.next (.alternate elseif test content), if keyword = "else" && rest.text = "" then next.2
        else next.2.unexpected "if" keyword rest.span)

/-- A branch of an await block has ended. -/
def leavingAwait (start : Nat) (header : Expression) (branches : AwaitBranches) (slot : AwaitSlot)
    (content : Fragment) (s : Spot) : Checked (Left × Spot) := do
  let stored := Reader.storeBranch branches s.cursor content slot
  let next ← stored.2.spot.continuation? cs
  match next.1 with
  | some (keyword, rest) =>
    return (.next (.awaitBranch header stored.1 (Reader.awaitSlot keyword rest.span)), next.2)
  | none =>
    let s' ← next.2.closeBlock cs "await" start
    return (.done (.awaitBlock (s'.spanFrom start) header stored.1.pending stored.1.resolved stored.1.failed), s')

/-- The fragment that was being read in a construct has ended. -/
def leaving (opened : Opened) (start : Nat) (content : Fragment) (s : Spot) : Checked (Left × Spot) :=
  match opened with
  | .element name attributes => do
    let node := elementNode (← s.closeTag cs name start).cursor start name attributes content false
    return (.done node.1, node.2.spot)
  | .consequent elseif test => s.leavingConsequent cs start elseif test content
  | .alternate elseif test consequent => do
    let block ← s.ifNode cs start elseif test consequent (some content)
    return (.done block.1, block.2)
  | .chain elseif test consequent => do
    let block ← s.ifNode cs start elseif test consequent none
    return (.done block.1, block.2)
  | .eachBody header => s.leavingEach cs start header content none
  | .eachFallback header body => s.leavingEach cs start header body (some content)
  | .awaitBranch header branches slot => s.leavingAwait cs start header branches slot content
  | .key value => do
    let s' ← s.closeBlock cs "key" start
    return (.done (.keyBlock (s'.spanFrom start) value content), s')
  | .snippet name parameters => do
    let s' ← s.closeBlock cs "snippet" start
    return (.done (.snippetBlock (s'.spanFrom start) name parameters content), s')

/-! ### The recursion -/

mutual

/-- One node, with all that is in it; none if there is something faulty that leaves no node. -/
def node (s : Spot) : Checked (Option Node × Spot) := do
  let found ← s.readNode cs
  match found.1 with
  | .node n => return (some n, found.2)
  | .nothing => return (none, found.2)
  | .opened f =>
    if _h : s.Ahead cs found.2 then
      let n ← construct f.opened f.start found.2
      return (some n.1, n.2)
    else throw .stuck
termination_by (width cs - s.offset, 0)
decreasing_by exact .left _ _ _h.closer

/-- Nodes up to a tag that ends the fragment. -/
def fragment (s : Spot) : Checked (List Node × Spot) := do
  if ← s.endsFragment cs then return ([], s)
  else
    let first ← node s
    if _h : s.Ahead cs first.2 then
      let more ← fragment first.2
      return (first.1.toList ++ more.1, more.2)
    else throw .stuck
termination_by (width cs - s.offset, 1)
decreasing_by
  · exact .right _ Nat.zero_lt_one
  · exact .left _ _ _h.closer

/-- What is left of a construct that starts at an offset, from the beginning of a fragment of it on. -/
def construct (opened : Opened) (start : Nat) (s : Spot) : Checked (Node × Spot) := do
  let content ← fragment s
  let left ← content.2.leaving cs opened start ⟨content.1, content.2.spanFrom s.offset⟩
  match left.1 with
  | .done n => return (n, left.2)
  | .next opened' =>
    if _h : s.Ahead cs left.2 then construct opened' start left.2 else throw .stuck
  | .branch elseif test consequent test' =>
    if _h : s.Ahead cs left.2 then
      let inner ← construct (.consequent true test') content.2.offset left.2
      inner.2.ifNode cs start elseif test consequent (some ⟨[inner.1], inner.1.span⟩)
    else throw .stuck
termination_by (width cs - s.offset, 2)
decreasing_by
  · exact .right _ Nat.one_lt_two
  · exact .left _ _ _h.closer
  · exact .left _ _ _h.closer

end

end Spot

end Offsets

namespace Cursor

open Offsets

/-! ### What the cursor does -/

section leaving

variable {cs : List Char} {source : String} {c : Cursor} {start : Nat}

theorem On.ifNode (h : c.On cs) (start : Nat) (elseif : Bool) (test : Expression) (consequent : Fragment)
    (alternate : Option Fragment) : c.spot.ifNode cs start elseif test consequent alternate
      = .ok ((Reader.ifNode c start elseif test consequent alternate).1,
        (Reader.ifNode c start elseif test consequent alternate).2.spot) := by
  cases elseif with
  | true => rfl
  | false =>
    simp only [Spot.ifNode, Bool.false_eq_true, if_false, h.closeBlock, ok_bind]
    rfl

theorem elseIfTest?_eq (hsmall : width source.toList < 0x100000000) {rest : Expression} (h : rest.Placed source)
    (keyword : String) : Spot.elseIfTest? source.toList keyword rest
      = .ok (if keyword = "else" then Reader.elseIfTest? rest else none) := by
  rw [Spot.elseIfTest?, Reader.elseIfTest?, suffix?_eq hsmall h]
  cases hstrip : strip? ['i', 'f'] rest.text.toList with
  | none => simp
  | some tail =>
    cases tail with
    | nil => simp
    | cons d ds =>
      by_cases hkeyword : keyword = "else"
      · cases hd : isSpace d with
        | true =>
          simp only [hkeyword, hd, and_self, if_true, Option.map_some]
          rfl
        | false => simp [hd]
      · simp [hkeyword]

theorem On.leavingEach (h : c.On cs) (header : Expression) (body : Fragment) (fallback : Option Fragment) :
    c.spot.leavingEach cs start header body fallback
      = .ok ((leavingEach start header body fallback c).1, (leavingEach start header body fallback c).2.spot) := by
  have hnext := h.reaches (reaches_continuation? c)
  rw [Spot.leavingEach, h.continuation?, ok_bind]
  unfold Markup.leavingEach
  dsimp only
  cases c.continuation?.1 with
  | none =>
    simp only [hnext.closeBlock, ok_bind]
    rfl
  | some next =>
    dsimp only
    split <;> rfl

theorem On.leavingConsequent (h : c.On source.toList) (hsmall : width source.toList < 0x100000000) (elseif : Bool)
    (test : Expression) (content : Fragment) : c.spot.leavingConsequent source.toList start elseif test content
      = .ok ((leavingConsequent start elseif test content c).1,
        (leavingConsequent start elseif test content c).2.spot) := by
  have hnext := h.reaches (reaches_continuation? c)
  rw [Spot.leavingConsequent, h.continuation?, ok_bind]
  unfold Markup.leavingConsequent
  dsimp only
  cases hcontinuation : c.continuation?.1 with
  | none =>
    simp only [hnext.ifNode, ok_bind]
    rfl
  | some next =>
    obtain ⟨keyword, rest⟩ := next
    dsimp only
    rw [elseIfTest?_eq hsmall (placed_continuation? h hcontinuation), ok_bind]
    cases if keyword = "else" then Reader.elseIfTest? rest else none with
    | some test' => rfl
    | none =>
      dsimp only
      split <;> rfl

theorem On.leavingAwait (h : c.On cs) (header : Expression) (branches : AwaitBranches) (slot : AwaitSlot)
    (content : Fragment) : c.spot.leavingAwait cs start header branches slot content
      = .ok ((leavingAwait start header branches slot content c).1,
        (leavingAwait start header branches slot content c).2.spot) := by
  have hstored := h.reaches (Reader.reaches_storeBranch branches c content slot)
  have hnext := hstored.reaches (reaches_continuation? _)
  have hbranches : (Reader.storeBranch branches c.spot.cursor content slot).1
      = (Reader.storeBranch branches c content slot).1 := by
    cases slot <;> rfl
  have hspot : (Reader.storeBranch branches c.spot.cursor content slot).2.spot
      = (Reader.storeBranch branches c content slot).2.spot := by
    cases slot <;> rfl
  simp only [Spot.leavingAwait, hbranches, hspot, hstored.continuation?, ok_bind]
  unfold Markup.leavingAwait
  dsimp only
  cases (Reader.storeBranch branches c content slot).2.continuation?.1 with
  | none =>
    simp only [hnext.closeBlock, ok_bind]
    rfl
  | some next => rfl

/-- A construct whose fragment has ended is left as the cursor leaves it. -/
theorem On.leaving (h : c.On source.toList) (hsmall : width source.toList < 0x100000000) (opened : Opened)
    (start : Nat) (content : Fragment) : c.spot.leaving source.toList opened start content
      = .ok ((leaving opened start content c).1, (leaving opened start content c).2.spot) := by
  cases opened with
  | element name attributes =>
    obtain ⟨hnode, hspot⟩ := elementNode_spot start name attributes content false (c.closeTag name start)
    simp only [Spot.leaving, h.closeTag, ok_bind, Markup.leaving, hnode, hspot, pure_eq_ok]
  | consequent elseif test => exact h.leavingConsequent hsmall elseif test content
  | alternate elseif test consequent =>
    simp only [Spot.leaving, h.ifNode, ok_bind, Markup.leaving, pure_eq_ok]
  | chain elseif test consequent =>
    simp only [Spot.leaving, h.ifNode, ok_bind, Markup.leaving, pure_eq_ok]
  | eachBody header => exact h.leavingEach header content none
  | eachFallback header body => exact h.leavingEach header body (some content)
  | awaitBranch header branches slot => exact h.leavingAwait header branches slot content
  | key value =>
    simp only [Spot.leaving, h.closeBlock, ok_bind, Markup.leaving]
    rfl
  | snippet name parameters =>
    simp only [Spot.leaving, h.closeBlock, ok_bind, Markup.leaving]
    rfl

end leaving

/-! ### Every job is done without a trap -/

section descent

variable {source : String} {job : Job} {c c' : Cursor} {ns : List Node}

/-- The job is done from offset to offset. -/
def Performs (cs : List Char) (job : Job) (c : Cursor) (ns : List Node) (c' : Cursor) : Prop :=
  match job with
  | .node => ∃ n, ns = n.toList ∧ c.spot.node cs = .ok (n, c'.spot)
  | .fragment => c.spot.fragment cs = .ok (ns, c'.spot)
  | .rest opened start => ∃ n, ns = [n] ∧ c.spot.construct cs opened start = .ok (n, c'.spot)

/-- What is further on after a fragment is further on from its beginning. -/
theorem On.ahead_of_left {cs : List Char} {c₁ c₂ : Cursor} {left : Left} (h : c.On cs) (hreach : c.Reaches c₁)
    (hfurther : left.Further c₁ c₂) (hgoes : ∀ n, left ≠ .done n) : c.spot.Ahead cs c₂.spot :=
  h.ahead (hreach.trans hfurther.reaches) (Nat.lt_of_lt_of_le (hfurther.shorter hgoes) hreach.length_le)

theorem performs_of_yields (hsmall : width source.toList < 0x100000000) (h : Yields job c ns c')
    (hon : c.On source.toList) (hne : job = .node → c.rest ≠ []) : Performs source.toList job c ns c' := by
  induction h with
  | @leaf c n hfound =>
    refine ⟨some n, rfl, ?_⟩
    rw [Spot.node, hon.readNode hsmall, ok_bind]
    simp only [hfound, pure_eq_ok]
  | @nothing c hfound =>
    refine ⟨none, rfl, ?_⟩
    rw [Spot.node, hon.readNode hsmall, ok_bind]
    simp only [hfound, pure_eq_ok]
  | @opened c c' f ns hfound hrest ih =>
    have hreach := reaches_readNode c
    have hahead : c.spot.Ahead source.toList (readNode c).2.spot := hon.ahead hreach (length_readNode (hne rfl))
    obtain ⟨n, rfl, hconstruct⟩ := ih (hon.reaches hreach) (by rintro ⟨⟩)
    refine ⟨some n, rfl, ?_⟩
    rw [Spot.node, hon.readNode hsmall, ok_bind]
    simp only [hfound, dif_pos hahead, hconstruct, ok_bind, pure_eq_ok]
  | @ends c hends =>
    show c.spot.fragment source.toList = _
    rw [Spot.fragment, hon.endsFragment, ok_bind, hends]
    rfl
  | @more c c₁ c₂ ns ms hends hnode hmore ih ih' =>
    have hc := rest_ne_nil hends
    have hahead : c.spot.Ahead source.toList c₁.spot := hon.ahead hnode.reaches (hnode.length_lt hc)
    obtain ⟨n, rfl, hfirst⟩ := ih hon fun _ => hc
    have hrest : c₁.spot.fragment source.toList = .ok (ms, c₂.spot) := ih' (hon.reaches hnode.reaches) (by rintro ⟨⟩)
    show c.spot.fragment source.toList = _
    rw [Spot.fragment, hon.endsFragment, ok_bind, hends]
    simp only [Bool.false_eq_true, if_false, hfirst, ok_bind, dif_pos hahead, hrest, pure_eq_ok]
  | @done opened start c c₁ c₂ ns n hcontent hleave ih =>
    have hfragment : c.spot.fragment source.toList = .ok (ns, c₁.spot) := ih hon (by rintro ⟨⟩)
    have hleaving := (hon.reaches hcontent.reaches).leaving hsmall opened start ⟨ns, c₁.spanFrom c.offset⟩
    rw [hleave] at hleaving
    refine ⟨n, rfl, ?_⟩
    rw [Spot.construct, hfragment, ok_bind]
    simp only [spanFrom_spot, offset_spot, hleaving, ok_bind, pure_eq_ok]
  | @next opened opened' start c c₁ c₂ c₃ ns ms hcontent hleave hrest ih ih' =>
    have hfragment : c.spot.fragment source.toList = .ok (ns, c₁.spot) := ih hon (by rintro ⟨⟩)
    have hleaving := (hon.reaches hcontent.reaches).leaving hsmall opened start ⟨ns, c₁.spanFrom c.offset⟩
    have hfurther := further_of_leaving hleave
    rw [hleave] at hleaving
    have hahead := hon.ahead_of_left hcontent.reaches hfurther (by rintro n ⟨⟩)
    obtain ⟨n, rfl, hconstruct⟩ := ih' (hon.reaches (hcontent.reaches.trans hfurther.reaches)) (by rintro ⟨⟩)
    refine ⟨n, rfl, ?_⟩
    rw [Spot.construct, hfragment, ok_bind]
    simp only [spanFrom_spot, offset_spot, hleaving, ok_bind, dif_pos hahead, hconstruct]
  | @branch opened start c c₁ c₂ c₃ ns n elseif test test' consequent hcontent hleave hrest ih ih' =>
    have hfragment : c.spot.fragment source.toList = .ok (ns, c₁.spot) := ih hon (by rintro ⟨⟩)
    have hleaving := (hon.reaches hcontent.reaches).leaving hsmall opened start ⟨ns, c₁.spanFrom c.offset⟩
    have hfurther := further_of_leaving hleave
    rw [hleave] at hleaving
    have hahead := hon.ahead_of_left hcontent.reaches hfurther (by rintro n ⟨⟩)
    have hon₂ := hon.reaches (hcontent.reaches.trans hfurther.reaches)
    obtain ⟨n', heq, hconstruct⟩ := ih' hon₂ (by rintro ⟨⟩)
    obtain rfl := (List.cons.inj heq).1
    refine ⟨_, rfl, ?_⟩
    rw [Spot.construct, hfragment, ok_bind]
    simp only [spanFrom_spot, offset_spot, hleaving, ok_bind, dif_pos hahead, hconstruct,
      (hon₂.reaches hrest.reaches).ifNode]

end descent

end Cursor

end Restyle.Markup
