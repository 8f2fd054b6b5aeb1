import Restyle.Proofs.Markup.Nodes

/-! What becomes of a construct when a fragment of it has ended: its closing tag is read and its node is done, or a
continuation is read and its next branch begins. This is told of the construct alone, whatever the frames around it;
what the reader does to its frames then follows from it. -/

namespace Restyle.Markup

open Text Cursor

/-- What happens to a construct when a fragment of it has ended. -/
inductive Left where
  | done (n : Node)
  /-- The next branch begins. -/
  | next (opened : Opened)
  /-- An else-if block begins, which is all of the last branch. -/
  | branch (elseif : Bool) (test : Expression) (consequent : Fragment) (test' : Expression)

/-- A branch of an each block has ended. -/
def leavingEach (start : Nat) (header : Expression) (body : Fragment) (fallback : Option Fragment) (c : Cursor) :
    Left × Cursor :=
  let next := c.continuation?
  match next.1 with
  | some (keyword, rest) =>
    (.next (.eachFallback header body), if keyword = "else" && rest.text = "" then next.2
      else next.2.unexpectedContinuation "each" keyword rest.span)
  | none =>
    let c' := next.2.closeBlock "each" start
    (.done (.eachBlock (c'.spanFrom start) header body fallback), c')

/-- The first branch of an if block has ended. -/
def leavingConsequent (start : Nat) (elseif : Bool) (test : Expression) (content : Fragment) (c : Cursor) :
    Left × Cursor :=
  let next := c.continuation?
  match next.1 with
  | none =>
    let block := Reader.ifNode next.2 start elseif test content none
    (.done block.1, block.2)
  | some (keyword, rest) =>
    match if keyword = "else" then Reader.elseIfTest? rest else none with
    | some test' => (.branch elseif test content test', next.2)
    | none =>
      (.next (.alternate elseif test content), if keyword = "else" && rest.text = "" then next.2
        else next.2.unexpectedContinuation "if" keyword rest.span)

/-- A branch of an await block has ended. -/
def leavingAwait (start : Nat) (header : Expression) (branches : AwaitBranches) (slot : AwaitSlot)
    (content : Fragment) (c : Cursor) : Left × Cursor :=
  let stored := Reader.storeBranch branches c content slot
  let next := stored.2.continuation?
  match next.1 with
  | some (keyword, rest) => (.next (.awaitBranch header stored.1 (Reader.awaitSlot keyword rest.span)), next.2)
  | none =>
    let c' := next.2.closeBlock "await" start
    (.done (.awaitBlock (c'.spanFrom start) header stored.1.pending stored.1.resolved stored.1.failed), c')

/-- The fragment that was being read in a construct has ended. -/
def leaving (opened : Opened) (start : Nat) (content : Fragment) (c : Cursor) : Left × Cursor :=
  match opened with
  | .element name attributes =>
    let node := elementNode (c.closeTag name start) start name attributes content false
    (.done node.1, node.2)
  | .consequent elseif test => leavingConsequent start elseif test content c
  | .alternate elseif test consequent =>
    let block := Reader.ifNode c start elseif test consequent (some content)
    (.done block.1, block.2)
  | .chain elseif test consequent =>
    let block := Reader.ifNode c start elseif test consequent none
    (.done block.1, block.2)
  | .eachBody header => leavingEach start header content none c
  | .eachFallback header body => leavingEach start header body (some content) c
  | .awaitBranch header branches slot => leavingAwait start header branches slot content c
  | .key value =>
    let c' := c.closeBlock "key" start
    (.done (.keyBlock (c'.spanFrom start) value content), c')
  | .snippet name parameters =>
    let c' := c.closeBlock "snippet" start
    (.done (.snippetBlock (c'.spanFrom start) name parameters content), c')

/-- An each block one of whose branches has ended, with the branches that it has then. -/
inductive EachEnds (content : Fragment) : Opened → Expression → Fragment → Option Fragment → Prop where
  | body (header : Expression) : EachEnds content (.eachBody header) header content none
  | fallback (header : Expression) (body : Fragment) :
    EachEnds content (.eachFallback header body) header body (some content)

/-- The ways out of a fragment: what becomes of the construct, and the cursor behind the tag that was read for it. -/
inductive Leaves (start : Nat) (content : Fragment) (c : Cursor) : Opened → Left → Cursor → Prop where
  | element (name : String) (attributes : List Attribute) :
    Leaves start content c (.element name attributes)
      (.done (elementNode (c.closeTag name start) start name attributes content false).1)
      (elementNode (c.closeTag name start) start name attributes content false).2
  | endIf (elseif : Bool) (test : Expression) : c.continuation?.1 = none →
    Leaves start content c (.consequent elseif test)
      (.done (Reader.ifNode c.continuation?.2 start elseif test content none).1)
      (Reader.ifNode c.continuation?.2 start elseif test content none).2
  | elseIf (elseif : Bool) (test : Expression) {rest test' : Expression} : c.continuation?.1 = some ("else", rest) →
    Reader.elseIfTest? rest = some test' →
    Leaves start content c (.consequent elseif test) (.branch elseif test content test') c.continuation?.2
  | orElse (elseif : Bool) (test : Expression) {keyword : String} {rest : Expression} :
    c.continuation?.1 = some (keyword, rest) → (keyword = "else" → Reader.elseIfTest? rest = none) →
    Leaves start content c (.consequent elseif test) (.next (.alternate elseif test content))
      (if keyword = "else" && rest.text = "" then c.continuation?.2
        else c.continuation?.2.unexpectedContinuation "if" keyword rest.span)
  | alternate (elseif : Bool) (test : Expression) (consequent : Fragment) :
    Leaves start content c (.alternate elseif test consequent)
      (.done (Reader.ifNode c start elseif test consequent (some content)).1)
      (Reader.ifNode c start elseif test consequent (some content)).2
  | chain (elseif : Bool) (test : Expression) (consequent : Fragment) :
    Leaves start content c (.chain elseif test consequent)
      (.done (Reader.ifNode c start elseif test consequent none).1) (Reader.ifNode c start elseif test consequent none).2
  | endEach {opened : Opened} {header : Expression} {body : Fragment} {fallback : Option Fragment} :
    EachEnds content opened header body fallback → c.continuation?.1 = none →
    Leaves start content c opened
      (.done (.eachBlock ((c.continuation?.2.closeBlock "each" start).spanFrom start) header body fallback))
      (c.continuation?.2.closeBlock "each" start)
  | eachElse {opened : Opened} {header : Expression} {body : Fragment} {fallback : Option Fragment} {keyword : String}
      {rest : Expression} : EachEnds content opened header body fallback →
    c.continuation?.1 = some (keyword, rest) →
    Leaves start content c opened (.next (.eachFallback header body))
      (if keyword = "else" && rest.text = "" then c.continuation?.2
        else c.continuation?.2.unexpectedContinuation "each" keyword rest.span)
  | endAwait (header : Expression) (branches : AwaitBranches) (slot : AwaitSlot) {stored : AwaitBranches × Cursor} :
    Reader.storeBranch branches c content slot = stored → stored.2.continuation?.1 = none →
    Leaves start content c (.awaitBranch header branches slot)
      (.done (.awaitBlock ((stored.2.continuation?.2.closeBlock "await" start).spanFrom start) header stored.1.pending
        stored.1.resolved stored.1.failed)) (stored.2.continuation?.2.closeBlock "await" start)
  | awaitNext (header : Expression) (branches : AwaitBranches) (slot : AwaitSlot) {stored : AwaitBranches × Cursor}
      {keyword : String} {rest : Expression} : Reader.storeBranch branches c content slot = stored →
    stored.2.continuation?.1 = some (keyword, rest) →
    Leaves start content c (.awaitBranch header branches slot)
      (.next (.awaitBranch header stored.1 (Reader.awaitSlot keyword rest.span))) stored.2.continuation?.2
  | key (value : Expression) :
    Leaves start content c (.key value) (.done (.keyBlock ((c.closeBlock "key" start).spanFrom start) value content))
      (c.closeBlock "key" start)
  | snippet (name parameters : String) :
    Leaves start content c (.snippet name parameters)
      (.done (.snippetBlock ((c.closeBlock "snippet" start).spanFrom start) name parameters content))
      (c.closeBlock "snippet" start)

/-- A construct is left in one of these ways. -/
theorem leaves_leaving (opened : Opened) (start : Nat) (content : Fragment) (c : Cursor) :
    Leaves start content c opened (leaving opened start content c).1 (leaving opened start content c).2 := by
  have heach {opened : Opened} {header : Expression} {body : Fragment} {fallback : Option Fragment}
      (hends : EachEnds content opened header body fallback) : Leaves start content c opened
        (leavingEach start header body fallback c).1 (leavingEach start header body fallback c).2 := by
    unfold leavingEach
    dsimp only
    split
    · next h => exact .eachElse hends h
    · next h => exact .endEach hends h
  unfold leaving
  cases opened with
  | element name attributes => exact .element name attributes
  | consequent elseif test =>
    dsimp only
    unfold leavingConsequent
    dsimp only
    split
    · next h => exact .endIf elseif test h
    · next keyword rest h =>
      split
      · next h' =>
        split_ifs at h' with hkeyword
        exact .elseIf elseif test (hkeyword ▸ h) h'
      · next h' => exact .orElse elseif test h fun hkeyword => (if_pos hkeyword).symm.trans h'
  | alternate elseif test consequent => exact .alternate elseif test consequent
  | chain elseif test consequent => exact .chain elseif test consequent
  | eachBody header => exact heach (.body header)
  | eachFallback header body => exact heach (.fallback header body)
  | awaitBranch header branches slot =>
    dsimp only
    unfold leavingAwait
    dsimp only
    split
    · next h => exact .awaitNext header branches slot rfl h
    · next h => exact .endAwait header branches slot rfl h
  | key value => exact .key value
  | snippet name parameters => exact .snippet name parameters

/-- The text of the tag that is read when a fragment has ended. A construct that goes on has one. -/
structure Left.Further (c c' : Cursor) (left : Left) : Prop where
  reaches : c.Reaches c'
  shorter : (∀ n, left ≠ .done n) → c'.rest.length < c.rest.length

theorem Left.Further.done {c c' : Cursor} (h : c.Reaches c') (n : Node) : (Left.done n).Further c c' :=
  ⟨h, fun hnot => absurd rfl (hnot n)⟩

/-- What is read from behind a continuation on, with the node done if there is none. -/
theorem Left.Further.of_continuation {c c' : Cursor} {left : Left} (h : c.continuation?.2.Reaches c')
    (hdone : c.continuation?.1 = none → ∃ n, left = .done n) : left.Further c c' where
  reaches := (reaches_continuation? c).trans h
  shorter hnot := by
    obtain hnone | ⟨k, hsome⟩ := Option.eq_none_or_eq_some c.continuation?.1
    · obtain ⟨n, rfl⟩ := hdone hnone
      exact absurd rfl (hnot n)
    · have := length_continuation? hsome
      have := h.length_le
      omega

theorem Left.Further.trans {c c₁ c' : Cursor} {left : Left} (h : c.Reaches c₁) (h' : left.Further c₁ c') :
    left.Further c c' :=
  ⟨h.trans h'.reaches, fun hnot => Nat.lt_of_lt_of_le (h'.shorter hnot) h.length_le⟩

/-- A continuation is read, and it may be one that its block does not have. -/
theorem reaches_unexpected (c : Cursor) (expected : Bool) (block keyword : String) (span : Span) :
    c.Reaches (if expected then c else c.unexpectedContinuation block keyword span) := by
  cases expected with
  | true => exact .refl c
  | false => exact reaches_fault (.refl c)

theorem reaches_leavingEach (start : Nat) (header : Expression) (body : Fragment) (fallback : Option Fragment)
    (c : Cursor) : c.continuation?.2.Reaches (leavingEach start header body fallback c).2 := by
  unfold leavingEach
  dsimp only
  split
  · exact reaches_unexpected ..
  · exact reaches_closeBlock ..

theorem reaches_leavingConsequent (start : Nat) (elseif : Bool) (test : Expression) (content : Fragment) (c : Cursor) :
    c.continuation?.2.Reaches (leavingConsequent start elseif test content c).2 := by
  unfold leavingConsequent
  dsimp only
  split
  · exact Reader.reaches_ifNode _ start elseif test content none
  · split
    · exact .refl _
    · exact reaches_unexpected ..

theorem reaches_leavingAwait (start : Nat) (header : Expression) (branches : AwaitBranches) (slot : AwaitSlot)
    (content : Fragment) (c : Cursor) : (Reader.storeBranch branches c content slot).2.continuation?.2.Reaches
      (leavingAwait start header branches slot content c).2 := by
  unfold leavingAwait
  dsimp only
  split
  · exact .refl _
  · exact reaches_closeBlock ..

variable {start : Nat} {content : Fragment} {c c' : Cursor} {opened : Opened} {left : Left}

theorem leaves_of_leaving (h : leaving opened start content c = (left, c')) : Leaves start content c opened left c' := by
  have hleaves := leaves_leaving opened start content c
  rwa [h] at hleaves

theorem Leaves.further (h : Leaves start content c opened left c') : left.Further c c' := by
  have hgoes {next : String × Expression} {left : Left} (hsome : c.continuation?.1 = some next)
      (hreach : c.continuation?.2.Reaches c') : left.Further c c' :=
    .of_continuation hreach fun hnone => by cases hsome.symm.trans hnone
  cases h with
  | element name attributes => exact .done ((reaches_closeTag ..).trans (reaches_elementNode ..)) _
  | endIf => exact .done ((reaches_continuation? c).trans (Reader.reaches_ifNode ..)) _
  | elseIf _ _ hsome => exact hgoes hsome (.refl _)
  | orElse _ _ hsome => exact hgoes hsome (reaches_unexpected ..)
  | alternate elseif test consequent => exact .done (Reader.reaches_ifNode c start elseif test consequent _) _
  | chain elseif test consequent => exact .done (Reader.reaches_ifNode c start elseif test consequent none) _
  | endEach => exact .done ((reaches_continuation? c).trans (reaches_closeBlock ..)) _
  | eachElse _ hsome => exact hgoes hsome (reaches_unexpected ..)
  | endAwait header branches slot hstored =>
    subst hstored
    exact .done (((Reader.reaches_storeBranch ..).trans (reaches_continuation? _)).trans (reaches_closeBlock ..)) _
  | awaitNext header branches slot hstored hsome =>
    subst hstored
    exact .trans (Reader.reaches_storeBranch ..)
      (.of_continuation (.refl _) fun hnone => by cases hsome.symm.trans hnone)
  | key => exact .done (reaches_closeBlock ..) _
  | snippet => exact .done (reaches_closeBlock ..) _

theorem further_of_leaving (h : leaving opened start content c = (left, c')) : left.Further c c' :=
  (leaves_of_leaving h).further

/-! ### What is kept -/

theorem Leaves.span {n : Node} (h : Leaves start content c opened (.done n) c') : n.span = c'.spanFrom start := by
  cases h with
  | element name attributes =>
    rw [span_elementNode]
    simp only [spanFrom, offset_elementNode]
  | _ => rfl

theorem Leaves.attributes {n : Node} (h : Leaves start content c opened (.done n) c') :
    n.attributes = opened.attributes := by
  cases h with
  | element => rw [attributes_elementNode]; rfl
  | endEach hends => cases hends <;> rfl
  | _ => rfl

theorem Leaves.attributes_next {opened' : Opened} (h : Leaves start content c opened (.next opened') c') :
    opened'.attributes = [] := by
  cases h <;> rfl

theorem Reader.subperm_storeBranch (branches : AwaitBranches) (c : Cursor) (body : Fragment)
    (slot : AwaitSlot) :
    (Reader.storeBranch branches c body slot).1.fragments.Subperm (branches.fragments ++ [body]) := by
  obtain ⟨pending, resolved, failed⟩ := branches
  have hswap : ∀ before after : List Fragment,
      (before ++ [body] ++ after).Subperm (before ++ after ++ [body]) := by
    intro before after
    rw [List.append_assoc, List.append_assoc]
    exact ((List.perm_append_comm).append_left before).subperm
  have hdrop : ∀ before old after : List Fragment,
      (before ++ [body] ++ after).Subperm (before ++ old ++ after ++ [body]) := by
    intro before old after
    refine (hswap before after).trans (List.Sublist.subperm ?_)
    exact ((List.sublist_append_left before old).append_right after).append_right [body]
  cases slot with
  | pending =>
    simpa [Reader.storeBranch, AwaitBranches.fragments] using
      hdrop [] pending.toList (resolved.toList ++ failed.toList)
  | resolved =>
    simpa [Reader.storeBranch, AwaitBranches.fragments] using hdrop pending.toList resolved.toList failed.toList
  | failed =>
    simpa [Reader.storeBranch, AwaitBranches.fragments] using
      hdrop (pending.toList ++ resolved.toList) failed.toList []
  | unknown keyword span => exact (List.sublist_append_left _ _).subperm

/-- The fragments that are kept of a construct. -/
def Left.fragments : Left → List Fragment
  | .done n => n.fragments
  | .next opened => opened.fragments
  | .branch _ _ consequent _ => [consequent]

/-- What is kept are fragments of the construct and the one that has ended, none of them twice. -/
theorem Leaves.fragments (h : Leaves start content c opened left c') :
    left.fragments.Subperm (opened.fragments ++ [content]) := by
  cases h with
  | element =>
    rw [Left.fragments, fragments_elementNode]
    exact List.Subperm.refl _
  | chain => exact (List.sublist_append_left _ _).subperm
  | endEach hends => cases hends <;> exact List.Subperm.refl _
  | eachElse hends =>
    cases hends with
    | body => exact List.Subperm.refl _
    | fallback => exact (List.sublist_append_left _ _).subperm
  | endAwait header branches slot hstored | awaitNext header branches slot hstored =>
    subst hstored
    exact Reader.subperm_storeBranch branches c content slot
  | _ => exact List.Subperm.refl _

namespace Reader

/-- What the reader makes of a construct whose fragment has ended. -/
def leaveTo (r : Reader) (f : Frame) (frames : List Frame) : Left × Cursor → Reader
  | (.done n, c) => r.leaveWith n c frames
  | (.next opened, c) => r.continueWith f opened c frames
  | (.branch elseif test consequent test', c) =>
    { r with
      cursor := c
      frames := ⟨.consequent true test', r.cursor.offset, c.offset, []⟩
        :: ⟨.chain elseif test consequent, f.start, r.cursor.offset, []⟩ :: frames }

theorem leave_eq (r : Reader) (f : Frame) (frames : List Frame) :
    r.leave f frames =
      r.leaveTo f frames (leaving f.opened f.start (f.fragment r.cursor.offset) r.cursor) := by
  unfold leave leaving
  cases f.opened with
  | consequent elseif test =>
    dsimp only
    unfold leaveConsequent leavingConsequent
    dsimp only
    cases r.cursor.continuation?.1 with
    | none => rfl
    | some next =>
      dsimp only
      cases if next.1 = "else" then elseIfTest? next.2 else none <;> rfl
  | eachBody header =>
    dsimp only
    unfold leaveEach leavingEach
    dsimp only
    cases r.cursor.continuation?.1 <;> rfl
  | eachFallback header body =>
    dsimp only
    unfold leaveEach leavingEach
    dsimp only
    cases r.cursor.continuation?.1 <;> rfl
  | awaitBranch header branches slot =>
    dsimp only
    unfold leaveAwait leavingAwait
    dsimp only
    cases (storeBranch branches r.cursor (f.fragment r.cursor.offset) slot).2.continuation?.1 <;> rfl
  | _ => rfl

theorem reaches_deliver (r : Reader) (n : Node) (frames : List Frame) :
    r.cursor.Reaches (r.deliver n frames).cursor := by
  induction frames generalizing r n with
  | nil => exact .refl _
  | cons f frames ih =>
    unfold deliver
    split
    · next elseif test consequent _ =>
      have hblock := reaches_ifNode r.cursor f.start elseif test consequent (some ⟨[n], n.span⟩)
      exact hblock.trans (ih { r with cursor := _ } _)
    · exact .refl _

theorem reaches_leaveTo (r : Reader) (f : Frame) (frames : List Frame) (left : Left × Cursor) :
    left.2.Reaches (r.leaveTo f frames left).cursor := by
  obtain ⟨left, c⟩ := left
  cases left with
  | done n => exact reaches_deliver { r with cursor := c } n frames
  | next opened => exact .refl c
  | branch elseif test consequent test' => exact .refl c

theorem reaches_leave (r : Reader) (f : Frame) (frames : List Frame) :
    r.cursor.Reaches (r.leave f frames).cursor := by
  rw [leave_eq]
  exact (leaves_leaving ..).further.reaches.trans (reaches_leaveTo ..)

end Reader

end Restyle.Markup
