import Restyle.Proofs.Markup.Descent
import Restyle.Proofs.Markup.Rereading

/-! Constructs that are left again. Two constructs that are alike are left at the same tags and go on to the same
branches, so a reader whose frames are alike stands in the end where the other one stood. -/

namespace Restyle.Markup

open Text Cursor

/-- What the first cursor reads up to the second, the third reads up to the fourth. -/
def Rereads (c c₁ c' c₁' : Cursor) : Prop :=
  ∀ t z z', c.rest = t ++ z → c₁.rest = z → c'.Sees (t ++ z') → c₁'.Sees z'

section Cursors

variable {c c₁ c₂ c' c₁' c₂' : Cursor} {start start' : Nat}

theorem Rereads.refl (c c' : Cursor) : Rereads c c c' c' := by
  intro t z z' hc hz h
  rw [← hz] at hc
  obtain rfl : t = [] := List.append_left_eq_self.1 hc.symm
  exact h

theorem Rereads.trans (h : Rereads c c₁ c' c₁') (h₁ : Rereads c₁ c₂ c₁' c₂') (hreach : c.Reaches c₁)
    (hreach₁ : c₁.Reaches c₂) : Rereads c c₂ c' c₂' := by
  intro t z z' hc hz hsees
  obtain ⟨first, hfirst, -⟩ := hreach
  obtain ⟨next, hnext, -⟩ := hreach₁
  rw [hz] at hnext
  obtain rfl : t = first ++ next := read_eq (hc.symm.trans hfirst) hnext
  rw [List.append_assoc] at hsees
  exact h₁ next z z' hnext hz (h first _ _ (by rw [hfirst, hnext]) hnext hsees)

theorem rereads_closeTag {name : String} (hclean : (c.closeTag name start).faults = []) (c' : Cursor)
    (start' : Nat) : Rereads c (c.closeTag name start) c' (c'.closeTag name start') := by
  intro t z z' hc hz h
  obtain ⟨closing, hcloses, hrest⟩ := rest_of_closeTag hclean
  rw [hz, hc] at hrest
  obtain rfl := List.append_cancel_right hrest
  exact h.closeTag hcloses start'

theorem rereads_closeBlock {keyword : String} (hclean : (c.closeBlock keyword start).faults = [])
    (c' : Cursor) (start' : Nat) : Rereads c (c.closeBlock keyword start) c' (c'.closeBlock keyword start') := by
  intro t z z' hc hz h
  obtain ⟨closing, hcloses, hrest⟩ := rest_of_closeBlock hclean
  rw [hz, hc] at hrest
  obtain rfl := List.append_cancel_right hrest
  exact h.closeBlock hcloses start'

/-- Without a fault a continuation is read wherever it stands, with the same words. -/
theorem continuation_cases (hclean : c.continuation?.2.faults = []) :
    (c.continuation? = (none, c) ∧ c.atContinuation = false)
      ∨ ∃ keyword e, c.continuation?.1 = some (keyword, e) ∧ ∀ (t z z' : List Char) (c' : Cursor),
        c.rest = t ++ z → c.continuation?.2.rest = z → c'.Sees (t ++ z') →
          (∃ e' : Expression, c'.continuation?.1 = some (keyword, e') ∧ e'.text = e.text)
            ∧ c'.continuation?.2.Sees z' := by
  cases hat : c.atContinuation with
  | false => exact .inl ⟨continuation?_of_not hat, rfl⟩
  | true =>
    obtain ⟨keyword, raw, hk, hrest, hsome⟩ := rest_of_continuation? hclean hat
    refine .inr ⟨_, _, hsome, fun t z z' c' hc hz h => ?_⟩
    obtain rfl : t = '{' :: ':' :: (keyword ++ (raw ++ ['}'])) := by
      refine List.append_cancel_right (hc.symm.trans (hrest.trans ?_))
      rw [hz]
      simp
    obtain ⟨hsome', hsees⟩ := Cursor.Sees.continuation? (z := z') hk (by simpa using h)
    exact ⟨⟨_, hsome', rfl⟩, hsees⟩

theorem SameMark.atContinuation (h : SameMark c.rest c'.rest) : c'.atContinuation = c.atContinuation :=
  h.startsWith (.inr rfl) ':'

end Cursors

/-! ### What constructs come to -/

section Lefts

variable {R : List Attribute → List Attribute → Prop} {n n' : Node} {c c' c₁ c₁' : Cursor} {start start' : Nat}
  {content content' : Fragment}

/-- Two constructs come to alike nodes, or go on to alike branches. -/
inductive Left.Like (R : List Attribute → List Attribute → Prop) : Left → Left → Prop where
  | done {n n' : Node} (h : n.Like R n') : Like R (.done n) (.done n')
  | next {opened opened' : Opened} (h : opened.Like R opened') : Like R (.next opened) (.next opened')
  | branch (elseif : Bool) {test test' next next' : Expression} {f f' : Fragment} (htest : test'.text = test.text)
    (h : LikeNodes R f.nodes f'.nodes) (hnext : next'.text = next.text) :
    Like R (.branch elseif test f next) (.branch elseif test' f' next')

/-- What a construct comes to at the first cursor is like what another one comes to at the second, wherever the
text that it reads stands. -/
def LeavesAlike (R : List Attribute → List Attribute → Prop) (c : Cursor) (left : Left × Cursor) (c' : Cursor)
    (left' : Left × Cursor) : Prop :=
  left.2.faults = [] → SameMark c.rest c'.rest → ∀ t z z', c.rest = t ++ z → left.2.rest = z → c'.Sees (t ++ z') →
    left.1.Like R left'.1 ∧ left'.2.Sees z'

theorem leavesAlike_done (h : c₁.faults = [] → Rereads c c₁ c' c₁') (hn : n.Like R n') :
    LeavesAlike R c (.done n, c₁) c' (.done n', c₁') := fun hclean _ t z z' hc hz hsees =>
  ⟨.done hn, h hclean t z z' hc hz hsees⟩

/-- The end of an if block; an else-if block has no closing tag of its own. -/
theorem rereads_endIf {elseif : Bool} (hclean : (if elseif then c else c.closeBlock "if" start).faults = [])
    (c' : Cursor) (start' : Nat) : Rereads c (if elseif then c else c.closeBlock "if" start) c'
      (if elseif then c' else c'.closeBlock "if" start') := by
  cases elseif with
  | true => exact .refl c c'
  | false => exact rereads_closeBlock hclean c' start'

theorem leavesAlike_ifNode {elseif : Bool} {test test' : Expression} {consequent consequent' : Fragment}
    {alternate alternate' : Option Fragment} (htest : test'.text = test.text)
    (hconsequent : LikeNodes R consequent.nodes consequent'.nodes) (halternate : LikeBranch R alternate alternate') :
    LeavesAlike R c (.done (Reader.ifNode c start elseif test consequent alternate).1,
        (Reader.ifNode c start elseif test consequent alternate).2)
      c' (.done (Reader.ifNode c' start' elseif test' consequent' alternate').1,
        (Reader.ifNode c' start' elseif test' consequent' alternate').2) :=
  leavesAlike_done (fun hclean => rereads_endIf hclean c' start') (.ifBlock _ _ elseif htest hconsequent halternate)

/-- A continuation that its block does not have is a fault. -/
theorem expected_of_clean {b : Bool} {block keyword : String} {span : Span}
    (h : (if b then c else c.unexpectedContinuation block keyword span).faults = []) : b = true := by
  cases b with
  | true => rfl
  | false => cases h

section Consequent

variable {elseif : Bool} {test test' : Expression} {keyword : String} {e e' : Expression}

theorem elseIfTest?_congr (h : e'.text = e.text) :
    (Reader.elseIfTest? e').map Expression.text = (Reader.elseIfTest? e).map Expression.text := by
  unfold Reader.elseIfTest?
  rw [h]
  split
  · split <;> rfl
  · rfl

theorem leavingConsequent_of_none (h : c.continuation? = (none, c)) (content : Fragment) :
    leavingConsequent start elseif test content c =
      (.done (Reader.ifNode c start elseif test content none).1,
        (Reader.ifNode c start elseif test content none).2) := by
  rw [leavingConsequent, h]

theorem leavingConsequent_of_branch (h : c.continuation?.1 = some (keyword, e))
    (hif : (if keyword = "else" then Reader.elseIfTest? e else none) = some test') (content : Fragment) :
    leavingConsequent start elseif test content c = (.branch elseif test content test', c.continuation?.2) := by
  unfold leavingConsequent
  dsimp only
  rw [h]
  dsimp only
  rw [hif]

theorem leavingConsequent_of_next (h : c.continuation?.1 = some (keyword, e))
    (hif : (if keyword = "else" then Reader.elseIfTest? e else none) = none) (content : Fragment) :
    leavingConsequent start elseif test content c =
      (.next (.alternate elseif test content), if keyword = "else" && e.text = "" then c.continuation?.2
        else c.continuation?.2.unexpectedContinuation "if" keyword e.span) := by
  unfold leavingConsequent
  dsimp only
  rw [h]
  dsimp only
  rw [hif]

theorem leavesAlike_leavingConsequent (htest : test'.text = test.text)
    (hcontent : LikeNodes R content.nodes content'.nodes) :
    LeavesAlike R c (leavingConsequent start elseif test content c)
      c' (leavingConsequent start' elseif test' content' c') := by
  intro hclean hmark t z z' hc hz h
  rcases continuation_cases ((reaches_leavingConsequent ..).clean hclean) with
    ⟨hnone, hat⟩ | ⟨keyword, e, hsome, hagain⟩
  · have hnone' := continuation?_of_not (hmark.atContinuation.trans hat)
    rw [leavingConsequent_of_none hnone] at hclean hz ⊢
    rw [leavingConsequent_of_none hnone']
    exact leavesAlike_ifNode htest hcontent .none hclean hmark t z z' hc hz h
  · cases hif : if keyword = "else" then Reader.elseIfTest? e else none with
    | some next =>
      rw [leavingConsequent_of_branch hsome hif] at hz ⊢
      obtain ⟨⟨e', hsome', htext⟩, hsees⟩ := hagain t z z' c' hc hz h
      have hsame := elseIfTest?_congr htext
      split_ifs at hif with hkeyword
      rw [hif] at hsame
      obtain ⟨next', hnext', hsame'⟩ := Option.map_eq_some_iff.1 hsame
      rw [leavingConsequent_of_branch hsome' (by rw [if_pos hkeyword]; exact hnext')]
      exact ⟨.branch elseif htest hcontent hsame', hsees⟩
    | none =>
      rw [leavingConsequent_of_next hsome hif] at hclean hz ⊢
      have hexpected := expected_of_clean hclean
      rw [if_pos hexpected] at hz
      obtain ⟨⟨e', hsome', htext⟩, hsees⟩ := hagain t z z' c' hc hz h
      have hif' : (if keyword = "else" then Reader.elseIfTest? e' else none) = none := by
        have hsame := elseIfTest?_congr htext
        split_ifs at hif ⊢ with hkeyword
        · rw [hif] at hsame
          exact Option.map_eq_none_iff.1 hsame
        · rfl
      rw [leavingConsequent_of_next hsome' hif', htext, if_pos hexpected, if_pos hexpected]
      exact ⟨.next (.alternate elseif htest hcontent), hsees⟩

end Consequent

/-- A branch of an each block ends. -/
theorem leavesAlike_leavingEach {header header' : Expression} {body body' : Fragment}
    {fallback fallback' : Option Fragment} (hheader : header'.text = header.text)
    (hbody : LikeNodes R body.nodes body'.nodes) (hfallback : LikeBranch R fallback fallback') :
    LeavesAlike R c (leavingEach start header body fallback c)
      c' (leavingEach start' header' body' fallback' c') := by
  intro hclean hmark t z z' hc hz h
  have hnext := (reaches_leavingEach start header body fallback c).clean hclean
  unfold leavingEach at hclean hz ⊢
  dsimp only at hclean hz ⊢
  rcases continuation_cases hnext with ⟨hnone, hat⟩ | ⟨keyword, e, hsome, hagain⟩
  · have hnone' := continuation?_of_not (hmark.atContinuation.trans hat)
    rw [hnone] at hclean hz ⊢
    rw [hnone']
    exact leavesAlike_done (fun hend => rereads_closeBlock hend _ _) (.eachBlock _ _ hheader hbody hfallback) hclean
      hmark t z z' hc hz h
  · rw [hsome] at hclean hz ⊢
    have hexpected := expected_of_clean hclean
    dsimp only at hz ⊢
    rw [if_pos hexpected] at hz
    obtain ⟨⟨e', hsome', htext⟩, hsees⟩ := hagain t z z' c' hc hz h
    rw [hsome']
    dsimp only
    rw [htext, if_pos hexpected]
    exact ⟨.next (.eachFallback hheader hbody), hsees⟩

/-! Await blocks. -/

theorem snd_storeBranch (branches : AwaitBranches) (c : Cursor) (body : Fragment) {slot : AwaitSlot}
    (h : slot.isKnown = true) : (Reader.storeBranch branches c body slot).2 = c := by
  cases slot with
  | unknown => cases h
  | _ => rfl

theorem isKnown_of_clean {branches : AwaitBranches} {body : Fragment} {slot : AwaitSlot}
    (h : (Reader.storeBranch branches c body slot).2.faults = []) : slot.isKnown = true := by
  cases slot with
  | unknown => cases h
  | _ => rfl

theorem unplaced_awaitSlot (keyword : String) (span span' : Span) :
    (Reader.awaitSlot keyword span').unplaced = (Reader.awaitSlot keyword span).unplaced := by
  unfold Reader.awaitSlot
  split <;> rfl

/-- A branch of an await block ends. -/
theorem leavesAlike_leavingAwait {header header' : Expression} {branches branches' : AwaitBranches}
    {slot slot' : AwaitSlot} (hheader : header'.text = header.text) (hbranches : branches.Like R branches')
    (hslot : slot'.unplaced = slot.unplaced) (hcontent : LikeNodes R content.nodes content'.nodes) :
    LeavesAlike R c (leavingAwait start header branches slot content c)
      c' (leavingAwait start' header' branches' slot' content' c') := by
  intro hclean hmark t z z' hc hz h
  have hnext := (reaches_leavingAwait start header branches slot content c).clean hclean
  have hknown := isKnown_of_clean ((reaches_continuation? _).clean hnext)
  have hknown' : slot'.isKnown = true := by
    rw [← AwaitSlot.isKnown_unplaced, hslot, AwaitSlot.isKnown_unplaced, hknown]
  have hlike : (Reader.storeBranch branches c content slot).1.Like R
      (Reader.storeBranch branches' c' content' slot').1 := hbranches.store hslot hcontent
  rw [snd_storeBranch branches c content hknown] at hnext
  unfold leavingAwait at hclean hz ⊢
  dsimp only at hclean hz ⊢
  rw [snd_storeBranch branches c content hknown] at hclean hz ⊢
  rw [snd_storeBranch branches' c' content' hknown']
  rcases continuation_cases hnext with ⟨hnone, hat⟩ | ⟨keyword, e, hsome, hagain⟩
  · have hnone' := continuation?_of_not (hmark.atContinuation.trans hat)
    rw [hnone] at hclean hz ⊢
    rw [hnone']
    exact leavesAlike_done (fun hend => rereads_closeBlock hend _ _)
      (.awaitBlock _ _ hheader hlike.pending hlike.resolved hlike.failed) hclean hmark t z z' hc hz h
  · rw [hsome] at hz ⊢
    obtain ⟨⟨e', hsome', htext⟩, hsees⟩ := hagain t z z' c' hc hz h
    rw [hsome']
    exact ⟨.next (.awaitBranch hheader hlike (unplaced_awaitSlot ..)), hsees⟩

/-! Any construct. -/

theorem rereads_element {name : String} {attributes : List Attribute}
    (hclean : (elementNode (c.closeTag name start) start name attributes content false).2.faults = [])
    (c' : Cursor) (start' : Nat) (attributes' : List Attribute) (content' : Fragment) :
    Rereads c (elementNode (c.closeTag name start) start name attributes content false).2 c'
      (elementNode (c'.closeTag name start') start' name attributes' content' false).2 := by
  obtain ⟨hname, hlast⟩ := clean_elementNode hclean
  rw [hlast] at hclean ⊢
  rw [snd_elementNode, hname]
  exact rereads_closeTag hclean c' start'

/-- Constructs that are alike are left alike. -/
theorem leavesAlike_leaving {opened opened' : Opened} (hopened : opened.Like R opened')
    (hcontent : LikeNodes R content.nodes content'.nodes) (c c' : Cursor) (start start' : Nat) :
    LeavesAlike R c (leaving opened start content c) c' (leaving opened' start' content' c') := by
  cases hopened with
  | element name has =>
    exact leavesAlike_done (fun hclean => rereads_element hclean _ _ _ _) (like_elementNode has hcontent)
  | consequent elseif he => exact leavesAlike_leavingConsequent he hcontent
  | alternate elseif he hconsequent => exact leavesAlike_ifNode he hconsequent (.some hcontent)
  | chain elseif he hconsequent => exact leavesAlike_ifNode he hconsequent .none
  | eachBody he => exact leavesAlike_leavingEach he hcontent .none
  | eachFallback he hbody => exact leavesAlike_leavingEach he hbody (.some hcontent)
  | awaitBranch he hbranches hslot => exact leavesAlike_leavingAwait he hbranches hslot hcontent
  | key he => exact leavesAlike_done (fun hclean => rereads_closeBlock hclean _ _) (.keyBlock _ _ he hcontent)
  | snippet name parameters =>
    exact leavesAlike_done (fun hclean => rereads_closeBlock hclean _ _) (.snippetBlock _ _ name parameters hcontent)

end Lefts

namespace Reader

variable {R : List Attribute → List Attribute → Prop} {r r' : Reader} {f f' : Frame} {frames frames' : List Frame}
  {n n' : Node} {t z z' : List Char}

/-- Some frames and those of another reader are left at the same tags, and with the nodes of the documents they
hold alike nodes. -/
structure Alike (R : List Attribute → List Attribute → Prop) (r r' : Reader) (frames frames' : List Frame) : Prop where
  frames : List.Forall₂ (Frame.Like R) frames frames'
  nodes : LikeNodes R r.nodes.reverse r'.nodes.reverse

/-- A reader stands before a text without a fault, and what it has read is like what another one has. -/
structure Mirrors (R : List Attribute → List Attribute → Prop) (z' : List Char) (r r' : Reader) : Prop where
  cursor : r'.cursor.Sees z'
  alike : Alike R r r' r.frames r'.frames

/-- A node is taken in by frames that are alike. -/
theorem rereads_deliver (hclean : (r.deliver n frames).cursor.faults = []) (h : Alike R r r' frames frames')
    (hn : n.Like R n') :
    Rereads r.cursor (r.deliver n frames).cursor r'.cursor (r'.deliver n' frames').cursor
      ∧ Alike R (r.deliver n frames) (r'.deliver n' frames') (r.deliver n frames).frames
        (r'.deliver n' frames').frames := by
  obtain ⟨h, hnodes⟩ := h
  induction h generalizing r r' n n' with
  | nil => exact ⟨.refl _ _, .nil, hnodes.cons_reverse hn⟩
  | @cons f f' frames frames' hlike hframes ih =>
    cases hopened : f.opened with
    | chain elseif test consequent =>
      obtain ⟨test', consequent', hopened', htest, hconsequent⟩ : ∃ test' consequent',
          f'.opened = .chain elseif test' consequent' ∧ test'.text = test.text
            ∧ LikeNodes R consequent.nodes consequent'.nodes := by
        have hlike := hlike.opened
        rw [hopened] at hlike
        generalize f'.opened = opened' at hlike
        cases hlike with
        | chain _ he h => exact ⟨_, _, rfl, he, h⟩
      rw [deliver_of_chain hopened] at hclean ⊢
      rw [deliver_of_chain hopened']
      have hblock := reaches_ifNode r.cursor f.start elseif test consequent (some ⟨[n], n.span⟩)
      have hmore := reaches_deliver
        { r with cursor := (ifNode r.cursor f.start elseif test consequent (some ⟨[n], n.span⟩)).2 }
        (ifNode r.cursor f.start elseif test consequent (some ⟨[n], n.span⟩)).1 frames
      have hbranch : LikeBranch R (some ⟨[n], n.span⟩) (some ⟨[n'], n'.span⟩) := .some (.singleton hn)
      obtain ⟨hcursor, hlast⟩ := @ih _
        { r' with cursor := (ifNode r'.cursor f'.start elseif test' consequent' (some ⟨[n'], n'.span⟩)).2 } _ _
        hclean (.ifBlock _ _ elseif htest hconsequent hbranch) hnodes
      refine ⟨Rereads.trans ?_ hcursor hblock hmore, hlast⟩
      exact rereads_endIf (hmore.clean hclean) r'.cursor f'.start
    | _ =>
      have hnot : ∀ elseif test consequent, f.opened ≠ .chain elseif test consequent := by
        simp [hopened]
      have hnot' : ∀ elseif test consequent, f'.opened ≠ .chain elseif test consequent := by
        intro elseif test consequent hchain
        have hlike := hlike.opened
        rw [hchain, hopened] at hlike
        cases hlike
      rw [deliver_of_not_chain hnot, deliver_of_not_chain hnot']
      exact ⟨.refl _ _, .cons ⟨hlike.opened, hlike.nodes.cons_reverse hn⟩ hframes, hnodes⟩

/-- A node that has been read joins frames that are alike. -/
theorem mirrors_deliver {c c' : Cursor} (hn : n.Like R n')
    (hclean : (deliver { r with cursor := c } n frames).cursor.faults = []) (hframes : Alike R r r' frames frames')
    (hc : c.rest = t ++ z) (hz : (deliver { r with cursor := c } n frames).cursor.rest = z) (h : c'.Sees (t ++ z')) :
    (deliver { r with cursor := c } n frames).Mirrors R z' (deliver { r' with cursor := c' } n' frames') := by
  have halike : Alike R { r with cursor := c } { r' with cursor := c' } frames frames' :=
    ⟨hframes.frames, hframes.nodes⟩
  obtain ⟨hcursor, hlast⟩ := rereads_deliver hclean halike hn
  exact ⟨hcursor t z z' hc hz h, hlast⟩

/-- What a construct comes to joins frames that are alike. -/
theorem mirrors_leaveTo {left left' : Left × Cursor} (hlike : left.1.Like R left'.1)
    (hclean : (r.leaveTo f frames left).cursor.faults = []) (hframes : Alike R r r' frames frames')
    (hc : left.2.rest = t ++ z) (hz : (r.leaveTo f frames left).cursor.rest = z) (h : left'.2.Sees (t ++ z')) :
    (r.leaveTo f frames left).Mirrors R z' (r'.leaveTo f' frames' left') := by
  obtain ⟨left, c⟩ := left
  obtain ⟨left', c'⟩ := left'
  cases hlike with
  | done hn => exact mirrors_deliver hn hclean hframes hc hz h
  | next hopened =>
    obtain rfl : t = [] := List.append_left_eq_self.1 (hc.symm.trans hz)
    exact ⟨h, .cons ⟨hopened, .nil⟩ hframes.frames, hframes.nodes⟩
  | branch elseif htest hconsequent hnext =>
    obtain rfl : t = [] := List.append_left_eq_self.1 (hc.symm.trans hz)
    exact ⟨h, .cons ⟨.consequent true hnext, .nil⟩ (.cons ⟨.chain elseif htest hconsequent, .nil⟩ hframes.frames),
      hframes.nodes⟩

/-- The fragment of the innermost frame ends. -/
theorem mirrors_leave (hlike : f.Like R f') (hclean : (r.leave f frames).cursor.faults = [])
    (hframes : Alike R r r' frames frames') (hmark : SameMark r.cursor.rest r'.cursor.rest)
    (hc : r.cursor.rest = t ++ z) (hz : (r.leave f frames).cursor.rest = z) (h : r'.cursor.Sees (t ++ z')) :
    (r.leave f frames).Mirrors R z' (r'.leave f' frames') := by
  rw [leave_eq] at hclean hz ⊢
  rw [leave_eq]
  have hmore := reaches_leaveTo r f frames (leaving f.opened f.start (f.fragment r.cursor.offset) r.cursor)
  have hleaves : LeavesAlike R r.cursor (leaving f.opened f.start (f.fragment r.cursor.offset) r.cursor)
      r'.cursor (leaving f'.opened f'.start (f'.fragment r'.cursor.offset) r'.cursor) :=
    leavesAlike_leaving hlike.opened hlike.nodes r.cursor r'.cursor f.start f'.start
  obtain ⟨first, hfirst, -⟩ := (leaves_leaving f.opened f.start (f.fragment r.cursor.offset) r.cursor).further.reaches
  obtain ⟨more, hrest, -⟩ := reaches_leaveTo r f frames
    (leaving f.opened f.start (f.fragment r.cursor.offset) r.cursor)
  rw [hz] at hrest
  obtain rfl : t = first ++ more := read_eq (hc.symm.trans hfirst) hrest
  rw [List.append_assoc] at h
  obtain ⟨hleft, hsees⟩ := hleaves (hmore.clean hclean) hmark first (more ++ z) (more ++ z')
    (by rw [hfirst, hrest]) hrest h
  exact mirrors_leaveTo hleft hclean hframes hrest hz hsees

/-- What was found joins frames that are alike. -/
theorem mirrors_readNode (hlike : (Markup.readNode r.cursor).1.Like R (Markup.readNode r'.cursor).1)
    (hclean : r.readNode.cursor.faults = []) (hframes : Alike R r r' r.frames r'.frames)
    (hc : (Markup.readNode r.cursor).2.rest = t ++ z) (hz : r.readNode.cursor.rest = z)
    (h : (Markup.readNode r'.cursor).2.Sees (t ++ z')) : r.readNode.Mirrors R z' r'.readNode := by
  unfold readNode at hclean hz ⊢
  dsimp only at hclean hz ⊢
  generalize (Markup.readNode r.cursor).1 = found at hlike hclean hz ⊢
  generalize (Markup.readNode r'.cursor).1 = found' at hlike ⊢
  cases hlike with
  | node hn => exact mirrors_deliver hn hclean hframes hc hz h
  | opened hopened =>
    obtain rfl : t = [] := List.append_left_eq_self.1 (hc.symm.trans hz)
    exact ⟨h, .cons hopened hframes.frames, hframes.nodes⟩

/-! ### Scripts and styles stay -/

/-- The scripts and the style are those of another state. -/
structure Keeps (r r' : Reader) : Prop where
  moduleScript : r'.moduleScript = r.moduleScript
  instanceScript : r'.instanceScript = r.instanceScript
  style : r'.style = r.style

theorem Keeps.of_cursor {c : Cursor} (h : Keeps { r with cursor := c } r') : Keeps r r' :=
  ⟨h.moduleScript, h.instanceScript, h.style⟩

theorem keeps_deliver (r : Reader) (n : Node) (frames : List Frame) : Keeps r (r.deliver n frames) := by
  induction frames generalizing r n with
  | nil => exact ⟨rfl, rfl, rfl⟩
  | cons f frames ih =>
    unfold deliver
    split
    · exact .of_cursor (ih ..)
    · exact ⟨rfl, rfl, rfl⟩

theorem keeps_leaveWith (r : Reader) (n : Node) (c : Cursor) (frames : List Frame) :
    Keeps r (r.leaveWith n c frames) := .of_cursor (keeps_deliver ..)

theorem keeps_leave (r : Reader) (f : Frame) (frames : List Frame) : Keeps r (r.leave f frames) := by
  rw [leave_eq]
  rcases leaving f.opened f.start (f.fragment r.cursor.offset) r.cursor with ⟨left, c⟩
  cases left with
  | done n => exact keeps_leaveWith r n c frames
  | next | branch => exact ⟨rfl, rfl, rfl⟩

theorem keeps_readNode (r : Reader) : Keeps r r.readNode := by
  unfold readNode
  dsimp only
  split
  · exact .of_cursor (keeps_deliver ..)
  · exact ⟨rfl, rfl, rfl⟩
  · exact ⟨rfl, rfl, rfl⟩

end Reader

end Restyle.Markup
