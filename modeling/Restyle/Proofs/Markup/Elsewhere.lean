import Restyle.Proofs.Markup.Printing
import Restyle.Proofs.Markup.Simulation

/-! The same text elsewhere. What was read without a fault is read again wherever the same text stands, if what
follows begins with the same two characters: tags, nodes and whole fragments come out the same apart from places. -/

namespace Restyle.Markup

open Text Cursor

variable {c c' c₁ : Cursor} {t z z' close name name' : List Char}

/-- The attributes are the same apart from places. -/
def SameAttributes (as as' : List Attribute) : Prop := as'.map Attribute.unplaced = as.map Attribute.unplaced

/-! ### Alike trees apart from places -/

mutual

theorem Node.Like.unplaced_eq : ∀ {n n' : Node}, Node.Like SameAttributes n n' → n'.unplaced = n.unplaced
  | _, _, .element _ _ _ _ has hcontent | _, _, .component _ _ _ _ has hcontent | _, _, .special _ _ _ _ has hcontent => by
    have has : List.map Attribute.unplaced _ = _ := has
    simp only [Node.unplaced, has, Fragment.unplaced_congr hcontent.unplacedAll_eq]
  | _, _, .text .. | _, _, .comment .. => rfl
  | _, _, .expression _ _ he | _, _, .tag _ _ _ he => by simp only [Node.unplaced, Expression.unplaced, he]
  | _, _, .ifBlock _ _ _ htest hconsequent halternate => by
    simp only [Node.unplaced, Expression.unplaced, htest, Fragment.unplaced_congr hconsequent.unplacedAll_eq,
      halternate.unplacedOption_eq]
  | _, _, .eachBlock _ _ hheader hbody hfallback => by
    simp only [Node.unplaced, Expression.unplaced, hheader, Fragment.unplaced_congr hbody.unplacedAll_eq,
      hfallback.unplacedOption_eq]
  | _, _, .awaitBlock _ _ hheader hpending hresolved hfailed => by
    simp only [Node.unplaced, Expression.unplaced, hheader, hpending.unplacedOption_eq, hresolved.unplacedOption_eq,
      hfailed.unplacedOption_eq]
  | _, _, .keyBlock _ _ hvalue hbody => by
    simp only [Node.unplaced, Expression.unplaced, hvalue, Fragment.unplaced_congr hbody.unplacedAll_eq]
  | _, _, .snippetBlock _ _ _ _ hbody => by
    simp only [Node.unplaced, Fragment.unplaced_congr hbody.unplacedAll_eq]

theorem LikeNodes.unplacedAll_eq : ∀ {nodes nodes' : List Node}, LikeNodes SameAttributes nodes nodes' →
    unplacedAll nodes' = unplacedAll nodes
  | _, _, .nil => rfl
  | _, _, .cons hn h => by rw [unplacedAll, unplacedAll, hn.unplaced_eq, h.unplacedAll_eq]

theorem LikeBranch.unplacedOption_eq : ∀ {f f' : Option Fragment}, LikeBranch SameAttributes f f' →
    unplacedOption f' = unplacedOption f
  | _, _, .none => rfl
  | _, _, .some h => unplacedOption_congr (Fragment.unplaced_congr h.unplacedAll_eq)

end

/-! ### Opening tags -/

/-- Attributes before the end of their tag. -/
theorem Cursor.Sees.attributes (hclean : c.attributes.2.faults = []) (hc : c.rest = t ++ (close ++ z))
    (hz : c.attributes.2.rest = close ++ z) (hends : EndsTag close) (h : c'.Sees (t ++ (close ++ z'))) :
    SameAttributes c.attributes.1 c'.attributes.1 ∧ c'.attributes.2.Sees (close ++ z') := by
  have hoffset := (reaches_attributes c).offset_eq (t := t) (by rw [hz]; exact hc)
  have hquiet := Weave.quiet_upTo (c.attributes.2.offset + width close) z' c.offset
  have hin : ∀ a ∈ c.attributes.1, c.offset ≤ a.span.start ∧ a.span.start < a.span.stop
      ∧ a.span.stop ≤ c.attributes.2.offset + width close := by
    intro a ha
    have := (inOrder_attributes c).of_mem (List.mem_map_of_mem ha)
    omega
  obtain ⟨-, hfollows⟩ := follows_attributes hclean hz hends
    (.of_quiet hquiet fun a ha => ⟨(hin a ha).1, (hin a ha).2.2⟩)
  have hbefore : (Weave.upTo (c.attributes.2.offset + width close) z').text c.offset c.rest = t ++ (close ++ z') := by
    rw [hc, ← List.append_assoc, hoffset, Nat.add_assoc, ← width_append, Weave.text_upTo_append, List.append_assoc]
  have hbehind : (Weave.upTo (c.attributes.2.offset + width close) z').text c.attributes.2.offset
      c.attributes.2.rest = close ++ z' := by
    rw [hz, Weave.text_upTo_append]
  obtain ⟨hlast, hattributes⟩ := hfollows c' (by rw [Follows, hbefore]; exact h)
  rw [Follows, hbehind] at hlast
  exact ⟨hattributes.of_quiet hquiet hin, hlast⟩

/-- An opening tag, with its name or with another one. -/
theorem Cursor.Sees.openingTag_again (hopens : OpensWith c name c₁) (hfirst : ∃ d u, name' = d :: u ∧ d.isAlpha = true)
    (hletters : ∀ d ∈ name', endsTagName d = false) (hclean : c₁.attributes.2.faults = [])
    (hc : c₁.rest = t ++ (close ++ z)) (hz : c₁.attributes.2.rest = close ++ z) (hends : EndsTag close)
    (h : c'.Sees ('<' :: (name' ++ (t ++ (close ++ z'))))) :
    c'.AtElement ∧ (readOpeningTag c').name = String.ofList name'
      ∧ SameAttributes c₁.attributes.1 (readOpeningTag c').attributes
      ∧ (readOpeningTag c').cursor.Sees (close ++ z') := by
  obtain ⟨d, u, rfl, hd⟩ := hfirst
  have hone : (c'.moved (c'.rest.take 1) (c'.rest.drop 1)).rest = (d :: u) ++ (t ++ (close ++ z')) := by
    rw [h.rest]
    rfl
  have hhead : (t ++ (close ++ z')).head? = c₁.rest.head? := by
    rw [hc]
    refine head?_append_congr ?_ t
    rcases hends with rfl | rfl <;> rfl
  have hword : (c'.moved (c'.rest.take 1) (c'.rest.drop 1)).takeWhile (!endsTagName ·) = (d :: u, _) :=
    takeWhile_of_append hone (fun e he => by simp [hletters e he]) fun e he => by
      simp [hopens.ends e (hhead ▸ he)]
  have hmoved : ((c'.moved (c'.rest.take 1) (c'.rest.drop 1)).moved (d :: u) (t ++ (close ++ z'))).Sees
      (t ++ (close ++ z')) := ⟨rfl, h.faults⟩
  rw [Markup.readOpeningTag, hword]
  exact ⟨⟨d, _, h.rest, hd⟩, rfl, hmoved.attributes hclean hc hz hends⟩

/-- A tag that ends before an offset ends in the text up to there. -/
theorem exists_behind {a : List Char} (h : close ++ z = a ++ z') (hwidth : width close ≤ width a) :
    ∃ b, a = close ++ b ∧ z = b ++ z' := by
  rcases List.append_eq_append_iff.1 h with ⟨b, rfl, hz⟩ | ⟨b, rfl, rfl⟩
  · exact ⟨b, rfl, hz⟩
  · rw [width_append] at hwidth
    obtain rfl : b = [] := width_eq_zero (by omega)
    exact ⟨[], by simp, by simp⟩

/-- An element from its opening tag on. -/
theorem Cursor.Sees.readElement (hat : c.AtElement) (hclean : (readElement c).2.faults = []) (hc : c.rest = t ++ z)
    (hz : (readElement c).2.rest = z) (h : c'.Sees (t ++ z')) :
    c'.AtElement ∧ (Markup.readElement c).1.Like SameAttributes (Markup.readElement c').1
      ∧ (Markup.readElement c').2.Sees z' := by
  obtain ⟨name, c₁, hopens⟩ := exists_opensWith hat
  obtain ⟨close, y, hends, hclose, hle⟩ := exists_endsTag hclean
  have hreach := reaches_element (readOpeningTag c) c.offset
  obtain ⟨inside, hinside, hoffset, -⟩ := reaches_element (readOpeningTag c) c.offset
  rw [show ((readOpeningTag c).element c.offset).2.rest = z from hz] at hinside
  obtain ⟨behind, rfl, rfl⟩ := exists_behind (hclose.symm.trans hinside) (by omega)
  obtain ⟨written, hwritten, -⟩ := reaches_attributes c₁
  have htag : c₁.attributes.2 = (readOpeningTag c).cursor := by rw [hopens.tag]
  rw [htag, hclose] at hwritten
  obtain rfl : t = '<' :: (name ++ (written ++ (close ++ behind))) := by
    refine List.append_cancel_right (hc.symm.trans (hopens.rest.trans ?_))
    rw [hwritten]
    simp
  have h : c'.Sees ('<' :: (name ++ (written ++ (close ++ (behind ++ z'))))) := by simpa using h
  obtain ⟨hat', hname, hattributes, hsees⟩ := h.openingTag_again hopens hopens.first hopens.letters
    (by rw [htag]; exact hreach.clean hclean) hwritten (by rw [htag, hclose]) hends
  have hsame : (readOpeningTag c').name = (readOpeningTag c).name := by rw [hname, hopens.tag]
  have hattributes : SameAttributes (readOpeningTag c).attributes (readOpeningTag c').attributes := by
    rw [hopens.tag]
    exact hattributes
  rw [← List.append_assoc] at hsees
  exact ⟨hat', hsees.element hsame hattributes hclean hinside hz⟩

/-! ### Nodes and fragments -/

theorem SameMark.append (h : SameMark z z') (t : List Char) : SameMark (t ++ z) (t ++ z') := by
  cases t with
  | nil => exact h
  | cons d t =>
    refine ⟨rfl, fun _ _ _ => ?_⟩
    exact head?_append_congr h.first t

/-- One node, or the opening of one. -/
theorem Cursor.Sees.anyNode (hclean : (Markup.readNode c).2.faults = []) (hc : c.rest = t ++ z)
    (hz : (Markup.readNode c).2.rest = z) (hmark : SameMark z z') (h : c'.Sees (t ++ z')) (hne : c.rest ≠ []) :
    (Markup.readNode c).1.Like SameAttributes (Markup.readNode c').1 ∧ (Markup.readNode c').2.Sees z' := by
  by_cases hat : c.AtElement
  · rw [readNode_of_element hat] at hclean hz ⊢
    obtain ⟨hat', hlike⟩ := h.readElement hat hclean hc hz
    rw [readNode_of_element hat']
    exact hlike
  · exact h.readNode hat hclean hc hz hmark hne

/-- What is read to a place and on makes up what is read. -/
theorem Cursor.Reaches.split {c₂ : Cursor} (h : c.Reaches c₁) (h' : c₁.Reaches c₂) (hc : c.rest = t ++ z)
    (hz : c₂.rest = z) : ∃ first more, t = first ++ more ∧ c.rest = first ++ (more ++ z) ∧ c₁.rest = more ++ z := by
  obtain ⟨first, hfirst, -⟩ := h
  obtain ⟨more, hmore, -⟩ := h'
  rw [hz] at hmore
  exact ⟨first, more, read_eq (hc.symm.trans hfirst) hmore, by rw [hfirst, hmore], hmore⟩

/-- Two jobs of one kind, on constructs that are alike. -/
inductive Job.Like : Job → Job → Prop where
  | node : Like .node .node
  | fragment : Like .fragment .fragment
  | rest {opened opened' : Opened} (h : opened.Like SameAttributes opened') (start start' : Nat) :
    Like (.rest opened start) (.rest opened' start')

/-- What a job does, one like it does wherever the same text stands before the same markup. -/
def Again (job : Job) (c : Cursor) (ns : List Node) (c₁ : Cursor) : Prop :=
  ∀ {job' : Job} {c' : Cursor} {t z z' : List Char}, job.Like job' → c₁.faults = [] → c.rest = t ++ z → c₁.rest = z →
    SameMark z z' → c'.Sees (t ++ z') → (job = .node → c.rest ≠ []) →
      ∃ ns' c₁', Yields job' c' ns' c₁' ∧ LikeNodes SameAttributes ns ns' ∧ c₁'.Sees z'

/-! One case for each way in which a job is done. -/

section Again

variable {c₂ c₃ : Cursor} {ns ms : List Node} {n : Node} {opened opened₂ : Opened} {start : Nat}

theorem Again.leaf (hfound : (readNode c).1 = .node n) : Again .node c [n] (readNode c).2 := by
  rintro _ c' t z z' ⟨⟩ hclean hc hz hmark hsees hne
  obtain ⟨hlike, hlast⟩ := hsees.anyNode hclean hc hz hmark (hne rfl)
  rw [hfound] at hlike
  generalize hfound' : (readNode c').1 = found' at hlike
  cases hlike with
  | node hn => exact ⟨_, _, .leaf hfound', .singleton hn, hlast⟩

/-- Nothing is read where a node is read without a fault. -/
theorem Again.nothing (hfound : (readNode c).1 = .nothing) : Again .node c [] (readNode c).2 := by
  rintro _ c' t z z' ⟨⟩ hclean hc hz hmark hsees hne
  obtain ⟨hlike, -⟩ := hsees.anyNode hclean hc hz hmark (hne rfl)
  rw [hfound] at hlike
  cases hlike

theorem Again.begun {f : Frame} (hfound : (readNode c).1 = .opened f)
    (hrest : Yields (.rest f.opened f.start) (readNode c).2 ns c₁)
    (ih : Again (.rest f.opened f.start) (readNode c).2 ns c₁) : Again .node c ns c₁ := by
  rintro _ c' t z z' ⟨⟩ hclean hc hz hmark hsees hne
  obtain ⟨first, more, rfl, hfirst, hmore⟩ := (reaches_readNode c).split hrest.reaches hc hz
  rw [List.append_assoc] at hsees
  obtain ⟨hlike, hlast⟩ := hsees.anyNode (hrest.reaches.clean hclean) hfirst hmore (hmark.append more) (hne rfl)
  rw [hfound] at hlike
  generalize hfound' : (readNode c').1 = found' at hlike
  cases hlike with
  | opened hf =>
    obtain ⟨ns', c₁', hrest', hns, hlast⟩ := ih (.rest hf.opened _ _) hclean hmore hz hmark hlast (by rintro ⟨⟩)
    exact ⟨ns', c₁', .opened hfound' hrest', hns, hlast⟩

theorem Again.ends (hends : c.endsFragment = true) : Again .fragment c [] c := by
  rintro _ c' t z z' ⟨⟩ hclean hc hz hmark hsees -
  have hmarks : SameMark c.rest c'.rest := by
    rw [hc, hsees.rest]
    exact hmark.append t
  rw [hz] at hc
  obtain rfl : t = [] := List.append_left_eq_self.1 hc.symm
  exact ⟨[], c', .ends ((endsFragment_eq hmarks).trans hends), .nil, hsees⟩

theorem Again.more (hends : c.endsFragment = false) (hnode : Yields .node c ns c₁) (hmore : Yields .fragment c₁ ms c₂)
    (ih : Again .node c ns c₁) (ih' : Again .fragment c₁ ms c₂) : Again .fragment c (ns ++ ms) c₂ := by
  rintro _ c' t z z' ⟨⟩ hclean hc hz hmark hsees -
  obtain ⟨first, more, rfl, hfirst, hbehind⟩ := hnode.reaches.split hmore.reaches hc hz
  have hmarks : SameMark c.rest c'.rest := by
    rw [hc, hsees.rest]
    exact hmark.append _
  rw [List.append_assoc] at hsees
  obtain ⟨ns', c₁', hnode', hns, hsees₁⟩ := ih .node (hmore.reaches.clean hclean) hfirst hbehind (hmark.append more)
    hsees fun _ => rest_ne_nil hends
  obtain ⟨ms', c₂', hmore', hms, hsees₂⟩ := ih' .fragment hclean hbehind hz hmark hsees₁ (by rintro ⟨⟩)
  exact ⟨_, _, .more ((endsFragment_eq hmarks).trans hends) hnode' hmore', hns.append hms, hsees₂⟩

/-- A fragment of a construct, and what the construct comes to behind it. -/
theorem Again.leaving {opened' : Opened} {left : Left} (h : Again .fragment c ns c₁) (hread : c.Reaches c₁)
    (hleave : Markup.leaving opened start ⟨ns, c₁.spanFrom c.offset⟩ c₁ = (left, c₂))
    (hopened : opened.Like SameAttributes opened') (hclean : c₂.faults = []) (hc : c.rest = t ++ z) (hz : c₂.rest = z)
    (hmark : SameMark z z') (hsees : c'.Sees (t ++ z')) (start' : Nat) : ∃ ns' c₁' left' c₂',
      Yields .fragment c' ns' c₁' ∧ Markup.leaving opened' start' ⟨ns', c₁'.spanFrom c'.offset⟩ c₁' = (left', c₂')
        ∧ left.Like SameAttributes left' ∧ c₂'.Sees z' := by
  have hreach := (further_of_leaving hleave).reaches
  obtain ⟨first, tag, rfl, hfirst, htag⟩ := hread.split hreach hc hz
  rw [List.append_assoc] at hsees
  obtain ⟨ns', c₁', hcontent, hns, hsees₁⟩ := h .fragment (hreach.clean hclean) hfirst htag (hmark.append tag) hsees
    (by rintro ⟨⟩)
  have hmarks : SameMark c₁.rest c₁'.rest := by
    rw [htag, hsees₁.rest]
    exact hmark.append tag
  have hleaves : LeavesAlike SameAttributes c₁ (Markup.leaving opened start ⟨ns, c₁.spanFrom c.offset⟩ c₁)
      c₁' (Markup.leaving opened' start' ⟨ns', c₁'.spanFrom c'.offset⟩ c₁') :=
    leavesAlike_leaving hopened hns c₁ c₁' start start'
  rw [hleave] at hleaves
  obtain ⟨hlike, hlast⟩ := hleaves hclean hmarks tag z z' htag hz hsees₁
  exact ⟨ns', c₁', _, _, hcontent, rfl, hlike, hlast⟩

theorem Again.done (hcontent : Yields .fragment c ns c₁)
    (hleave : Markup.leaving opened start ⟨ns, c₁.spanFrom c.offset⟩ c₁ = (.done n, c₂))
    (ih : Again .fragment c ns c₁) : Again (.rest opened start) c [n] c₂ := by
  rintro _ c' t z z' hjob hclean hc hz hmark hsees -
  cases hjob with
  | rest hopened _ start' =>
    obtain ⟨ns', c₁', left', c₂', hcontent', hleave', hlike, hsees₂⟩ := ih.leaving hcontent.reaches hleave hopened
      hclean hc hz hmark hsees start'
    cases hlike with
    | done hn => exact ⟨_, _, .done hcontent' hleave', .singleton hn, hsees₂⟩

theorem Again.next (hcontent : Yields .fragment c ns c₁)
    (hleave : Markup.leaving opened start ⟨ns, c₁.spanFrom c.offset⟩ c₁ = (.next opened₂, c₂))
    (hrest : Yields (.rest opened₂ start) c₂ ms c₃) (ih : Again .fragment c ns c₁)
    (ih' : Again (.rest opened₂ start) c₂ ms c₃) : Again (.rest opened start) c ms c₃ := by
  rintro _ c' t z z' hjob hclean hc hz hmark hsees -
  cases hjob with
  | rest hopened _ start' =>
    have hreach := (further_of_leaving hleave).reaches
    obtain ⟨first, more, rfl, hfirst, hmore⟩ := (hcontent.reaches.trans hreach).split hrest.reaches hc hz
    rw [List.append_assoc] at hsees
    obtain ⟨ns', c₁', left', c₂', hcontent', hleave', hlike, hsees₂⟩ := ih.leaving hcontent.reaches hleave hopened
      (hrest.reaches.clean hclean) hfirst hmore (hmark.append more) hsees start'
    cases hlike with
    | next hopened₂ =>
      obtain ⟨ms', c₃', hrest', hms, hsees₃⟩ := ih' (.rest hopened₂ start start') hclean hmore hz hmark hsees₂
        (by rintro ⟨⟩)
      exact ⟨ms', c₃', .next hcontent' hleave' hrest', hms, hsees₃⟩

/-- The else-if block is read up to the closing tag of the if block, which is read last. -/
theorem Again.branch {elseif : Bool} {test test' : Expression} {consequent : Fragment} (hcontent : Yields .fragment c ns c₁)
    (hleave : Markup.leaving opened start ⟨ns, c₁.spanFrom c.offset⟩ c₁ = (.branch elseif test consequent test', c₂))
    (hrest : Yields (.rest (.consequent true test') c₁.offset) c₂ [n] c₃) (ih : Again .fragment c ns c₁)
    (ih' : Again (.rest (.consequent true test') c₁.offset) c₂ [n] c₃) : Again (.rest opened start) c
      [(Reader.ifNode c₃ start elseif test consequent (some ⟨[n], n.span⟩)).1]
      (Reader.ifNode c₃ start elseif test consequent (some ⟨[n], n.span⟩)).2 := by
  rintro _ c' t z z' hjob hclean hc hz hmark hsees -
  cases hjob with
  | rest hopened _ start' =>
    have hreach := (further_of_leaving hleave).reaches
    have hend := Reader.reaches_ifNode c₃ start elseif test consequent (some ⟨[n], n.span⟩)
    obtain ⟨first, more, rfl, hfirst, hmore⟩ := (hcontent.reaches.trans hreach).split (hrest.reaches.trans hend) hc hz
    obtain ⟨block, last, rfl, hblock, hlast⟩ := hrest.reaches.split hend hmore hz
    rw [List.append_assoc] at hsees
    obtain ⟨ns', c₁', left', c₂', hcontent', hleave', hlike, hsees₂⟩ := ih.leaving hcontent.reaches hleave hopened
      ((hrest.reaches.trans hend).clean hclean) hfirst hmore (hmark.append _) hsees start'
    cases hlike with
    | branch _ htest hconsequent hnext =>
      rw [List.append_assoc] at hsees₂
      obtain ⟨ms', c₃', hrest', hms, hsees₃⟩ := ih' (.rest (.consequent true hnext) c₁.offset c₁'.offset)
        (hend.clean hclean) hblock hlast (hmark.append last) hsees₂ (by rintro ⟨⟩)
      obtain ⟨n', rfl⟩ := hrest'.eq_singleton
      cases hms with
      | cons hn _ =>
        have hbranch : LikeBranch SameAttributes (some ⟨[n], n.span⟩) (some ⟨[n'], n'.span⟩) := .some (.singleton hn)
        exact ⟨_, _, .branch hcontent' hleave' hrest', .singleton (.ifBlock _ _ elseif htest hconsequent hbranch),
          rereads_endIf hclean c₃' start' last z z' hlast hz hsees₃⟩

end Again

/-- A job that has been done is done again. -/
theorem Yields.again {job : Job} {ns : List Node} (h : Yields job c ns c₁) : Again job c ns c₁ := by
  induction h with
  | leaf hfound => exact Again.leaf hfound
  | nothing hfound => exact Again.nothing hfound
  | opened hfound hrest ih => exact Again.begun hfound hrest ih
  | ends hends => exact Again.ends hends
  | more hends hnode hmore ih ih' => exact Again.more hends hnode hmore ih ih'
  | done hcontent hleave ih => exact Again.done hcontent hleave ih
  | next hcontent hleave hrest ih ih' => exact Again.next hcontent hleave hrest ih ih'
  | branch hcontent hleave hrest ih ih' => exact Again.branch hcontent hleave hrest ih ih'

end Restyle.Markup
