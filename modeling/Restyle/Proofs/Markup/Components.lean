import Restyle.Proofs.Markup.Elsewhere

/-! Components in the place of elements. What is a `<div>` as a whole document is a component if the name of a
component is written in both tags: it has the same attributes and the same content. A capital alone does not make
that sure, since the elements that have no content are told by their names whatever the case of the letters. -/

namespace Restyle.Markup

open Text Cursor

variable {name : String} {c c' c₁ c₂ : Cursor} {n : Node}

/-! ### Names -/

/-- The name begins with a capital, and nothing in it ends the name of a tag. -/
structure IsCapitalName (name : String) : Prop where
  first : ∃ d u, name.toList = d :: u ∧ d.isUpper = true
  letters : ∀ d ∈ name.toList, endsTagName d = false

theorem IsCapitalName.isComponentName (h : IsCapitalName name) : isComponentName name = true := by
  obtain ⟨d, u, hname, hd⟩ := h.first
  simp [Markup.isComponentName, hname, hd]

theorem IsCapitalName.exists_cons (h : IsCapitalName name) :
    ∃ d u, name.toList = d :: u ∧ d.isAlpha = true ∧ d ≠ 's' := by
  obtain ⟨d, u, hname, hd⟩ := h.first
  refine ⟨d, u, hname, Bool.or_eq_true_iff.2 (.inl hd), ?_⟩
  rintro rfl
  cases hd

/-- No name that begins with a small letter. -/
theorem IsCapitalName.ne {other : String} (h : IsCapitalName name)
    (hother : ∃ d ∈ other.toList.head?, d.isUpper = false) : name ≠ other := by
  rintro rfl
  obtain ⟨d, u, hname, hd⟩ := h.first
  obtain ⟨e, he, hlower⟩ := hother
  rw [hname] at he
  cases he
  rw [hd] at hlower
  cases hlower

theorem IsCapitalName.content (h : IsCapitalName name) : isRawTextElement name = false ∧ isTextElement name = false := by
  have hscript : name ≠ "script" := h.ne ⟨'s', rfl, rfl⟩
  have hstyle : name ≠ "style" := h.ne ⟨'s', rfl, rfl⟩
  have htextarea : name ≠ "textarea" := h.ne ⟨'t', rfl, rfl⟩
  simp [isRawTextElement, isTextElement, hscript, hstyle, htextarea]

theorem IsCapitalName.elementNode_eq (h : IsCapitalName name) (c : Cursor) (start : Nat) (as : List Attribute)
    (content : Fragment) (selfClosing : Bool) : elementNode c start name as content selfClosing =
      (.component (c.spanFrom start) name as content selfClosing, c) := by
  obtain ⟨d, u, hname, -, hs⟩ := h.exists_cons
  have hprefix : strip? ['s', 'v', 'e', 'l', 't', 'e', ':'] name.toList = none := by
    simp [strip?, hname, hs.symm]
  rw [elementNode, hprefix, if_pos h.isComponentName]

/-- What an element is made of can be read off it. -/
theorem eq_of_elementNode {start : Nat} {as as' : List Attribute} {content content' : Fragment}
    {selfClosing selfClosing' : Bool} {span : Span} {name' : String}
    (h : (elementNode c start name as content selfClosing).1 = .element span name' as' content' selfClosing') :
    name = name' ∧ as = as' ∧ content = content' ∧ selfClosing = selfClosing' := by
  revert h
  refine elementNode_cases (P := fun n => n = .element span name' as' content' selfClosing' →
    name = name' ∧ as = as' ∧ content = content' ∧ selfClosing = selfClosing') ?_ ?_ fun _ => ?_
  · rintro ⟨⟩
  · rintro ⟨⟩
    exact ⟨rfl, rfl, rfl, rfl⟩
  · rintro ⟨⟩

/-! ### Elements with content -/

/-- Tags of a name around a text, in which the opening tag goes on. -/
def tagged (name text : String) : String := "<" ++ name ++ text ++ "</" ++ name ++ ">"

theorem toList_tagged (name text : String) :
    (tagged name text).toList = '<' :: (name.toList ++ (text.toList ++ closingTag name)) := by
  simp [tagged, closingTag]

/-- An element whose opening tag does not close it, unless its name says what its content is. -/
theorem readElement_of_content {rest : List Char} (hrest : (readOpeningTag c).cursor.rest = '>' :: rest)
    (hcontent : isRawTextElement (readOpeningTag c).name = false ∧ isTextElement (readOpeningTag c).name = false)
    (hvoid : isVoidElement (readOpeningTag c).name = false) :
    readElement c = (.opened ⟨.element (readOpeningTag c).name (readOpeningTag c).attributes, c.offset,
      ((readOpeningTag c).cursor.moved ['>'] rest).offset, []⟩, (readOpeningTag c).cursor.moved ['>'] rest) := by
  have hself : (readOpeningTag c).cursor.eat? ['/', '>'] = none := by
    rw [eat?, hrest]
    rfl
  rw [readElement, element_of_open hself (eat?_of_append (show _ = ['>'] ++ rest from hrest)), hcontent.1, hcontent.2,
    hvoid]
  rfl

/-- A frame is left open by an opening tag that does not close the element. -/
theorem of_opened_readElement {f : Frame} (h : (readElement c).1 = .opened f) :
    (readOpeningTag c).cursor.rest = '>' :: (readElement c).2.rest
      ∧ f.opened = .element (readOpeningTag c).name (readOpeningTag c).attributes := by
  have hends : (readOpeningTag c).Ends c.offset (readElement c).1 (readElement c).2 := OpeningTag.ends_element ..
  rw [h] at hends
  generalize (readElement c).2 = c' at hends ⊢
  cases hends with
  | opened hopen => exact ⟨(rest_of_eat? hopen).1, rfl⟩

/-- An element that is read whole and not closed in its opening tag has a name that says what its content is. -/
theorem of_leaf_readElement (hclean : (readElement c).2.faults = []) {span : Span} {as : List Attribute}
    {content : Fragment} (h : (readElement c).1 = .node (.element span name as content false)) :
    isRawTextElement name = true ∨ isTextElement name = true ∨ isVoidElement name = true := by
  have hends : (readOpeningTag c).Ends c.offset (readElement c).1 (readElement c).2 := OpeningTag.ends_element ..
  have hname : ∀ {c' : Cursor} {content' : Fragment} {selfClosing : Bool}, (elementNode c' c.offset
      (readOpeningTag c).name (readOpeningTag c).attributes content' selfClosing).1 = .element span name as content false →
        (readOpeningTag c).name = name ∧ selfClosing = false := by
    intro c' content' selfClosing hnode
    obtain ⟨hname, -, -, hself⟩ := eq_of_elementNode hnode
    exact ⟨hname, hself⟩
  generalize (readElement c).1 = found at hends h
  generalize (readElement c).2 = c' at hends hclean
  cases hends with
  | selfClosing => cases (hname (Found.node.inj h)).2
  | unclosed _ hfault =>
    subst hfault
    cases (reaches_elementNode ..).clean hclean
  | raw _ hraw =>
    rw [(hname (Found.node.inj h)).1] at hraw
    exact .inl hraw
  | text _ htext =>
    rw [(hname (Found.node.inj h)).1] at htext
    exact .inr (.inl htext)
  | void _ hvoid =>
    rw [(hname (Found.node.inj h)).1] at hvoid
    exact .inr (.inr hvoid)
  | opened => cases h

/-- The rest of an element is its content and its closing tag. -/
theorem exists_of_rest_element {start : Nat} {as : List Attribute} {ns : List Node}
    (h : Yields (.rest (.element name as) start) c ns c₂) : ∃ ms c₁, Yields .fragment c ms c₁
      ∧ ns = [(elementNode (c₁.closeTag name start) start name as ⟨ms, c₁.spanFrom c.offset⟩ false).1]
      ∧ c₂ = (elementNode (c₁.closeTag name start) start name as ⟨ms, c₁.spanFrom c.offset⟩ false).2 := by
  generalize hjob : Job.rest (.element name as) start = job at h
  cases h with
  | @done _ _ _ c₁ _ ms _ hcontent hleave =>
    cases hjob
    obtain ⟨hnode, hlast⟩ := Prod.mk.inj hleave
    exact ⟨ms, c₁, hcontent, congrArg List.singleton (Left.done.inj hnode).symm, hlast.symm⟩
  | next _ hleave _ =>
    cases hjob
    cases hleave
  | branch _ hleave _ =>
    cases hjob
    cases hleave
  | _ => cases hjob

/-- The content of an element that was read from its opening tag to its closing tag. -/
theorem exists_content (hat : c.AtElement) {span : Span} {as : List Attribute} {content : Fragment}
    (h : Yields .node c [.element span name as content false] c₂) (hclean : c₂.faults = [])
    (hmarkup : isRawTextElement name = false ∧ isTextElement name = false ∧ isVoidElement name = false) :
    ∃ c₁, (readOpeningTag c).name = name ∧ (readOpeningTag c).attributes = as
      ∧ (readOpeningTag c).cursor.rest = '>' :: (readElement c).2.rest
      ∧ Yields .fragment (readElement c).2 content.nodes c₁ ∧ c₁.closeTag name c.offset = c₂ := by
  rw [← readNode_of_element hat]
  generalize hjob : Job.node = job at h
  generalize hns : [Node.element span name as content false] = ns at h
  cases h with
  | leaf hfound =>
    rw [readNode_of_element hat] at hfound hclean
    rw [← (List.cons.inj hns).1] at hfound
    simpa [hmarkup] using of_leaf_readElement hclean hfound
  | nothing => cases hns
  | @opened _ _ f _ hfound hrest =>
    have hfresh := (opens_readNode c f hfound).eq
    have hopened := hfound
    rw [readNode_of_element hat] at hopened
    obtain ⟨htag, hopened⟩ := of_opened_readElement hopened
    rw [hfresh, hopened] at hrest
    obtain ⟨ms, c₁, hcontent, hnode, rfl⟩ := exists_of_rest_element hrest
    obtain ⟨hname, has, hfragment, -⟩ := eq_of_elementNode (List.cons.inj (hns.trans hnode)).1.symm
    rw [← readNode_of_element hat] at htag
    rw [← hname, ← hfragment]
    exact ⟨c₁, rfl, has, htag, hcontent, (clean_elementNode hclean).2.symm⟩
  | _ => cases hjob

/-! ### Documents of one element -/

/-- Without a fault a node is left where one is read. -/
theorem Yields.ne_nil {ns : List Node} (h : Yields .node c ns c₂) (hclean : c₂.faults = []) (hc : c.rest ≠ []) :
    ns ≠ [] := by
  generalize hjob : Job.node = job at h
  cases h with
  | leaf => simp
  | nothing hfound =>
    have hreach := reaches_readNode c
    obtain ⟨t, ht, -⟩ := reaches_readNode c
    have hsees : c.Sees (t ++ (readNode c).2.rest) := ⟨ht, hreach.clean hclean⟩
    obtain ⟨hlike, -⟩ := hsees.anyNode hclean ht rfl ⟨rfl, fun _ _ _ => rfl⟩ hc
    rw [hfound] at hlike
    cases hlike
  | opened _ hrest =>
    obtain ⟨n, rfl⟩ := hrest.eq_singleton
    simp
  | _ => cases hjob

/-- A text does not end in two ways. -/
theorem eq_of_suffix {d d' e : Char} {cs : List Char} (h : [d, e] <:+ cs) (h' : [d', e] <:+ cs) : d = d' := by
  have hsame := (List.suffix_of_suffix_length_le h h' (Nat.le_refl _)).eq_of_length rfl
  exact (List.cons.inj hsame).1

/-- The character before the last one of a raw block. -/
theorem exists_last_rawBlock {name : List Char} (hclean : (c.rawBlock name).cursor.faults = [])
    (hat : c.atTag name = true) (hend : (c.rawBlock name).cursor.rest = []) :
    ∃ d, [d, '>'] <:+ c.rest ∧ (d = '/' ∨ isBlank d = true ∨ d ∈ name.getLast?) := by
  obtain ⟨t, hc, -⟩ := rest_of_atTag hat
  obtain ⟨hreads, -, -⟩ := readsRaw_rawBlock hclean hc
  obtain ⟨written, hwritten, -⟩ := reaches_attributes (c.moved ('<' :: name) t)
  have hsuffix : (c.moved ('<' :: name) t).attributes.2.rest <:+ c.rest :=
    ⟨'<' :: (name ++ written), by simp [hc, ← show t = _ from hwritten]⟩
  cases hreads with
  | selfClosing hclose =>
    rw [hend] at hclose
    rw [hclose] at hsuffix
    exact ⟨'/', hsuffix, .inl rfl⟩
  | content content blanks hblanks _ hclose =>
    rw [hend] at hclose
    rw [hclose] at hsuffix
    rcases List.eq_nil_or_concat blanks with rfl | ⟨before, b, rfl⟩
    · rcases List.eq_nil_or_concat name with rfl | ⟨letters, d, rfl⟩
      · exact ⟨'/', .trans ⟨'>' :: (content ++ ['<']), by simp⟩ hsuffix, .inl rfl⟩
      · exact ⟨d, .trans ⟨'>' :: (content ++ '<' :: '/' :: letters), by simp⟩ hsuffix, .inr (.inr (by simp))⟩
    · refine ⟨b, .trans ⟨'>' :: (content ++ ('<' :: '/' :: name ++ before)), by simp⟩ hsuffix, .inr (.inl ?_)⟩
      exact hblanks b (by simp)

namespace Reader

variable {r r' : Reader}

theorem rest_readScript (r : Reader) : r.readScript.cursor.rest = (r.cursor.rawBlock "script".toList).cursor.rest := by
  unfold readScript
  dsimp only
  split <;> split <;> rfl

theorem reaches_readStyle (r : Reader) :
    (r.cursor.rawBlock "style".toList).cursor.Reaches r.readStyle.cursor := by
  unfold readStyle
  dsimp only
  split <;> first | exact reaches_fault (.refl _) | exact .refl _

theorem rest_readStyle (r : Reader) : r.readStyle.cursor.rest = (r.cursor.rawBlock "style".toList).cursor.rest := by
  unfold readStyle
  dsimp only
  split <;> rfl

/-- A script or style at the end of a text does not end as the closing tag of a `<div>` does. -/
theorem exists_last_readTop (hframes : r.frames = []) (hreads : r.readsNode = false)
    (hclean : r.readTop.cursor.faults = []) (hend : r.readTop.cursor.rest = []) :
    ∃ d, [d, '>'] <:+ r.cursor.rest ∧ d ≠ 'v' := by
  cases takesTop hframes hreads with
  | script hat htop =>
    rw [htop] at hclean hend
    obtain ⟨d, hsuffix, hd⟩ := exists_last_rawBlock ((reaches_readScript r).clean hclean) hat
      ((rest_readScript r).symm.trans hend)
    refine ⟨d, hsuffix, ?_⟩
    rintro rfl
    revert hd
    decide
  | style hat htop =>
    rw [htop] at hclean hend
    obtain ⟨d, hsuffix, hd⟩ := exists_last_rawBlock ((reaches_readStyle r).clean hclean) hat
      ((rest_readStyle r).symm.trans hend)
    refine ⟨d, hsuffix, ?_⟩
    rintro rfl
    revert hd
    decide
  | closingTag _ htop =>
    rw [htop] at hclean
    cases hclean
  | blockTag htop =>
    rw [htop] at hclean
    cases hclean

theorem Advances.suffix_nodes (h : Advances r r') : r.nodes <:+ r'.nodes := by
  cases h with
  | node => exact List.suffix_append _ _
  | other hframes _ hnot =>
    rw [nodes_readTop hframes hnot]

theorem suffix_nodes (h : Relation.ReflTransGen Advances r r') : r.nodes <:+ r'.nodes := by
  induction h with
  | refl => exact List.suffix_refl _
  | tail _ hmove ih => exact ih.trans hmove.suffix_nodes

theorem leads_of_advances (h : Relation.ReflTransGen Advances r r') : r.Leads r' := by
  induction h with
  | refl => exact .refl r
  | tail _ hmove ih => exact ih.trans hmove.leads

/-- A document that is one node and ends as a `<div>` does is read in one step. -/
theorem yields_run (hframes : r.frames = []) (hnodes : r.nodes = []) (hreads : r.readsNode = true)
    (hclean : r.run.cursor.faults = []) (hone : r.run.nodes = [n]) (hends : ['v', '>'] <:+ r.cursor.rest) :
    Yields .node r.cursor [n] r.run.cursor ∧ r.run.cursor.rest = [] := by
  obtain ⟨hrun, hend⟩ := advances_run hframes
  refine ⟨?_, hend⟩
  generalize r.run = last at hrun hend hclean hone
  rcases Relation.ReflTransGen.cases_tail hrun with rfl | ⟨r₁, hmoves, hlast⟩
  · rw [hnodes] at hone
    cases hone
  have hreach := (leads_of_advances hmoves).reaches
  cases hlast with
  | @node ns c₁ hframes₁ hne hreads₁ hnode =>
    have hsome := hnode.ne_nil hclean hne
    rcases List.append_eq_singleton_iff.1 hone with ⟨hnil, -⟩ | ⟨hns, hnil⟩
    · exact absurd (List.reverse_eq_nil_iff.1 hnil) hsome
    obtain rfl : ns = [n] := List.reverse_injective hns
    -- the step that leaves the node is the first one
    rcases Relation.ReflTransGen.cases_head hmoves with rfl | ⟨r₂, hfirst, hmore⟩
    · exact hnode
    have hlater := suffix_nodes hmore
    rw [hnil, List.suffix_nil] at hlater
    cases hfirst with
    | @node ms c₂ _ hne₂ _ hnode₂ =>
      have hreach₂ := (leads_of_advances hmore).reaches.trans hnode.reaches
      obtain ⟨hms, -⟩ := List.append_eq_nil_iff.1 hlater
      exact absurd (List.reverse_eq_nil_iff.1 hms) (hnode₂.ne_nil (hreach₂.clean hclean) hne₂)
    | other _ _ hnot =>
      rw [hreads] at hnot
      cases hnot
  | other hframes₁ hne hnot =>
    obtain ⟨d, hd, hv⟩ := exists_last_readTop hframes₁ hnot hclean hend
    obtain ⟨t, ht, -⟩ := hreach
    exact absurd (eq_of_suffix (hd.trans ⟨t, ht.symm⟩) hends) hv

/-- An element begins a node, unless its name begins as those of scripts and styles do. -/
theorem readsNode_of_tag {d : Char} {rest : List Char} (hframes : r.frames = []) (hrest : r.cursor.rest = '<' :: d :: rest)
    (hd : d.isAlpha = true) (hs : d ≠ 's') : r.readsNode = true := by
  have hnot : ∀ u, r.cursor.atTag ('s' :: u) = false := by
    intro u
    rw [← Bool.not_eq_true]
    intro hat
    obtain ⟨t, ht, -⟩ := rest_of_atTag hat
    rw [hrest] at ht
    exact hs (List.cons.inj (List.cons.inj ht).2).1
  have hclosing : r.cursor.startsWith ['<', '/'] = false := by
    have hslash : ¬ '/' = d := by
      rintro rfl
      cases hd
    simp [Cursor.startsWith, Text.startsWith, strip?, hrest, hslash]
  have hbrace : ∀ e, r.cursor.startsWith ['{', e] = false := fun e => by
    simp [Cursor.startsWith, Text.startsWith, strip?, hrest]
  have hscript : r.cursor.atTag "script".toList = false := hnot _
  have hstyle : r.cursor.atTag "style".toList = false := hnot _
  rw [readsNode, hframes]
  simp only [hscript, hstyle, hclosing, hbrace]
  rfl

end Reader

/-- A text that is one node is read as a document of the node. -/
theorem read_of_yields {text : String} {ns : List Node} (h : Yields .node (.ofText text.toList) ns c)
    (hreads : (Reader.ofText text).readsNode = true) (hne : text.toList ≠ []) (hc : c.Sees []) :
    (read text).faults = [] ∧ (read text).document.fragment.nodes = ns := by
  have hleads := (Reader.Advances.node (r := .ofText text) rfl hne hreads h).leads
  have hdone : ({ Reader.ofText text with cursor := c, nodes := ns.reverse ++ [] } : Reader).isDone = true := by
    simp [Reader.isDone, atEnd, hc.rest, Reader.ofText]
  have hrun := (Reader.run_of_leads hleads).trans (Reader.run_of_isDone hdone)
  have hread : ({ cursor := .ofText text.toList } : Reader).run = _ := hrun
  rw [read, hread]
  exact ⟨List.reverse_eq_nil_iff.2 hc.faults, (congrArg List.reverse (List.append_nil _)).trans (List.reverse_reverse ns)⟩

/-! ### Components in the place of elements -/

/-- An element that is open at a cursor: what is written of its attributes before the end of the opening tag, and its
content up to the tag that closes it. -/
inductive Cursor.Encloses (c : Cursor) (name written : List Char) (as : List Attribute) (inner : List Char)
    (nodes : List Node) (c₃ : Cursor) : Prop where
  | mk (c₁ c₂ : Cursor) (hopens : OpensWith c name c₁) (has : c₁.attributes.1 = as)
    (hclean : c₁.attributes.2.faults = []) (hwritten : c₁.rest = written ++ (['>'] ++ c₂.rest))
    (hclose : c₁.attributes.2.rest = ['>'] ++ c₂.rest) (hcontent : Yields .fragment c₂ nodes c₃)
    (hinner : c₂.rest = inner ++ c₃.rest)

/-- The closing tag of a `<div>` at the end of a text that ends so has no blanks in it. -/
theorem eq_closingTag {closing cs : List Char} (h : ClosesTag "div" closing) (hsuffix : closing <:+ cs)
    (hends : ['v', '>'] <:+ cs) : closing = closingTag "div" := by
  obtain ⟨-, blanks, hblanks, rfl⟩ := h
  rcases List.eq_nil_or_concat blanks with rfl | ⟨before, b, rfl⟩
  · rfl
  · have hlast : [b, '>'] <:+ cs := .trans ⟨'<' :: '/' :: ("div".toList ++ before), by simp⟩ hsuffix
    have hblank := hblanks b (by simp)
    rw [eq_of_suffix hlast hends] at hblank
    cases hblank

theorem suffix_tagged_div (text : String) : ['v', '>'] <:+ (tagged "div" text).toList := by
  rw [toList_tagged]
  exact ⟨'<' :: ("div".toList ++ (text.toList ++ ['<', '/', 'd', 'i'])), by simp [closingTag]⟩

/-- A document that is a `<div>` is read as one node up to the end. -/
theorem exists_yields_tagged {text : String} (hclean : (read (tagged "div" text)).faults = [])
    (hnodes : (read (tagged "div" text)).document.fragment.nodes = [n]) :
    ∃ last, Yields .node (.ofText (tagged "div" text).toList) [n] last ∧ last.faults = [] ∧ last.rest = [] := by
  have hrun : (Reader.ofText (tagged "div" text)).run.cursor.faults = [] := List.reverse_eq_nil_iff.1 hclean
  have hone : (Reader.ofText (tagged "div" text)).run.nodes = [n] := List.reverse_injective hnodes
  have hreads : (Reader.ofText (tagged "div" text)).readsNode = true :=
    Reader.readsNode_of_tag (d := 'd') rfl (toList_tagged "div" text) rfl (by decide)
  obtain ⟨hyields, hend⟩ := Reader.yields_run rfl rfl hreads hrun hone (suffix_tagged_div text)
  exact ⟨_, hyields, hrun, hend⟩

/-- A document that is a `<div>` encloses its attributes and its content in the tags. -/
theorem exists_encloses {text : String} {span : Span} {as : List Attribute} {content : Fragment}
    (hclean : (read (tagged "div" text)).faults = [])
    (hnodes : (read (tagged "div" text)).document.fragment.nodes = [.element span "div" as content false]) :
    ∃ written inner c₃, (Cursor.ofText (tagged "div" text).toList).Encloses "div".toList written as inner content.nodes c₃
      ∧ c₃.Sees (closingTag "div") ∧ text.toList = written ++ '>' :: inner := by
  obtain ⟨last, hyields, hrun, hend⟩ := exists_yields_tagged hclean hnodes
  have hrest : (Cursor.ofText (tagged "div" text).toList).rest = _ := toList_tagged "div" text
  have hends : ['v', '>'] <:+ (Cursor.ofText (tagged "div" text).toList).rest := suffix_tagged_div text
  generalize Cursor.ofText (tagged "div" text).toList = c at hyields hrest hends ⊢
  have hat : c.AtElement := ⟨'d', _, hrest, rfl⟩
  obtain ⟨c₃, hname, has, hopen, hcontent, hclose⟩ := exists_content hat hyields hrun ⟨rfl, rfl, by decide +kernel⟩
  rw [← hclose] at hend hrun
  obtain ⟨closing, hcloses, hclosing⟩ := rest_of_closeTag hrun
  rw [hend, List.append_nil] at hclosing
  obtain ⟨name', c₁, hopens⟩ := exists_opensWith hat
  have hclean₃ := (reaches_closeTag ..).clean hrun
  have htag : (readOpeningTag c).cursor.faults = [] := (reaches_element ..).clean (hcontent.reaches.clean hclean₃)
  rw [hopens.tag] at hname has hopen htag
  obtain rfl : name' = "div".toList := String.ofList_injective hname
  obtain ⟨written, hwritten, -⟩ := reaches_attributes c₁
  obtain ⟨inner, hinner, -⟩ := hcontent.reaches
  rw [show c₁.attributes.2.rest = _ from hopen] at hwritten
  have htext : text.toList ++ closingTag "div" = written ++ '>' :: (inner ++ closing) := by
    rw [← hclosing, ← hinner]
    exact List.append_cancel_left ((List.cons.inj (hrest.symm.trans hopens.rest)).2.trans (by rw [hwritten]))
  have hsuffix : closing <:+ c.rest := by
    rw [hrest, htext]
    exact ⟨'<' :: ("div".toList ++ (written ++ '>' :: inner)), by simp⟩
  obtain rfl := eq_closingTag hcloses hsuffix hends
  exact ⟨written, inner, c₃, ⟨c₁, (readElement c).2, hopens, has, htag, hwritten, hopen, hcontent, hinner⟩,
    ⟨hclosing, hclean₃⟩, List.append_cancel_right (htext.trans (by simp))⟩

/-- A component encloses the same attributes and the same content. -/
theorem Cursor.Encloses.exists_component {written inner name₀ : List Char} {as : List Attribute} {nodes : List Node}
    {c₃ : Cursor} (h : c.Encloses name₀ written as inner nodes c₃) (hclean : c₃.faults = [])
    (hmark : SameMark c₃.rest (closingTag name)) (hname : IsCapitalName name) (hvoid : isVoidElement name = false)
    (hsees : c'.Sees ('<' :: (name.toList ++ (written ++ '>' :: (inner ++ closingTag name))))) :
    ∃ span as' content' c₂', Yields .node c' [.component span name as' content' false] c₂' ∧ c₂'.Sees []
      ∧ SameAttributes as as' ∧ LikeNodes SameAttributes nodes content'.nodes := by
  obtain ⟨c₁, c₂, hopens, rfl, hattributes, hwritten, hclose, hcontent, hinner⟩ := h
  obtain ⟨d, u, hcons, hd, -⟩ := hname.exists_cons
  obtain ⟨hat, hname', hsame, htag⟩ := Cursor.Sees.openingTag_again hopens ⟨d, u, hcons, hd⟩ hname.letters hattributes
    hwritten hclose (.inl rfl) hsees
  rw [String.ofList_toList] at hname'
  have htag : (readOpeningTag c').cursor.Sees (['>'] ++ (inner ++ closingTag name)) := htag
  have hnode := (readNode_of_element hat).trans
    (readElement_of_content (show _ = '>' :: (inner ++ closingTag name) from htag.rest) (hname' ▸ hname.content)
      (hname' ▸ hvoid))
  rw [hname'] at hnode
  have hinside := htag.moved
  generalize (readOpeningTag c').cursor.moved ['>'] (inner ++ closingTag name) = inside at hnode hinside
  obtain ⟨ns, c₃', hcontent', hlike, hlast⟩ := hcontent.again .fragment hclean hinner rfl hmark hinside (by rintro ⟨⟩)
  have hclosing : c₃'.Sees (closingTag name ++ []) := by
    rw [List.append_nil]
    exact hlast
  have hcloses : ClosesTag name (closingTag name) := ⟨hname.letters, [], by simp [Blank], rfl⟩
  have hleave : leaving (.element name (readOpeningTag c').attributes) c'.offset ⟨ns, c₃'.spanFrom inside.offset⟩ c₃' =
      (.done (.component _ name _ ⟨ns, _⟩ false), _) :=
    congrArg (fun found => (Left.done found.1, found.2)) (hname.elementNode_eq ..)
  have hrest : Yields (.rest (.element name (readOpeningTag c').attributes) c'.offset) (readNode c').2
      [.component ((c₃'.closeTag name c'.offset).spanFrom c'.offset) name (readOpeningTag c').attributes
        ⟨ns, c₃'.spanFrom inside.offset⟩ false] (c₃'.closeTag name c'.offset) := by
    rw [hnode]
    exact .done hcontent' hleave
  exact ⟨_, _, _, _, .opened (congrArg Prod.fst hnode) hrest, hclosing.closeTag hcloses _, hsame, hlike⟩

/-- What is a `<div>` as a whole document is a component if its tags have the name of one instead, and no element
without content has that name: there is no fault, and the attributes and the content are the same apart from
places. -/
theorem read_component {text : String} {span : Span} {as : List Attribute} {content : Fragment}
    (hname : IsCapitalName name) (hvoid : isVoidElement name = false) (hclean : (read (tagged "div" text)).faults = [])
    (hnodes : (read (tagged "div" text)).document.fragment.nodes = [.element span "div" as content false]) :
    (read (tagged name text)).faults = [] ∧ ∃ span' as' content',
      (read (tagged name text)).document.fragment.nodes = [.component span' name as' content' false]
        ∧ as'.map Attribute.unplaced = as.map Attribute.unplaced ∧ content'.unplaced = content.unplaced := by
  obtain ⟨written, inner, c₃, hencloses, hclosing, htext⟩ := exists_encloses hclean hnodes
  obtain ⟨d, u, hcons, hd, hs⟩ := hname.exists_cons
  have hrest : (tagged name text).toList = '<' :: (name.toList ++ (written ++ '>' :: (inner ++ closingTag name))) := by
    rw [toList_tagged, htext]
    simp
  have hmark : SameMark c₃.rest (closingTag name) := by
    rw [hclosing.rest]
    exact ⟨rfl, fun _ _ _ => rfl⟩
  have hsees : (Cursor.ofText (tagged name text).toList).Sees
      ('<' :: (name.toList ++ (written ++ '>' :: (inner ++ closingTag name)))) := ⟨hrest, rfl⟩
  obtain ⟨span', as', content', c₂, hyields, hlast, hsame, hlike⟩ :=
    hencloses.exists_component hclosing.faults hmark hname hvoid hsees
  have hreads : (Reader.ofText (tagged name text)).readsNode = true :=
    Reader.readsNode_of_tag rfl (hrest.trans (by rw [hcons]; rfl)) hd hs
  obtain ⟨hfaults, hone⟩ := read_of_yields hyields hreads (by rw [hrest]; simp) hlast
  exact ⟨hfaults, span', as', content', hone, hsame, Fragment.unplaced_congr hlike.unplacedAll_eq⟩

/-- Whether the nodes are one element of the given name that is not closed in its opening tag. -/
def isAlone (name : String) : List Node → Bool
  | [.element _ name' _ _ selfClosing] => name' == name && !selfClosing
  | _ => false

theorem exists_of_isAlone {nodes : List Node} (h : isAlone name nodes = true) :
    ∃ span as content, nodes = [.element span name as content false] := by
  unfold isAlone at h
  split at h
  · simp only [Bool.and_eq_true, beq_iff_eq, Bool.not_eq_true'] at h
    obtain ⟨rfl, rfl⟩ := h
    exact ⟨_, _, _, rfl⟩
  · cases h

/-- What is written between the tags of a card: an attribute, and a text, an expression and a component. -/
def cardText : String := " a=\x7bb\x7d>c\x7bd\x7d<Link/>"

theorem read_component_card : ∃ span as content,
    (read (tagged "div" cardText)).document.fragment.nodes = [.element span "div" as content false]
      ∧ (read (tagged "Card" cardText)).faults = [] ∧ ∃ span' as' content',
        (read (tagged "Card" cardText)).document.fragment.nodes = [.component span' "Card" as' content' false]
          ∧ as'.map Attribute.unplaced = as.map Attribute.unplaced ∧ content'.unplaced = content.unplaced := by
  obtain ⟨span, as, content, hnodes⟩ := exists_of_isAlone
    (show isAlone "div" (read (tagged "div" cardText)).document.fragment.nodes = true by decide +kernel)
  have hname : IsCapitalName "Card" := ⟨⟨'C', _, rfl, rfl⟩, forall_mem_of_all rfl⟩
  exact ⟨span, as, content, hnodes, read_component hname (by decide +kernel) (by decide +kernel) hnodes⟩

/-- The name of a component is taken for that of an element without content: the component is empty, what should be
its content stands behind it, and its closing tag is a fault. -/
theorem fault_read_capitalLink : IsCapitalName "Link" ∧ (read (tagged "div" ">x")).faults = []
    ∧ isAlone "div" (read (tagged "div" ">x")).document.fragment.nodes = true
    ∧ (read (tagged "Link" ">x")).faults = [⟨.unexpectedClosingTag "Link", ⟨7, 14⟩⟩]
    ∧ (read (tagged "Link" ">x")).document.fragment.nodes.map (fun n => (n.span, n.children.length)) =
      [(⟨0, 6⟩, 0), (⟨6, 7⟩, 0)] :=
  ⟨⟨⟨'L', _, rfl, rfl⟩, forall_mem_of_all rfl⟩, by decide +kernel, by decide +kernel, by decide +kernel,
    by decide +kernel⟩

end Restyle.Markup
