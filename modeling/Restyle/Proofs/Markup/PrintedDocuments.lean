import Restyle.Proofs.Markup.PrintedBlocks
import Restyle.Proofs.Markup.Simulation

/-! Printed documents are read back. The reader takes the scripts, the nodes and the style one after the other,
and at each of them what it has read so far is, apart from places, what was printed before it. So reading is the
inverse of printing, and finds no fault in what is printed. -/

namespace Restyle.Markup

open Text Cursor

/-- Whether a script is a TypeScript one does not depend on places. -/
theorem Attribute.namesTypeScript_unplaced (a : Attribute) : a.unplaced.namesTypeScript = a.namesTypeScript := by
  cases a with
  | normal span name value =>
    show ((name == "lang" || name == "type") && value.unplaced.static?.any _) = _
    rw [static?_unplaced]
    rfl
  | _ => rfl

/-! ### Where a script or style opens -/

/-- The names of scripts and styles are names of elements. -/
theorem isRawTextElement_cases {name : String} (h : isRawTextElement name = true) :
    (∃ d u, name.toList = d :: u ∧ d.isAlpha = true) ∧ ∀ d ∈ name.toList, endsTagName d = false := by
  simp only [isRawTextElement, Bool.or_eq_true, beq_iff_eq] at h
  rcases h with rfl | rfl
  · exact ⟨⟨'s', _, rfl, by decide⟩, forall_mem_of_all rfl⟩
  · exact ⟨⟨'s', _, rfl, by decide⟩, forall_mem_of_all rfl⟩

/-- A printed node is no script or style. -/
theorem BeginsNode.atTag {n : Node} {cs : List Char} {c : Cursor} {name : String} (h : BeginsNode n cs)
    (hc : c.Sees cs) (hname : isRawTextElement name = true) : c.atTag name.toList = false := by
  rw [← Bool.not_eq_true]
  intro hat
  obtain ⟨rest, hrest, hends⟩ := rest_of_atTag hat
  obtain ⟨⟨d, u, hcons, halpha⟩, hletters⟩ := isRawTextElement_cases hname
  rw [hc.rest] at hrest
  cases h with
  | text _ hcs hangle _ =>
    rw [hcs] at hrest
    exact hangle (List.cons.inj hrest).1
  | @tag name' v _ hmarkup hcs hends' =>
    rw [hcs] at hrest
    -- both names go up to the same blank or end of the tag
    have hfirst : (name'.toList ++ v).takeWhile (!endsTagName ·) = name'.toList := by
      refine takeWhile_name (fun e he => (hmarkup.letters e he).1) fun e he => ?_
      obtain ⟨f, hf, hfends⟩ := hends'
      rw [Option.mem_def.1 hf] at he
      cases he
      exact hfends
    have hsame : name'.toList = name.toList := by
      rw [← hfirst, (List.cons.inj hrest).2, takeWhile_name hletters hends]
    have hcontent := hmarkup.content.1
    rw [String.toList_injective hsame, hname] at hcontent
    cases hcontent
  | comment _ hcs =>
    rw [hcs, hcons] at hrest
    cases hrest
    cases halpha
  | brace _ hcs =>
    rw [hcs] at hrest
    cases hrest

/-! ### What the reader has -/

namespace Reader

variable {r : Reader} {d : Document} {z : List Char}

/-- The reader has read a document, apart from places, and stands before a text. -/
structure Has (r : Reader) (d : Document) (z : List Char) : Prop where
  frames : r.frames = []
  cursor : r.cursor.Sees z
  moduleScript : r.moduleScript.map Script.unplaced = d.moduleScript.map Script.unplaced
  instanceScript : r.instanceScript.map Script.unplaced = d.instanceScript.map Script.unplaced
  style : r.style.map Style.unplaced = d.style.map Style.unplaced
  nodes : unplacedAll r.nodes.reverse = unplacedAll d.fragment.nodes

/-- The reader comes to have a document. -/
def Gets (r : Reader) (d : Document) (z : List Char) : Prop := ∃ r', r.Leads r' ∧ r'.Has d z

theorem Has.gets (h : r.Has d z) : r.Gets d z := ⟨r, .refl r, h⟩

theorem Gets.trans {d' : Document} {z' : List Char} (h : r.Gets d z) (hmore : ∀ r', Has r' d z → r'.Gets d' z') :
    r.Gets d' z' := by
  obtain ⟨r', hleads, hhas⟩ := h
  obtain ⟨r'', hleads', hhas'⟩ := hmore r' hhas
  exact ⟨r'', hleads.trans hleads', hhas'⟩

/-! ### Scripts and styles -/

/-- A step at a script or style. -/
theorem Has.leads_readTop (h : r.Has d z) {name : List Char} (hat : r.cursor.atTag name = true) :
    r.Leads r.readTop := by
  obtain ⟨rest, hrest, -⟩ := rest_of_atTag hat
  refine .of_step_eq (isDone_of_rest (by simp [hrest])) ?_
  rw [step, h.frames]

theorem Has.readScript {s : Script} (h : r.Has d (s.print ++ z)) (hs : s.Printable) : r.Leads r.readScript
    ∧ ((r.cursor.rawBlock "script".toList).script r.cursor.offset).unplaced = s.unplaced
    ∧ ((r.cursor.rawBlock "script".toList).script r.cursor.offset).context = s.context
    ∧ (r.cursor.rawBlock "script".toList).cursor.Sees z := by
  have hfree := (free_iff (by decide)).2 hs.content
  obtain ⟨hat, hattributes, hcontent, hsees⟩ := h.cursor.rawBlock_print hs.attributes hfree
  have hcontext : ((r.cursor.rawBlock "script".toList).script r.cursor.offset).context = s.context := by
    rw [hs.context, RawBlock.script, any_unplaced Attribute.namesModule_unplaced hattributes]
  have hlanguage : ((r.cursor.rawBlock "script".toList).script r.cursor.offset).language = s.language := by
    rw [hs.language, RawBlock.script, any_unplaced Attribute.namesTypeScript_unplaced hattributes]
  refine ⟨?_, ?_, hcontext, hsees⟩
  · have htop := h.leads_readTop hat
    rwa [readTop, if_pos hat] at htop
  · rw [Script.unplaced, hcontext, hlanguage]
    simp only [RawBlock.script, hattributes, hcontent, Script.unplaced]

theorem Has.moduleScript_gets {script : Option Script} (h : r.Has d (script.toList.flatMap Script.print ++ z))
    (hscript : ∀ s ∈ script, s.Printable ∧ s.context = .perModule) (hnone : d.moduleScript = none) :
    r.Gets { d with moduleScript := script } z := by
  have hfree : r.moduleScript = none := by simpa [hnone] using h.moduleScript
  cases script with
  | none => exact Has.gets ⟨h.frames, h.cursor, by rw [hfree], h.instanceScript, h.style, h.nodes⟩
  | some s =>
    rw [Option.toList_some, List.flatMap_singleton] at h
    obtain ⟨hs, hcontext⟩ := hscript s rfl
    obtain ⟨hleads, hsame, hcontext', hsees⟩ := h.readScript hs
    refine ⟨_, hleads, ?_⟩
    rw [Reader.readScript]
    dsimp only
    rw [hcontext', hcontext]
    dsimp only
    rw [hfree]
    exact ⟨h.frames, hsees, congrArg some hsame, h.instanceScript, h.style, h.nodes⟩

theorem Has.instanceScript_gets {script : Option Script} (h : r.Has d (script.toList.flatMap Script.print ++ z))
    (hscript : ∀ s ∈ script, s.Printable ∧ s.context = .perInstance) (hnone : d.instanceScript = none) :
    r.Gets { d with instanceScript := script } z := by
  have hfree : r.instanceScript = none := by simpa [hnone] using h.instanceScript
  cases script with
  | none => exact Has.gets ⟨h.frames, h.cursor, h.moduleScript, by rw [hfree], h.style, h.nodes⟩
  | some s =>
    rw [Option.toList_some, List.flatMap_singleton] at h
    obtain ⟨hs, hcontext⟩ := hscript s rfl
    obtain ⟨hleads, hsame, hcontext', hsees⟩ := h.readScript hs
    refine ⟨_, hleads, ?_⟩
    rw [Reader.readScript]
    dsimp only
    rw [hcontext', hcontext]
    dsimp only
    rw [hfree]
    exact ⟨h.frames, hsees, h.moduleScript, congrArg some hsame, h.style, h.nodes⟩

theorem Has.style_gets {style : Option Style} (h : r.Has d (style.toList.flatMap Style.print ++ z))
    (hstyle : ∀ s ∈ style, s.Printable) (hnone : d.style = none) : r.Gets { d with style := style } z := by
  have hfree : r.style = none := by simpa [hnone] using h.style
  cases style with
  | none => exact Has.gets ⟨h.frames, h.cursor, h.moduleScript, h.instanceScript, by rw [hfree], h.nodes⟩
  | some s =>
    rw [Option.toList_some, List.flatMap_singleton] at h
    have hs := hstyle s rfl
    have hcontent := (free_iff (by decide)).2 hs.content
    obtain ⟨hat, hattributes, hcontent, hsees⟩ := h.cursor.rawBlock_print hs.attributes hcontent
    have hscript : ¬ r.cursor.atTag "script".toList = true := by
      intro hscript
      obtain ⟨rest, hrest, -⟩ := rest_of_atTag hscript
      obtain ⟨rest', hrest', -⟩ := rest_of_atTag hat
      rw [hrest] at hrest'
      cases hrest'
    have htop := h.leads_readTop hat
    rw [readTop, if_neg hscript, if_pos hat, Reader.readStyle, hfree] at htop
    refine ⟨_, htop, h.frames, hsees, h.moduleScript, h.instanceScript, congrArg some ?_, h.nodes⟩
    simp only [RawBlock.style, Style.unplaced, hattributes, hcontent]

/-! ### Nodes -/

theorem readsNode_of_beginsNode {n : Node} {cs : List Char} (hframes : r.frames = []) (h : BeginsNode n cs)
    (hc : r.cursor.Sees cs) : r.readsNode = true := by
  have hends := h.endsFragment hc
  simp only [Cursor.endsFragment, atContinuation, Bool.or_eq_false_iff] at hends
  have hscript : isRawTextElement "script" = true := rfl
  have hstyle : isRawTextElement "style" = true := rfl
  rw [readsNode, hframes]
  simp only [h.atTag hc hscript, h.atTag hc hstyle, hends]
  rfl

theorem Has.node_gets {n : Node} {f : Fragment} (h : r.Has d (n.print ++ z)) (hn : n.Printable false)
    (hz : n.isText = true → EndsText z) (hf : f.nodes = d.fragment.nodes ++ [n]) :
    r.Gets { d with fragment := f } z := by
  have hread : n.ReadsBack := hn.readsAs
  have hbegins := hn.beginsNode.append z
  obtain ⟨ns, c, hnode, hsees, hsame⟩ := hread r.cursor z hz h.cursor
  have hreads := readsNode_of_beginsNode h.frames hbegins h.cursor
  have hrest := rest_ne_nil (hbegins.endsFragment h.cursor)
  refine ⟨_, (Advances.node h.frames hrest hreads hnode).leads, h.frames, hsees, h.moduleScript, h.instanceScript,
    h.style, ?_⟩
  rw [List.reverse_append, List.reverse_reverse, hf, unplacedAll_append, unplacedAll_append, h.nodes, hsame]

theorem Has.nodes_gets {nodes : List Node} {f : Fragment} (h : r.Has d (printAll nodes ++ z)) (hspaced : Spaced nodes)
    (hnodes : ∀ n ∈ nodes, n.Printable false) (hz : EndsText z) (hf : f.nodes = d.fragment.nodes ++ nodes) :
    r.Gets { d with fragment := f } z := by
  induction nodes generalizing r d with
  | nil =>
    rw [List.append_nil] at hf
    exact Has.gets ⟨h.frames, h.cursor, h.moduleScript, h.instanceScript, h.style, by rw [h.nodes, hf]⟩
  | cons n nodes ih =>
    rw [printAll, List.append_assoc] at h
    have hmore : ∀ m ∈ nodes, m.Printable false := fun m hm => hnodes m (List.mem_cons_of_mem n hm)
    have hends := hspaced.endsText (fun m hm => (hmore m hm).beginsNode) hz
    have hfirst := h.node_gets (f := ⟨d.fragment.nodes ++ [n], d.fragment.span⟩)
      (hnodes n (List.mem_cons_self ..)) hends rfl
    refine hfirst.trans fun r' hr' => ?_
    have hrest := ih hr' hspaced.of_cons hmore (by simpa using hf)
    exact hrest

end Reader

/-! ### Documents -/

section Documents

variable {r : Reader} {d : Document} {z : List Char}

/-- A style opens as a tag does. -/
theorem endsText_style (style : Option Style) : EndsText (style.toList.flatMap Style.print) := by
  cases style with
  | none => exact .inl rfl
  | some s => exact .inr rfl

/-- A reader that has a document before the end of the text has read it. -/
theorem Reader.Gets.run (h : r.Gets d []) : r.run.Has d [] := by
  obtain ⟨r', hleads, hhas⟩ := h
  have hdone : r'.isDone = true := by simp [isDone, atEnd, hhas.frames, hhas.cursor.rest]
  rw [run_of_leads hleads, run_of_isDone hdone]
  exact hhas

/-- The reader has a printed document in the end. -/
theorem Document.Printable.gets (h : d.Printable) : ({ cursor := .ofText d.print.toList } : Reader).Gets d [] := by
  have hstart : ({ cursor := .ofText d.print.toList } : Reader).Has ⟨none, none, none, ⟨[], d.fragment.span⟩, d.span⟩
      (d.moduleScript.toList.flatMap Script.print ++ (d.instanceScript.toList.flatMap Script.print
        ++ (printAll d.fragment.nodes ++ (d.style.toList.flatMap Style.print ++ [])))) := by
    refine ⟨rfl, ⟨?_, rfl⟩, rfl, rfl, rfl, rfl⟩
    rw [List.append_nil, ← Fragment.print_eq]
    exact String.toList_ofList
  have hscript := hstart.moduleScript_gets h.moduleScript rfl
  have hscripts := hscript.trans fun r hr => hr.instanceScript_gets h.instanceScript rfl
  have hnodes := hscripts.trans fun r hr =>
    hr.nodes_gets h.spaced h.nodes (by rw [List.append_nil]; exact endsText_style d.style) (List.nil_append _).symm
  exact hnodes.trans fun r hr => hr.style_gets h.style rfl

/-- A printed document is read back, apart from places, and nothing is wrong with it. -/
theorem read_print (d : Document) (h : d.Printable) :
    (read d.print).faults = [] ∧ (read d.print).document.unplaced = d.unplaced := by
  have hrun := h.gets.run
  refine ⟨?_, ?_⟩
  · rw [read, hrun.cursor.faults]
    rfl
  · rw [read]
    simp only [Document.unplaced, hrun.moduleScript, hrun.instanceScript, hrun.style]
    rw [Fragment.unplaced_congr (g := d.fragment) hrun.nodes]

end Documents

/-- The element in the else-if branch of the page. -/
def framedImage : Node :=
  .element (.point 0) "img" [.normal (.point 0) "src" (.expression (.point 0) ⟨.point 0, "b"⟩)] ⟨[], .point 0⟩ true

/-- The else-if block of the page. -/
def framedBranch : Node := .ifBlock (.point 0) true ⟨.point 0, "a.b"⟩ ⟨[framedImage], .point 0⟩ none

/-- The page `<script module>let b;</script>{#if a}c{:else if a.b}<img src={b}/>{/if}`. -/
def framedPage : Document where
  moduleScript := some ⟨.point 0, .point 0, "let b;", .javaScript, .perModule, [.normal (.point 0) "module" .absent]⟩
  instanceScript := none
  style := none
  fragment := ⟨[.ifBlock (.point 0) false ⟨.point 0, "a"⟩ ⟨[.text (.point 0) "c"], .point 0⟩
    (some ⟨[framedBranch], .point 0⟩)], .point 0⟩
  span := .point 0

theorem printable_framedImage : framedImage.Printable false := by
  have hname : IsMarkupName "img" := ⟨⟨'i', rfl, by decide⟩, forall_mem_of_all rfl, by decide⟩
  refine .element ⟨hname, ?_, fun _ => rfl, by simp⟩ (by decide) (by simp [Spaced]) (by simp)
  intro a ha
  rw [List.mem_singleton.1 ha]
  exact .braced ⟨by decide, forall_mem_of_all rfl⟩ ⟨by decide, rfl⟩

theorem printable_framedBranch : framedBranch.Printable true :=
  .ifBlock ⟨⟨by decide, rfl⟩, by decide⟩ (by simp [Spaced]) (by simp [printable_framedImage])

theorem read_print_framedPage : framedPage.Printable ∧ (read framedPage.print).faults = []
    ∧ (read framedPage.print).document.unplaced = framedPage.unplaced := by
  have hscript : ∀ s ∈ framedPage.moduleScript, s.Printable ∧ s.context = .perModule := by
    rintro s ⟨⟩
    refine ⟨⟨?_, by decide, rfl, rfl⟩, rfl⟩
    intro a ha
    rw [List.mem_singleton.1 ha]
    exact .bare ⟨by decide, forall_mem_of_all rfl⟩
  have hnodes : ∀ n ∈ framedPage.fragment.nodes, n.Printable false := by
    intro n hn
    rw [List.mem_singleton.1 hn]
    refine .ifElseIf ⟨⟨by decide, rfl⟩, by simp⟩ (by simp [Spaced]) ?_ printable_framedBranch
    intro m hm
    rw [List.mem_singleton.1 hm]
    exact .text (by decide) (forall_mem_of_all rfl)
  have h : framedPage.Printable := ⟨hscript, by rintro s ⟨⟩, by rintro s ⟨⟩, by simp [Spaced, framedPage], hnodes⟩
  exact ⟨h, read_print framedPage h⟩

end Restyle.Markup
