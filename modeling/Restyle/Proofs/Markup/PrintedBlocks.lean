import Restyle.Proofs.Markup.Leaving
import Restyle.Proofs.Markup.PrintedNodes

/-! Printed blocks are read back. What is left of a block behind its opening tag is read back branch by branch:
each branch ends at a tag that goes on to the next one or closes the block. An else-if block has no closing tag of
its own, so it is read back up to the tag that closes its if block. -/

namespace Restyle.Markup

open Text Cursor

/-! ### Tags of blocks -/

section Tags

variable {c : Cursor} {n : Node} {keyword : String} {raw z z₁ : List Char} {e e' : Expression}

theorem keyed_nil (h : ∀ d ∈ keyword.toList, d.isAlpha = true) : Keyed keyword.toList [] :=
  ⟨h, by simp, rfl⟩

theorem endsFragment_branch (keyword : String) (raw z : List Char) : EndsFragment (blockTag ':' keyword raw ++ z) :=
  .inr (.inl ⟨_, rfl⟩)

theorem endsFragment_closing (keyword : String) (raw z : List Char) : EndsFragment (blockTag '/' keyword raw ++ z) :=
  .inr (.inr ⟨_, rfl⟩)

/-- A block is read back if what is left of it behind its tag is. -/
theorem Gives.block {opened : Expression → Opened} (hbegins : Begins keyword opened) (he : e.Fits [' '])
    (h : c.Sees (blockTag '#' keyword (' ' :: e.text.toList) ++ z₁))
    (hrest : ∀ (c₁ : Cursor) (e' : Expression) (start : Nat), c₁.Sees z₁ → e'.text = e.text →
      Gives (.rest (opened e') start) c₁ [n] z) : Gives .node c [n] z := by
  have hc : c.rest = '{' :: '#' :: (keyword.toList ++ ((' ' :: e.text.toList) ++ '}' :: z₁)) := by
    rw [h.rest, blockTag]
    simp
  have hmoved : (c.moved ['{', '#'] (keyword.toList ++ ((' ' :: e.text.toList) ++ '}' :: z₁))).Sees _ :=
    ⟨rfl, h.faults⟩
  have halpha : ∀ d ∈ keyword.toList, d.isAlpha = true := by cases hbegins <;> exact forall_mem_of_all rfl
  obtain ⟨hword, hsome, hsees⟩ := hmoved.keyed (keyed_blank halpha he.closed)
  have hopened := fun o start => hrest _ _ start hsees (Expression.text_ofRaw he.trim_blank o)
  have hnode := readNode_of_block hc
  unfold readBlock at hnode
  dsimp only at hnode
  rw [hsome, hword, String.ofList_toList] at hnode
  cases hbegins <;> exact .opens (congrArg Prod.fst hnode) (by rw [hnode]; exact hopened _ _)

theorem Cursor.Sees.continuation?_print (hk : Keyed keyword.toList raw) (h : c.Sees (blockTag ':' keyword raw ++ z)) :
    ∃ e, c.continuation?.1 = some (keyword, e) ∧ e.text = String.ofList (trim raw) ∧ c.continuation?.2.Sees z := by
  have h : c.Sees ('{' :: ':' :: (keyword.toList ++ (raw ++ '}' :: z))) := by simpa [blockTag] using h
  obtain ⟨hsome, hsees⟩ := h.continuation? hk
  rw [String.ofList_toList] at hsome
  exact ⟨_, hsome, rfl, hsees⟩

/-- A closing tag goes on to no branch. -/
theorem Cursor.Sees.continuation?_closing (h : c.Sees z) (hz : ['{', '/'] <+: z) : c.continuation? = (none, c) := by
  obtain ⟨u, rfl⟩ := hz
  refine continuation?_of_not ?_
  rw [atContinuation, Cursor.startsWith, h.rest]
  rfl

end Tags

/-! ### If blocks -/

section Ifs

variable {c : Cursor} {z : List Char} {start : Nat} {span : Span} {elseif : Bool} {test : Expression}
  {consequent : Fragment}

/-- What is left of an if block behind its tag is read back. The closing tag of its if block comes behind an
else-if block. -/
def Node.ReadsOn : Node → Prop
  | .ifBlock span elseif test consequent alternate =>
    ∀ (c : Cursor) (z : List Char) (start : Nat) (test' : Expression), test'.text = test.text →
      (elseif = true → ['{', '/'] <+: z) →
      c.Sees (consequent.print ++ (printOption (if alternate.any Fragment.isBranch then []
        else blockTag ':' "else" []) alternate ++ (endIf elseif ++ z))) →
      Gives (.rest (.consequent elseif test') start) c [.ifBlock span elseif test consequent alternate] z
  | _ => True

theorem prefix_endIf (hz : elseif = true → ['{', '/'] <+: z) : ['{', '/'] <+: endIf elseif ++ z := by
  cases elseif with
  | true => exact hz rfl
  | false => exact ⟨_, rfl⟩

theorem Cursor.Sees.ifNode (h : c.Sees (endIf elseif ++ z)) (start : Nat) (test : Expression) (consequent : Fragment)
    (alternate : Option Fragment) : (Reader.ifNode c start elseif test consequent alternate).2.Sees z := by
  cases elseif with
  | true => exact h
  | false => exact h.closeBlock (closesBlock_blockTag (forall_mem_of_all rfl)) start

theorem unplaced_ifNode {test' : Expression} {consequent' : Fragment} {alternate alternate' : Option Fragment}
    (htest : test'.text = test.text) (hconsequent : consequent'.unplaced = consequent.unplaced)
    (halternate : unplacedOption alternate' = unplacedOption alternate) (c : Cursor) (start : Nat) (span : Span) :
    (Reader.ifNode c start elseif test' consequent' alternate').1.unplaced =
      (Node.ifBlock span elseif test consequent alternate).unplaced := by
  simp only [Reader.ifNode, Node.unplaced, Expression.unplaced_congr htest, hconsequent, halternate]

/-- An if block without another branch. -/
theorem readsOn_ifBlock (hconsequent : consequent.ReadsBack) :
    (Node.ifBlock span elseif test consequent none).ReadsOn := by
  intro c z start test' htest hz h
  have hclosing := prefix_endIf hz
  refine .done (hconsequent c _ (.inr (.inr hclosing)) h) fun content c₁ hc₁ hsame => ?_
  refine ⟨(Reader.ifNode c₁ start elseif test' content none).1, _, ?_, hc₁.ifNode start test' content none,
    unplaced_ifNode htest hsame rfl ..⟩
  rw [leaving, leavingConsequent, hc₁.continuation?_closing hclosing]

theorem isAlpha_else : ∀ d ∈ "else".toList, d.isAlpha = true := forall_mem_of_all rfl

/-- Nothing behind the else of an else branch is a test. -/
theorem leavingConsequent_of_else {e : Expression} (hsome : c.continuation?.1 = some ("else", e)) (he : e.text = "")
    (content : Fragment) : leavingConsequent start elseif test content c =
      (.next (.alternate elseif test content), c.continuation?.2) := by
  have htest : Reader.elseIfTest? e = none := by
    rw [Reader.elseIfTest?, he]
    rfl
  rw [leavingConsequent_of_next hsome ((if_pos rfl).trans htest), he]
  rfl

/-- An if block with an else branch. -/
theorem readsOn_ifElse {alternate : Fragment} (hconsequent : consequent.ReadsBack) (halternate : alternate.ReadsBack)
    (hbranch : alternate.isBranch = false) : (Node.ifBlock span elseif test consequent (some alternate)).ReadsOn := by
  intro c z start test' htest hz h
  have h : c.Sees (consequent.print ++ (blockTag ':' "else" [] ++ (alternate.print ++ (endIf elseif ++ z)))) := by
    simpa [hbranch, printOption] using h
  refine .next (hconsequent c _ (endsFragment_branch ..) h) fun content c₁ hc₁ hsame => ?_
  obtain ⟨e, hsome, htext, hsees⟩ := hc₁.continuation?_print (keyed_nil isAlpha_else)
  refine ⟨.alternate elseif test' content, _, leavingConsequent_of_else hsome htext content, ?_⟩
  refine .done (halternate _ _ (.inr (.inr (prefix_endIf hz))) hsees) fun content' c₂ hc₂ hsame' => ?_
  exact ⟨_, _, rfl, hc₂.ifNode start test' content (some content'),
    unplaced_ifNode htest hsame (unplacedOption_congr hsame') ..⟩

/-- What stands behind the else of an else-if block is its test. -/
theorem exists_elseIfTest? {e : Expression} (htest : test.IsTest true)
    (he : e.text = String.ofList (trim ([' ', 'i', 'f', ' '] ++ test.text.toList))) :
    ∃ test', Reader.elseIfTest? e = some test' ∧ test'.text = test.text := by
  have htrim : trim ([' ', 'i', 'f', ' '] ++ test.text.toList) = ['i', 'f'] ++ (' ' :: test.text.toList) :=
    (trim_cons (by decide) _).trans (trim_append_of_trimmed ['i', 'f', ' '] htest.fits.trimmed (by simp)
      (by simp; decide) fun hnil => absurd (String.toList_eq_nil_iff.1 hnil) (htest.nonempty rfl))
  have hblank : trim (' ' :: test.text.toList) = test.text.toList :=
    (trim_cons (by decide) _).trans htest.fits.trimmed
  have hspace : isSpace ' ' = true := by decide
  unfold Reader.elseIfTest?
  rw [he, String.toList_ofList, htrim, strip?_eq_some_iff.2 rfl]
  exact ⟨_, if_pos hspace, Expression.text_ofRaw hblank _⟩

theorem Node.Printable.exists_ifBlock {n : Node} (h : n.Printable true) :
    ∃ span test consequent alternate, n = .ifBlock span true test consequent alternate ∧ test.IsTest true := by
  cases h with
  | ifBlock htest => exact ⟨_, _, _, _, rfl, htest⟩
  | ifElse htest => exact ⟨_, _, _, _, rfl, htest⟩
  | ifElseIf htest => exact ⟨_, _, _, _, rfl, htest⟩

/-- An if block that goes on with an else-if block. -/
theorem readsOn_ifElseIf {n : Node} {s : Span} (hconsequent : consequent.ReadsBack) (hn : n.Printable true)
    (hread : n.ReadsOn) : (Node.ifBlock span elseif test consequent (some ⟨[n], s⟩)).ReadsOn := by
  intro c z start test' htest hz h
  obtain ⟨span₁, test₁, consequent₁, alternate₁, rfl, htest₁⟩ := hn.exists_ifBlock
  have h : c.Sees (consequent.print ++ (blockTag ':' "else" ([' ', 'i', 'f', ' '] ++ test₁.text.toList)
      ++ (consequent₁.print ++ (printOption (if alternate₁.any Fragment.isBranch then [] else blockTag ':' "else" [])
        alternate₁ ++ (endIf true ++ (endIf elseif ++ z)))))) := by
    simpa [Fragment.isBranch, Node.isBranch, printOption, Fragment.print, printAll, Node.print, ifTag] using h
  refine .branch (m := .ifBlock span₁ true test₁ consequent₁ alternate₁)
    (hconsequent c _ (endsFragment_branch ..) h) fun content c₁ hc₁ hsame => ?_
  have hkeyed : Keyed "else".toList ([' ', 'i', 'f', ' '] ++ test₁.text.toList) :=
    ⟨isAlpha_else, by simp, htest₁.fits.closed⟩
  obtain ⟨e, hsome, htext, hsees⟩ := hc₁.continuation?_print hkeyed
  obtain ⟨test'', hif, htest''⟩ := exists_elseIfTest? htest₁ htext
  refine ⟨elseif, test', content, test'', _, _, leavingConsequent_of_branch hsome ((if_pos rfl).trans hif) content,
    hread _ _ _ test'' htest'' (fun _ => prefix_endIf hz) hsees, fun m c₂ hc₂ hm => ?_⟩
  refine ⟨hc₂.ifNode start test' content _, unplaced_ifNode htest hsame ?_ ..⟩
  exact unplacedOption_congr (Fragment.unplaced_congr (by rw [unplacedAll_singleton, unplacedAll_singleton, hm]))

/-- An if block is read back from its tag on. -/
theorem readsBack_ifBlock {alternate : Option Fragment} (htest : test.IsTest false)
    (h : (Node.ifBlock span false test consequent alternate).ReadsOn) :
    (Node.ifBlock span false test consequent alternate).ReadsBack := by
  intro c z _ hc
  rw [Node.print, List.append_assoc, List.append_assoc, List.append_assoc] at hc
  exact .block .ifBlock htest.fits hc fun c₁ test' start hc₁ htest' => h c₁ z start test' htest' (by simp) hc₁

end Ifs

/-! ### Each blocks -/

section Each

variable {c : Cursor} {z : List Char} {start : Nat} {span : Span} {header : Expression} {body : Fragment}

theorem leavingEach_of_closing (start : Nat) (h : c.Sees (blockTag '/' "each" [] ++ z)) (body : Fragment)
    (fallback : Option Fragment) :
    ∃ c', leavingEach start header body fallback c = (.done (.eachBlock (c'.spanFrom start) header body fallback), c')
      ∧ c'.Sees z := by
  refine ⟨_, ?_, h.closeBlock (closesBlock_blockTag (forall_mem_of_all rfl)) start⟩
  rw [leavingEach, h.continuation?_closing ⟨_, rfl⟩]

theorem leavingEach_of_else {e : Expression} (hsome : c.continuation?.1 = some ("else", e)) (he : e.text = "")
    (body : Fragment) (fallback : Option Fragment) : leavingEach start header body fallback c =
      (.next (.eachFallback header body), c.continuation?.2) := by
  unfold leavingEach
  dsimp only
  rw [hsome]
  dsimp only
  rw [he]
  rfl

theorem readsBack_eachBlock {fallback : Option Fragment} (hheader : header.Fits [' ']) (hbody : body.ReadsBack)
    (hfallback : ∀ f ∈ fallback, f.ReadsBack) : (Node.eachBlock span header body fallback).ReadsBack := by
  intro c z _ h
  rw [Node.print, List.append_assoc, List.append_assoc, List.append_assoc] at h
  refine .block .eachBlock hheader h fun c₁ header' start hc₁ hsame => ?_
  have hheader' := Expression.unplaced_congr hsame
  cases fallback with
  | none =>
    refine .done (hbody c₁ _ (endsFragment_closing ..) hc₁) fun content c₂ hc₂ hcontent => ?_
    obtain ⟨c₃, hleaving, hc₃⟩ := leavingEach_of_closing start hc₂ content none
    exact ⟨_, c₃, hleaving, hc₃, by simp only [Node.unplaced, hheader', hcontent]⟩
  | some f =>
    rw [printOption, List.append_assoc] at hc₁
    refine .next (hbody c₁ _ (endsFragment_branch ..) hc₁) fun content c₂ hc₂ hcontent => ?_
    obtain ⟨e, hsome, htext, hsees⟩ := hc₂.continuation?_print (keyed_nil isAlpha_else)
    refine ⟨_, _, leavingEach_of_else hsome htext content none, ?_⟩
    refine .done (hfallback f rfl _ _ (endsFragment_closing ..) hsees) fun content' c₃ hc₃ hcontent' => ?_
    obtain ⟨c₄, hleaving, hc₄⟩ := leavingEach_of_closing start hc₃ content (some content')
    exact ⟨_, c₄, hleaving, hc₄, by simp only [Node.unplaced, hheader', hcontent, unplacedOption_congr hcontent']⟩

end Each

/-! ### Await blocks -/

section Await

variable {c : Cursor} {z z₁ : List Char} {start : Nat} {span : Span} {header header' : Expression}
  {branches final : AwaitBranches} {slot : AwaitSlot} {f pending : Fragment} {resolved failed : Option Fragment}

def AwaitBranches.unplaced (b : AwaitBranches) : AwaitBranches :=
  ⟨unplacedOption b.pending, unplacedOption b.resolved, unplacedOption b.failed⟩

/-- The branches are the given ones, apart from places, when the branch that is read has been stored. -/
def Stores (branches : AwaitBranches) (slot : AwaitSlot) (f : Fragment) (final : AwaitBranches) : Prop :=
  ∀ (c : Cursor) (content : Fragment), content.unplaced = f.unplaced →
    (Reader.storeBranch branches c content slot).1.unplaced = final.unplaced

theorem stores_of_same {base : AwaitBranches} (h : branches.unplaced = base.unplaced) (c : Cursor) :
    Stores branches slot f (Reader.storeBranch base c f slot).1 := by
  intro c' content hcontent
  simp only [AwaitBranches.unplaced, AwaitBranches.mk.injEq] at h
  obtain ⟨hpending, hresolved, hfailed⟩ := h
  cases slot <;> simp [Reader.storeBranch, AwaitBranches.unplaced, unplacedOption, *]

theorem leavingAwait_of_closing (start : Nat) (branches : AwaitBranches) (hslot : slot.isKnown = true)
    (h : c.Sees (blockTag '/' "await" [] ++ z)) (content : Fragment) : ∃ c',
      let stored := (Reader.storeBranch branches c content slot).1
      leavingAwait start header branches slot content c =
        (.done (.awaitBlock (c'.spanFrom start) header stored.pending stored.resolved stored.failed), c')
      ∧ c'.Sees z := by
  refine ⟨_, ?_, h.closeBlock (closesBlock_blockTag (forall_mem_of_all rfl)) start⟩
  rw [leavingAwait, snd_storeBranch branches c content hslot, h.continuation?_closing ⟨_, rfl⟩]

/-- The last branch of an await block. -/
theorem Gives.awaitLast (final : AwaitBranches) (hheader : header'.text = header.text) (hslot : slot.isKnown = true)
    (hstores : Stores branches slot f final) (hf : f.ReadsBack)
    (h : c.Sees (f.print ++ (blockTag '/' "await" [] ++ z))) :
    Gives (.rest (.awaitBranch header' branches slot) start) c
      [.awaitBlock span header final.pending final.resolved final.failed] z := by
  refine .done (hf c _ (endsFragment_closing ..) h) fun content c₁ hc₁ hcontent => ?_
  have hstored := hstores c₁ content hcontent
  simp only [AwaitBranches.unplaced, AwaitBranches.mk.injEq] at hstored
  obtain ⟨hpending, hresolved, hfailed⟩ := hstored
  obtain ⟨c₂, hleaving, hc₂⟩ := leavingAwait_of_closing start branches hslot hc₁ content
  refine ⟨_, c₂, hleaving, hc₂, ?_⟩
  simp only [Node.unplaced, Expression.unplaced_congr hheader, hpending, hresolved, hfailed]

/-- A branch of an await block before another one. -/
theorem Gives.awaitNext {n : Node} {keyword : String} {next : AwaitSlot}
    (hkeyword : ∀ d ∈ keyword.toList, d.isAlpha = true) (hnext : ∀ span, Reader.awaitSlot keyword span = next) (hslot : slot.isKnown = true)
    (hstores : Stores branches slot f final) (hf : f.ReadsBack)
    (h : c.Sees (f.print ++ (blockTag ':' keyword [] ++ z₁)))
    (hrest : ∀ (branches' : AwaitBranches) (c₁ : Cursor), branches'.unplaced = final.unplaced → c₁.Sees z₁ →
      Gives (.rest (.awaitBranch header' branches' next) start) c₁ [n] z) :
    Gives (.rest (.awaitBranch header' branches slot) start) c [n] z := by
  refine .next (hf c _ (endsFragment_branch ..) h) fun content c₁ hc₁ hcontent => ?_
  obtain ⟨e, hsome, -, hsees⟩ := hc₁.continuation?_print (keyed_nil hkeyword)
  refine ⟨_, _, ?_, hrest _ _ (hstores c₁ content hcontent) hsees⟩
  rw [leaving, leavingAwait, snd_storeBranch branches c₁ content hslot, hsome, ← hnext e.span]

/-- The branches of an await block from one before its catch branch on. -/
theorem Gives.awaitFailed {first second : Option Fragment} (hheader : header'.text = header.text)
    (hslot : slot.isKnown = true) (hstores : Stores branches slot f ⟨first, second, none⟩) (hf : f.ReadsBack)
    (hfailed : ∀ g ∈ failed, g.ReadsBack)
    (h : c.Sees (f.print ++ (printOption (blockTag ':' "catch" []) failed ++ (blockTag '/' "await" [] ++ z)))) :
    Gives (.rest (.awaitBranch header' branches slot) start) c [.awaitBlock span header first second failed] z := by
  cases failed with
  | none => exact .awaitLast ⟨first, second, none⟩ hheader hslot hstores hf h
  | some g =>
    rw [printOption, List.append_assoc] at h
    refine .awaitNext (forall_mem_of_all rfl) (fun _ => rfl) hslot hstores hf h fun branches' c₁ hsame hc₁ => ?_
    exact .awaitLast ⟨first, second, some g⟩ hheader rfl (stores_of_same hsame c₁) (hfailed g rfl) hc₁

theorem readsBack_awaitBlock (hheader : header.Fits [' ']) (hfirst : firstSlot header = .pending)
    (hpending : pending.ReadsBack) (hresolved : ∀ f ∈ resolved, f.ReadsBack) (hfailed : ∀ f ∈ failed, f.ReadsBack) :
    (Node.awaitBlock span header (some pending) resolved failed).ReadsBack := by
  intro c z _ h
  have h : c.Sees (blockTag '#' "await" (' ' :: header.text.toList) ++ (pending.print ++
      (printOption (blockTag ':' "then" []) resolved ++ (printOption (blockTag ':' "catch" []) failed
        ++ (blockTag '/' "await" [] ++ z))))) := by simpa [Node.print, printOption] using h
  refine .block .awaitBlock hheader h fun c₁ header' start hc₁ hsame => ?_
  have hslot : firstSlot header' = .pending := by
    rw [← hfirst, firstSlot, hsame]
    rfl
  rw [hslot]
  have hstores : Stores {} .pending pending ⟨some pending, none, none⟩ := stores_of_same rfl c₁
  cases resolved with
  | none => exact .awaitFailed hsame rfl hstores hpending hfailed hc₁
  | some f =>
    rw [printOption, List.append_assoc] at hc₁
    refine .awaitNext (forall_mem_of_all rfl) (fun _ => rfl) rfl hstores hpending hc₁ fun branches c₂ hbranches hc₂ => ?_
    exact .awaitFailed hsame rfl (stores_of_same hbranches c₂) (hresolved f rfl) hfailed hc₂

end Await

/-! ### Key and snippet blocks -/

section Plain

variable {span : Span} {body : Fragment}

theorem readsBack_keyBlock {value : Expression} (hvalue : value.Fits [' ']) (hbody : body.ReadsBack) :
    (Node.keyBlock span value body).ReadsBack := by
  intro c z _ h
  rw [Node.print, List.append_assoc, List.append_assoc] at h
  refine .block .keyBlock hvalue h fun c₁ value' start hc₁ hsame => ?_
  refine .done (hbody c₁ _ (endsFragment_closing ..) hc₁) fun content c₂ hc₂ hcontent => ?_
  refine ⟨_, _, rfl, hc₂.closeBlock (closesBlock_blockTag (forall_mem_of_all rfl)) start, ?_⟩
  simp only [Node.unplaced, Expression.unplaced_congr hsame, hcontent]

/-- A snippet as it stands behind its keyword. -/
def snippetHeader (name parameters : String) : Expression :=
  ⟨.point 0, String.ofList (name.toList ++ '(' :: (parameters.toList ++ [')']))⟩

variable {name parameters : String}

theorem fits_snippetHeader (hname : trim name.toList = name.toList)
    (hclosed : Embedded.Closed (' ' :: (name.toList ++ '(' :: (parameters.toList ++ [')'])))) :
    (snippetHeader name parameters).Fits [' '] := by
  refine ⟨trim_eq_self_iff.2 ?_, ?_⟩
  · rw [snippetHeader, String.toList_ofList]
    refine ⟨fun d hd => ?_, fun d hd => ?_⟩
    · cases hcons : name.toList with
      | nil =>
        rw [hcons] at hd
        cases hd
        decide
      | cons e u =>
        rw [hcons] at hd
        exact (trim_eq_self_iff.1 hname).1 d (by rw [hcons]; exact hd)
    · rw [← List.cons_append, ← List.append_assoc, List.getLast?_concat] at hd
      cases hd
      decide
  · rw [snippetHeader, String.toList_ofList]
    exact hclosed

/-- The name and the parameters of a snippet are found in its header. -/
theorem snippetParts_snippetHeader (hletters : ∀ d ∈ name.toList, d ≠ '(' ∧ d ≠ '<')
    (hname : trim name.toList = name.toList) (hparameters : trim parameters.toList = parameters.toList) :
    snippetParts (snippetHeader name parameters).text = (name, parameters) := by
  have htake : (name.toList ++ '(' :: (parameters.toList ++ [')'])).takeWhile (fun c => c ≠ '(' && c ≠ '<') =
      name.toList := by
    rw [List.takeWhile_append_of_pos (fun d hd => by simp [hletters d hd])]
    simp
  have hdrop : (name.toList ++ '(' :: (parameters.toList ++ [')'])).dropWhile (· ≠ '(') =
      '(' :: (parameters.toList ++ [')']) := by
    rw [List.dropWhile_append_of_pos (fun d hd => by simp [hletters d hd])]
    simp
  rw [snippetParts, snippetHeader, String.toList_ofList, htake, hdrop, hname, String.ofList_toList]
  simp [hparameters, String.ofList_toList]

theorem readsBack_snippetBlock (hletters : ∀ d ∈ name.toList, d ≠ '(' ∧ d ≠ '<')
    (hname : trim name.toList = name.toList) (hparameters : trim parameters.toList = parameters.toList)
    (hclosed : Embedded.Closed (' ' :: (name.toList ++ '(' :: (parameters.toList ++ [')']))))
    (hbody : body.ReadsBack) :
    (Node.snippetBlock span name parameters body).ReadsBack := by
  intro c z _ h
  have h : c.Sees (blockTag '#' "snippet" (' ' :: (snippetHeader name parameters).text.toList)
      ++ (body.print ++ (blockTag '/' "snippet" [] ++ z))) := by
    rw [snippetHeader, String.toList_ofList]
    rw [Node.print, List.append_assoc, List.append_assoc] at h
    exact h
  refine .block .snippetBlock (fits_snippetHeader hname hclosed) h fun c₁ header start hc₁ hsame => ?_
  rw [hsame, snippetParts_snippetHeader hletters hname hparameters]
  refine .done (hbody c₁ _ (endsFragment_closing ..) hc₁) fun content c₂ hc₂ hcontent => ?_
  refine ⟨_, _, rfl, hc₂.closeBlock (closesBlock_blockTag (forall_mem_of_all rfl)) start, ?_⟩
  simp only [Node.unplaced, hcontent]

end Plain

/-! ### All nodes -/

/-- The node is read back, if it is an else-if block, from behind its tag on. -/
def Node.ReadsAs (n : Node) : Bool → Prop
  | true => n.ReadsOn
  | false => n.ReadsBack

theorem readsAs_ifBlock {span : Span} {elseif : Bool} {test : Expression} {consequent : Fragment}
    {alternate : Option Fragment} (htest : test.IsTest elseif)
    (h : (Node.ifBlock span elseif test consequent alternate).ReadsOn) :
    (Node.ifBlock span elseif test consequent alternate).ReadsAs elseif := by
  cases elseif with
  | true => exact h
  | false => exact readsBack_ifBlock htest h

theorem Node.Printable.isBranch_eq {elseif : Bool} {n : Node} (h : n.Printable elseif) : n.isBranch = elseif := by
  cases h <;> rfl

theorem Fragment.isBranch_of_printable {f : Fragment} (h : ∀ n ∈ f.nodes, n.Printable false) : f.isBranch = false := by
  unfold Fragment.isBranch
  split
  · next n hnodes => exact (h n (by rw [hnodes]; exact List.mem_singleton_self n)).isBranch_eq
  · rfl

/-- Every printable node is read back. -/
theorem Node.Printable.readsAs {elseif : Bool} {n : Node} (h : n.Printable elseif) : n.ReadsAs elseif := by
  induction h with
  | element helement hname hspaced hnodes ih =>
    exact readsBack_element helement (by rw [hname]; rfl) (Fragment.readsBack hspaced hnodes ih)
  | component helement hname hspaced hnodes ih =>
    exact readsBack_element helement (by rw [hname]; rfl) (Fragment.readsBack hspaced hnodes ih)
  | text hne hletters => exact readsBack_text hne hletters
  | comment hdata => exact readsBack_comment hdata
  | expression he => exact readsBack_expression he
  | tag he => exact readsBack_tag he
  | ifBlock htest hspaced hnodes ih =>
    exact readsAs_ifBlock htest (readsOn_ifBlock (Fragment.readsBack hspaced hnodes ih))
  | ifElse htest hspaced hnodes hspaced' hnodes' ih ih' =>
    exact readsAs_ifBlock htest (readsOn_ifElse (Fragment.readsBack hspaced hnodes ih)
      (Fragment.readsBack hspaced' hnodes' ih') (Fragment.isBranch_of_printable hnodes'))
  | ifElseIf htest hspaced hnodes hn ih ih' =>
    exact readsAs_ifBlock htest (readsOn_ifElseIf (Fragment.readsBack hspaced hnodes ih) hn ih')
  | eachBlock hheader hspaced hnodes hspaced' hnodes' ih ih' =>
    exact readsBack_eachBlock hheader (Fragment.readsBack hspaced hnodes ih)
      fun f hf => Fragment.readsBack (hspaced' f hf) (hnodes' f hf) (ih' f hf)
  | awaitBlock hheader hfirst hspaced hnodes ih =>
    have hbranch := fun f hf => Fragment.readsBack (hspaced f hf) (hnodes f hf) (ih f hf)
    exact readsBack_awaitBlock hheader hfirst (hbranch _ (List.mem_cons_self ..))
      (fun f hf => hbranch f (List.mem_cons_of_mem _ (List.mem_append_left _ (Option.mem_toList.2 hf))))
      fun f hf => hbranch f (List.mem_cons_of_mem _ (List.mem_append_right _ (Option.mem_toList.2 hf)))
  | keyBlock hvalue hspaced hnodes ih => exact readsBack_keyBlock hvalue (Fragment.readsBack hspaced hnodes ih)
  | snippetBlock hletters hname hparameters hclosed hspaced hnodes ih =>
    exact readsBack_snippetBlock hletters hname hparameters hclosed (Fragment.readsBack hspaced hnodes ih)

end Restyle.Markup
