import Restyle.Proofs.Markup.Below
import Restyle.Proofs.Markup.Faults

/-! What a document holds. Its expressions and texts are the slices of their spans, the fragments of a node
start behind its start, and faults lie on boundaries. This goes by the recursion: a construct keeps what was
read in it until it is done. With the places of nodes, fragments and attributes it gives the whole picture
of where the parts of a document lie, faulty or not. -/

namespace Restyle.Markup

open Text Restyle.Span Cursor

variable {source : String}

/-! ### Nodes -/

/-- The expressions of a node itself. -/
def Node.expressions : Node → List Expression
  | .expression _ e | .tag _ _ e | .keyBlock _ e _ => [e]
  | .ifBlock _ _ test _ _ => [test]
  | .eachBlock _ header _ _ | .awaitBlock _ header _ _ _ => [header]
  | .element .. | .component .. | .special .. | .text .. | .comment .. | .snippetBlock .. => []

/-- The text of a text node. -/
def Node.text? : Node → Option String
  | .text _ data => some data
  | _ => none

/-- What a node holds is the slice of its span, and its fragments start behind its start. -/
structure Node.Holds (source : String) (n : Node) : Prop where
  expressions : ∀ e ∈ n.expressions, e.Placed source
  text : ∀ data ∈ n.text?, n.span.slice? source = some data
  later : ∀ f ∈ n.fragments, n.span.start < f.span.start

/-- A fragment that starts behind an offset and holds what it should. -/
structure Fragment.Holds (source : String) (start : Nat) (f : Fragment) : Prop where
  later : start < f.span.start
  nodes : ∀ n ∈ f.nodes, n.Everywhere (Node.Holds source)

theorem Node.everywhere_holds {n : Node} {start : Nat} (hspan : n.span.start = start)
    (hexpressions : ∀ e ∈ n.expressions, e.Placed source) (htext : ∀ data ∈ n.text?, n.span.slice? source = some data)
    (hfragments : ∀ f ∈ n.fragments, f.Holds source start) : n.Everywhere (Node.Holds source) := by
  refine .mk ⟨hexpressions, htext, fun f hf => ?_⟩ fun m hm => ?_
  · rw [hspan]
    exact (hfragments f hf).later
  · obtain ⟨f, hf, hm⟩ := List.mem_flatMap.1 hm
    exact (hfragments f hf).nodes m hm

/-! ### Constructs -/

/-- The expressions of a construct. -/
def Opened.expressions : Opened → List Expression
  | .consequent _ test | .alternate _ test _ | .chain _ test _ => [test]
  | .eachBody header | .eachFallback header _ | .awaitBranch header _ _ => [header]
  | .key value => [value]
  | .element .. | .snippet .. => []

/-- Where a branch that the construct does not have was begun. -/
def Opened.unknown? : Opened → Option Span
  | .awaitBranch _ _ (.unknown _ span) => some span
  | _ => none

/-- What a construct that starts at an offset holds so far. -/
structure Opened.Holds (source : String) (start : Nat) (opened : Opened) : Prop where
  expressions : ∀ e ∈ opened.expressions, e.Placed source
  unknown : ∀ s ∈ opened.unknown?, s.Cuts source.toList
  fragments : ∀ f ∈ opened.fragments, f.Holds source start

/-- What was found at an offset holds what it should. -/
def Found.Holds (source : String) (c : Cursor) : Found → Prop
  | .node n => n.Everywhere (Node.Holds source)
  | .nothing => True
  | .opened f => f.opened.Holds source f.start ∧ f.start < c.offset

/-- What is left of a construct that starts at an offset holds what it should. -/
def Left.Holds (source : String) (start : Nat) : Left → Prop
  | .done n => n.Everywhere (Node.Holds source)
  | .next opened => opened.Holds source start
  | .branch _ test consequent test' => test.Placed source ∧ consequent.Holds source start ∧ test'.Placed source

/-! ### Reading a node -/

section Reading

variable {c c' : Cursor} {start : Nat}

theorem expressions_elementNode (c : Cursor) (start : Nat) (name : String) (attributes : List Attribute)
    (content : Fragment) (selfClosing : Bool) :
    (elementNode c start name attributes content selfClosing).1.expressions = [] :=
  elementNode_cases (P := fun n => n.expressions = []) rfl rfl fun _ => rfl

theorem text?_elementNode (c : Cursor) (start : Nat) (name : String) (attributes : List Attribute)
    (content : Fragment) (selfClosing : Bool) :
    (elementNode c start name attributes content selfClosing).1.text? = none :=
  elementNode_cases (P := fun n => n.text? = none) rfl rfl fun _ => rfl

theorem holds_elementNode (name : String) (attributes : List Attribute) {content : Fragment} (selfClosing : Bool)
    (h : content.Holds source start) (c : Cursor) :
    (elementNode c start name attributes content selfClosing).1.Everywhere (Node.Holds source) := by
  have hspan : (elementNode c start name attributes content selfClosing).1.span.start = start := by
    rw [span_elementNode]
    rfl
  refine Node.everywhere_holds hspan ?_ ?_ ?_
  · simp [expressions_elementNode]
  · simp [text?_elementNode]
  · rw [fragments_elementNode]
    simpa using h

theorem holds_text {span : Span} {data : String} (h : span.slice? source = some data) :
    (Node.text span data).Everywhere (Node.Holds source) :=
  Node.everywhere_holds rfl (by simp [Node.expressions]) (by simpa [Node.text?, Node.span] using h)
    (by simp [Node.fragments])

theorem holds_expression (span : Span) {e : Expression} (h : e.Placed source) :
    (Node.expression span e).Everywhere (Node.Holds source) :=
  Node.everywhere_holds rfl (by simpa [Node.expressions] using h) (by simp [Node.text?]) (by simp [Node.fragments])

theorem holds_textNodes (h : c.On source.toList) (closing : List Char) :
    ∀ n ∈ (c.textNodes closing).1, n.Everywhere (Node.Holds source) := by
  fun_induction textNodes closing c with
  | case1 c hc => simp
  | case2 c d ds hc hclosing => simp
  | case3 c ds hc hclosing inside more he ih =>
    exact ih (h.reaches ((reaches_moved_one hc).trans (reaches_braced _)))
  | case4 c ds e hc hclosing inside more he ih =>
    have hone := h.reaches (reaches_moved_one hc)
    intro n hn
    rcases List.mem_cons.1 hn with rfl | hn
    · exact holds_expression _ (hone.placed_braced he)
    · exact ih (hone.reaches (reaches_braced _)) n hn
  | case5 c d ds hc hclosing hbrace text more ih =>
    intro n hn
    rcases List.mem_cons.1 hn with rfl | hn
    · exact holds_text (h.slice_breakWhere _)
    · exact ih (h.reaches (reaches_breakWhere c _)) n hn

theorem holds_rawContent (h : c.On source.toList) (name : String) :
    ∀ n ∈ (c.rawContent name).1.nodes, n.Everywhere (Node.Holds source) := by
  unfold rawContent
  dsimp only
  split
  · simp
  · simpa using holds_text (h.slice_breakWhere _)

theorem OpeningTag.Ends.holds {t : OpeningTag} {found : Found} (hends : t.Ends start found c')
    (h : t.cursor.On source.toList) (hlt : start < t.cursor.offset) : found.Holds source c' := by
  have past {c : Cursor} {close : List Char} (heat : t.cursor.eat? close = some c) :
      c.On source.toList ∧ start < c.offset :=
    ⟨h.reaches (reaches_eat? heat).1, Nat.lt_of_lt_of_le hlt (reaches_eat? heat).1.offset_le⟩
  cases hends with
  | selfClosing hself => exact holds_elementNode _ _ _ ⟨(past hself).2, by simp⟩ _
  | unclosed | void => exact holds_elementNode _ _ _ ⟨hlt, by simp⟩ _
  | raw hopen => exact holds_elementNode _ _ _ ⟨(past hopen).2, holds_rawContent (past hopen).1 _⟩ _
  | text hopen => exact holds_elementNode _ _ _ ⟨(past hopen).2, holds_textNodes (past hopen).1 _⟩ _
  | opened hopen =>
    exact ⟨⟨by simp [Opened.expressions], by simp [Opened.unknown?], by simp [Opened.fragments]⟩, (past hopen).2⟩

theorem slice_readText (h : c.On source.toList) :
    (((c.moved (c.rest.take 1) (c.rest.drop 1)).breakWhere opensMarkup).2.spanFrom c.offset).slice? source =
      some (String.ofList (c.rest.take 1 ++ ((c.moved (c.rest.take 1) (c.rest.drop 1)).breakWhere opensMarkup).1)) := by
  have hrest : c.rest = (c.rest.take 1 ++ ((c.moved (c.rest.take 1) (c.rest.drop 1)).breakWhere opensMarkup).1)
      ++ ((c.moved (c.rest.take 1) (c.rest.drop 1)).breakWhere opensMarkup).2.rest := by
    rw [List.append_assoc]
    exact (List.take_append_drop 1 c.rest).symm.trans (congrArg _ (breakWhere_append opensMarkup _).symm)
  refine slice?_of_stands (h.stands hrest) ?_
  rw [width_append, ← Nat.add_assoc]
  rfl

/-- The expression of a tag with a keyword. -/
theorem placed_keyed {piece : List Char} (h : c.On source.toList) (heat : c.eat? piece = some c') {e : Expression}
    (he : c'.word.2.braced.1 = some e) : e.Placed source :=
  (h.reaches ((reaches_eat? heat).1.trans (reaches_takeWhile c' Char.isAlpha))).placed_braced he

/-- A block that has just been opened holds its expression. -/
theorem Begins.holds {keyword : String} {opened : Expression → Opened} {e : Expression}
    (hbegins : Begins keyword opened) (h : e.Placed source) : (opened e).Holds source start := by
  have hslot : (Opened.awaitBranch e {} (firstSlot e)).unknown? = none := by
    unfold firstSlot
    split
    · rfl
    · split <;> rfl
  have hexpressions : ∀ e' ∈ (opened e).expressions, e'.Placed source := by
    cases hbegins <;> simp [Opened.expressions, h]
  have hunknown : (opened e).unknown? = none := by
    cases hbegins with
    | awaitBlock => exact hslot
    | _ => rfl
  exact ⟨hexpressions, by simp [hunknown], by simp [hbegins.fragments]⟩

theorem Finds.holds {found : Found} (hfinds : Finds c found c') (h : c.On source.toList) (hc : c.rest ≠ [])
    (hlt : c.offset < c'.offset) : found.Holds source c' := by
  cases hfinds with
  | comment | unclosedComment =>
    exact Node.everywhere_holds rfl (by simp [Node.expressions]) (by simp [Node.text?]) (by simp [Node.fragments])
  | unclosed | unknown | noExpression => trivial
  | block heat hsome _ hbegins => exact ⟨hbegins.holds (placed_keyed h heat hsome), hlt⟩
  | tag _ heat hsome =>
    exact Node.everywhere_holds rfl (by simpa [Node.expressions] using placed_keyed h heat hsome)
      (by simp [Node.text?]) (by simp [Node.fragments])
  | expression heat hsome => exact holds_expression _ ((h.reaches (reaches_eat? heat).1).placed_braced hsome)
  | element _ _ hends =>
    have htag := sound_readOpeningTag (P := fun _ => True) h hc fun _ _ => trivial
    exact hends.holds htag.on htag.lt
  | text hone =>
    subst hone
    exact holds_text (slice_readText h)

/-- What reading a node finds holds what it should. -/
theorem holds_readNode (h : c.On source.toList) (hc : c.rest ≠ []) :
    (readNode c).1.Holds source (readNode c).2 :=
  (finds_readNode c).holds h hc ((reaches_readNode c).offset_lt (length_readNode hc))

end Reading

/-! ### The end of a fragment -/

section Leaving

variable {c c' : Cursor} {start : Nat} {opened : Opened} {content : Fragment} {left : Left}

/-- The text behind a keyword that continues a block. -/
theorem placed_continuation? (h : c.On source.toList) {keyword : String} {e : Expression}
    (he : c.continuation?.1 = some (keyword, e)) : e.Placed source := by
  unfold continuation? at he
  split at he
  · cases he
  · next c' heat =>
    obtain ⟨e', he', heq⟩ := Option.map_eq_some_iff.1 he
    cases heq
    exact placed_keyed h heat he'

theorem placed_elseIfTest? {rest test : Expression} (h : rest.Placed source)
    (he : Reader.elseIfTest? rest = some test) : test.Placed source := by
  unfold Reader.elseIfTest? at he
  split at he
  · next d ds hstrip =>
    split at he
    · cases he
      exact h.suffix (strip?_eq_some_iff.1 hstrip)
    · cases he
  · cases he

theorem Opened.Holds.fragment {f : Fragment} (h : opened.Holds source start) (hcontent : content.Holds source start)
    (hf : f ∈ opened.fragments ++ [content]) : f.Holds source start :=
  List.forall_mem_append.2 ⟨h.fragments, List.forall_mem_singleton.2 hcontent⟩ f hf

/-- A construct that is done, of whose fragments and expressions the node is made. -/
theorem Opened.Holds.done {n : Node} (h : opened.Holds source start) (hcontent : content.Holds source start)
    (hspan : n.span.start = start) (hexpressions : n.expressions = opened.expressions) (htext : n.text? = none)
    (hfragments : ∀ f ∈ n.fragments, f ∈ opened.fragments ++ [content]) : n.Everywhere (Node.Holds source) := by
  exact Node.everywhere_holds hspan (hexpressions ▸ h.expressions) (by simp [htext]) fun f hf =>
    h.fragment hcontent (hfragments f hf)

/-- The next branch of a construct. -/
theorem Opened.Holds.next {opened' : Opened} (h : opened.Holds source start) (hcontent : content.Holds source start)
    (hexpressions : opened'.expressions = opened.expressions) (hunknown : ∀ s ∈ opened'.unknown?, s.Cuts source.toList)
    (hfragments : ∀ f ∈ opened'.fragments, f ∈ opened.fragments ++ [content]) : opened'.Holds source start := by
  exact ⟨hexpressions ▸ h.expressions, hunknown, fun f hf => h.fragment hcontent (hfragments f hf)⟩

theorem unknown?_awaitSlot {keyword : String} {header : Expression} {branches : AwaitBranches} {s s' : Span}
    (h : s' ∈ (Opened.awaitBranch header branches (Reader.awaitSlot keyword s)).unknown?) : s' = s := by
  unfold Reader.awaitSlot at h
  split at h
  · cases h
  · cases h
  · cases h
    rfl

/-- A construct whose fragment has ended holds what it should. -/
theorem Leaves.holds (hleave : Leaves start content c opened left c') (hc : c.On source.toList)
    (h : opened.Holds source start) (hcontent : content.Holds source start) : left.Holds source start := by
  have hkept : ∀ f ∈ left.fragments, f ∈ opened.fragments ++ [content] := hleave.fragments.subset
  cases hleave with
  | element name attributes => exact holds_elementNode _ _ _ hcontent _
  | elseIf elseif test hsome htest =>
    exact ⟨h.expressions test (List.mem_singleton_self _), hcontent,
      placed_elseIfTest? (placed_continuation? hc hsome) htest⟩
  | orElse => exact h.next hcontent rfl (by simp [Opened.unknown?]) hkept
  | endIf | alternate | chain | key | snippet => exact h.done hcontent rfl rfl rfl hkept
  | endEach hends => cases hends <;> exact h.done hcontent rfl rfl rfl hkept
  | eachElse hends => cases hends <;> exact h.next hcontent rfl (by simp [Opened.unknown?]) hkept
  | endAwait header branches slot hstored =>
    subst hstored
    exact h.done hcontent rfl rfl rfl hkept
  | awaitNext header branches slot hstored hsome =>
    subst hstored
    refine h.next hcontent rfl (fun s hs => ?_) hkept
    rw [unknown?_awaitSlot hs]
    exact (placed_continuation? (hc.reaches (Reader.reaches_storeBranch ..)) hsome).cuts

/-! Faults there. -/

theorem notes_ifNode (hc : c.On source.toList) (hstart : isBoundary source.toList start = true) (hle : start ≤ c.offset)
    (elseif : Bool) (test : Expression) (consequent : Fragment) (alternate : Option Fragment) :
    Notes source.toList c (Reader.ifNode c start elseif test consequent alternate).2 := by
  cases elseif with
  | true => exact .refl c
  | false => exact hc.notes_closeBlock hstart hle "if"

/-- A branch that no await block has is a fault where its keyword stands. -/
theorem notes_storeBranch {header : Expression} {branches : AwaitBranches} {slot : AwaitSlot}
    (h : (Opened.awaitBranch header branches slot).Holds source start) (content : Fragment) :
    Notes source.toList c (Reader.storeBranch branches c content slot).2 := by
  cases slot with
  | unknown keyword span => exact (Notes.refl c).fault (h.unknown span rfl) _
  | _ => exact .refl c

section Notes

variable (hc : c.On source.toList) (hstart : isBoundary source.toList start = true) (hle : start ≤ c.offset)

include hc

theorem notes_unexpected {block keyword : String} {e : Expression} (he : c.continuation?.1 = some (keyword, e))
    (expected : Bool) : Notes source.toList c (if expected then c.continuation?.2
      else c.continuation?.2.unexpectedContinuation block keyword e.span) := by
  cases expected with
  | true => exact hc.notes_continuation?
  | false => exact hc.notes_continuation?.fault (placed_continuation? hc he).cuts _

include hstart hle

theorem notes_closeBlock_continuation? (keyword : String) :
    Notes source.toList c (c.continuation?.2.closeBlock keyword start) := by
  have hnext := reaches_continuation? c
  exact hc.notes_continuation?.trans
    ((hc.reaches hnext).notes_closeBlock hstart (Nat.le_trans hle hnext.offset_le) keyword)

theorem Leaves.notes (hleave : Leaves start content c opened left c') (h : opened.Holds source start) :
    Notes source.toList c c' := by
  have hnext := reaches_continuation? c
  cases hleave with
  | element name attributes =>
    have hclose := reaches_closeTag c name start
    exact (hc.notes_closeTag hstart hle name).trans (notes_elementNode (hc.reaches hclose) hstart
      (Nat.le_trans hle hclose.offset_le) name attributes content false)
  | endIf elseif test =>
    exact hc.notes_continuation?.trans
      (notes_ifNode (hc.reaches hnext) hstart (Nat.le_trans hle hnext.offset_le) elseif test content none)
  | elseIf => exact hc.notes_continuation?
  | orElse _ _ hsome => exact notes_unexpected hc hsome _
  | alternate elseif test consequent => exact notes_ifNode hc hstart hle elseif test consequent (some content)
  | chain elseif test consequent => exact notes_ifNode hc hstart hle elseif test consequent none
  | endEach => exact notes_closeBlock_continuation? hc hstart hle "each"
  | eachElse _ hsome => exact notes_unexpected hc hsome _
  | endAwait header branches slot hstored =>
    subst hstored
    have hreach := Reader.reaches_storeBranch branches c content slot
    exact (notes_storeBranch h content).trans (notes_closeBlock_continuation? (hc.reaches hreach) hstart
      (Nat.le_trans hle hreach.offset_le) "await")
  | awaitNext header branches slot hstored =>
    subst hstored
    exact (notes_storeBranch h content).trans
      (hc.reaches (Reader.reaches_storeBranch branches c content slot)).notes_continuation?
  | key => exact hc.notes_closeBlock hstart hle "key"
  | snippet => exact hc.notes_closeBlock hstart hle "snippet"

end Notes

end Leaving

/-! ### The recursion -/

/-- What a job that is begun at a cursor can rely on. -/
def Job.Ready (source : String) (c : Cursor) : Job → Prop
  | .node => c.rest ≠ []
  | .fragment => True
  | .rest opened start => opened.Holds source start ∧ start < c.offset ∧ isBoundary source.toList start = true

theorem Yields.span {opened : Opened} {start : Nat} {c c' : Cursor} {n : Node}
    (h : Yields (.rest opened start) c [n] c') : n.span = c'.spanFrom start := by
  generalize hjob : Job.rest opened start = job at h
  generalize hns : [n] = ns at h
  induction h generalizing opened start n with
  | done _ hleave _ =>
    cases hjob
    cases hns
    exact (leaves_of_leaving hleave).span
  | next _ _ _ _ ih' =>
    cases hjob
    exact ih' rfl hns
  | branch _ _ _ =>
    cases hjob
    cases hns
    rfl
  | _ => cases hjob

/-- A construct that has read a fragment, and what is left of it. -/
theorem Yields.leave {opened : Opened} {start : Nat} {c c₁ c₂ : Cursor} {ns : List Node} {left : Left}
    (h : Yields .fragment c ns c₁)
    (hfragment : Notes source.toList c c₁ ∧ ∀ n ∈ ns, n.Everywhere (Node.Holds source)) (hc : c.On source.toList)
    (hready : (Job.rest opened start).Ready source c)
    (hleave : leaving opened start ⟨ns, c₁.spanFrom c.offset⟩ c₁ = (left, c₂)) :
    Notes source.toList c c₂ ∧ left.Holds source start ∧ c.Reaches c₂
      ∧ ((∀ n, left ≠ .done n) → c₁.offset < c₂.offset) := by
  obtain ⟨hopened, hlt, hstart⟩ := hready
  have hon := hc.reaches h.reaches
  have hle := h.reaches.offset_le
  have hcontent : (⟨ns, c₁.spanFrom c.offset⟩ : Fragment).Holds source start := ⟨hlt, hfragment.2⟩
  have hleaves := leaves_of_leaving hleave
  have hnotes := hleaves.notes hon hstart (by omega) hopened
  have hfurther := hleaves.further
  exact ⟨hfragment.1.trans hnotes, hleaves.holds hon hopened hcontent, h.reaches.trans hfurther.reaches,
    fun hnot => hfurther.reaches.offset_lt (hfurther.shorter hnot)⟩

/-- All that a job gives holds what it should, and its faults lie on boundaries. -/
theorem Yields.holds {job : Job} {c c' : Cursor} {ns : List Node} (h : Yields job c ns c') (hc : c.On source.toList)
    (hready : job.Ready source c) :
    Notes source.toList c c' ∧ ∀ n ∈ ns, n.Everywhere (Node.Holds source) := by
  induction h with
  | @leaf c n hfound =>
    have hnode := holds_readNode hc hready
    rw [hfound] at hnode
    exact ⟨notes_readNode hc, List.forall_mem_singleton.2 hnode⟩
  | nothing hfound => exact ⟨notes_readNode hc, by simp⟩
  | @opened c c' f ns hfound hrest ih =>
    have hnode := holds_readNode hc hready
    rw [hfound] at hnode
    have hstart : f.start = c.offset := congrArg Frame.start (opens_readNode c f hfound).eq
    have hlast := ih (hc.reaches (reaches_readNode c)) ⟨hnode.1, hnode.2, hstart ▸ hc.isBoundary⟩
    exact ⟨(notes_readNode hc).trans hlast.1, hlast.2⟩
  | ends hends => exact ⟨.refl _, by simp⟩
  | more hends hnode hmore ih ih' =>
    obtain ⟨hnotes, hfirst⟩ := ih hc (rest_ne_nil hends)
    obtain ⟨hnotes', hlast⟩ := ih' (hc.reaches hnode.reaches) trivial
    refine ⟨hnotes.trans hnotes', fun n hn => ?_⟩
    rcases List.mem_append.1 hn with hn | hn
    · exact hfirst n hn
    · exact hlast n hn
  | done hcontent hleave ih =>
    obtain ⟨hnotes, hleft, -, -⟩ := hcontent.leave (ih hc trivial) hc hready hleave
    exact ⟨hnotes, List.forall_mem_singleton.2 hleft⟩
  | @next opened opened' start c c₁ c₂ c₃ ns ms hcontent hleave hrest ih ih' =>
    obtain ⟨hnotes, hleft, hreach, hlt⟩ := hcontent.leave (ih hc trivial) hc hready hleave
    have hlt := hlt (by simp)
    have hle := hcontent.reaches.offset_le
    have hstart := hready.2.1
    obtain ⟨hnotes', hlast⟩ := ih' (hc.reaches hreach) ⟨hleft, by omega, hready.2.2⟩
    exact ⟨hnotes.trans hnotes', hlast⟩
  | @branch opened start c c₁ c₂ c₃ ns n elseif test test' consequent hcontent hleave hrest ih ih' =>
    obtain ⟨hnotes, ⟨htest, hconsequent, htest'⟩, hreach, hlt⟩ := hcontent.leave (ih hc trivial) hc hready hleave
    have hlt := hlt (by simp)
    have hle := hcontent.reaches.offset_le
    have hle' := hrest.reaches.offset_le
    have hstart := hready.2.1
    have hopened : (Opened.consequent true test').Holds source c₁.offset :=
      ⟨by simpa [Opened.expressions] using htest', by simp [Opened.unknown?], by simp [Opened.fragments]⟩
    obtain ⟨hnotes', hbranch⟩ := ih' (hc.reaches hreach) ⟨hopened, hlt, (hc.reaches hcontent.reaches).isBoundary⟩
    have halternate : (⟨[n], n.span⟩ : Fragment).Holds source start := by
      refine ⟨?_, hbranch⟩
      rw [hrest.span]
      exact Nat.lt_of_lt_of_le hstart hle
    refine ⟨(hnotes.trans hnotes').trans (notes_ifNode (hc.reaches (hreach.trans hrest.reaches)) hready.2.2
      (by omega) elseif test consequent _), ?_⟩
    simp only [List.mem_singleton, forall_eq]
    refine Node.everywhere_holds rfl (by simpa [Reader.ifNode, Node.expressions] using htest)
      (by simp [Reader.ifNode, Node.text?]) ?_
    simpa [Reader.ifNode, Node.fragments] using ⟨hconsequent, halternate⟩

/-! ### Scripts and styles -/

/-- A script or style: its attributes come first, and then its content, which is the slice of its span. -/
structure Raw.Placed (source : String) (span contentSpan : Span) (content : String) (attributes : List Attribute) :
    Prop extends Raw.Sound source.toList (span, contentSpan) where
  slice : contentSpan.slice? source = some content
  shown : ∀ a ∈ attributes, a.Placed source
  head : InOrder span.start (attributes.map Attribute.span) contentSpan.start

section Raw

variable {c : Cursor} {name : List Char}

theorem placed_rawBlock (hc : c.On source.toList) (htag : c.atTag name = true) :
    Raw.Placed source ((c.rawBlock name).cursor.spanFrom c.offset) (c.rawBlock name).contentSpan
      (c.rawBlock name).content (c.rawBlock name).attributes := by
  have hname := reaches_moved_take c (name.length + 1)
  have htags := (hc.reaches hname).placed_attributes
  have horder := (inOrder_attributes (c.moved (c.rest.take (name.length + 1))
    (c.rest.drop (name.length + 1)))).mono_left hname.offset_le
  have hattributes := hname.trans (reaches_attributes _)
  refine ⟨Reader.sound_rawBlock hc htag, ?_, ?_, ?_⟩
  all_goals
    unfold rawBlock
    dsimp only
    split
  · next c' heat => exact (hc.reaches (hattributes.trans (reaches_eat? heat).1)).slice (t := []) rfl
  · have hbody := hattributes.trans (reaches_expect _ ['>'])
    split <;> exact (hc.reaches hbody).slice_breakWhere _
  · exact htags
  · split <;> exact htags
  · next c' heat => exact horder.mono_right (reaches_eat? heat).1.offset_le
  · split <;> exact horder.mono_right (reaches_expect _ ['>']).offset_le

theorem notes_rawBlock (hc : c.On source.toList) (name : List Char) :
    Notes source.toList c (c.rawBlock name).cursor := by
  have hname := reaches_moved_take c (name.length + 1)
  have hattributes := hname.trans (reaches_attributes _)
  have hhead : Notes source.toList c
      (c.moved (c.rest.take (name.length + 1)) (c.rest.drop (name.length + 1))).attributes.2 :=
    (Notes.of_eq rfl).trans (hc.reaches hname).notes_attributes
  unfold rawBlock
  dsimp only
  split
  · next heat => exact hhead.trans (notes_eat? heat)
  · have hbody := hattributes.trans (reaches_expect _ ['>'])
    have hcontent := hbody.trans (reaches_breakWhere _ (Text.startsWith ('<' :: '/' :: name)))
    have hopen := hhead.trans (notes_expect (hc.reaches hattributes) ['>'])
    split
    · next c' heat =>
      have hclose := hcontent.trans ((reaches_eat? heat).1.trans (reaches_skipBlanks c'))
      have hfaults : Notes source.toList c c'.skipBlanks := by
        obtain ⟨rest, -, rfl⟩ := Option.map_eq_some_iff.1 heat
        exact hopen.trans (.of_eq rfl)
      exact hfaults.trans (notes_expect (hc.reaches hclose) _)
    · have hread : Notes source.toList c (Cursor.breakWhere _ (Text.startsWith ('<' :: '/' :: name))).2 :=
        hopen.trans (.of_eq rfl)
      exact hread.fault (hc.cuts hcontent) _

end Raw

/-! ### Documents -/

/-- The scripts of a document. -/
def Document.scripts (d : Document) : List Script := d.moduleScript.toList ++ d.instanceScript.toList

namespace Reader

variable {r r' : Reader}

/-- What has been read at the top of a document holds what it should. -/
structure Holds (source : String) (r : Reader) : Prop where
  on : r.cursor.On source.toList
  faults : ∀ f ∈ r.cursor.faults, f.span.Cuts source.toList
  nodes : ∀ n ∈ r.nodes, n.Everywhere (Node.Holds source)
  scripts : ∀ s ∈ r.moduleScript.toList ++ r.instanceScript.toList,
    Raw.Placed source s.span s.contentSpan s.content s.attributes
  style : ∀ s ∈ r.style, Raw.Placed source s.span s.contentSpan s.content s.attributes

theorem Holds.notes {c : Cursor} (h : r.Holds source) (hc : Notes source.toList r.cursor c) :
    ∀ f ∈ c.faults, f.span.Cuts source.toList := by
  intro f hf
  rcases hc f hf with hf | hcuts
  · exact h.faults f hf
  · exact hcuts

/-- A step that only reads on. -/
theorem Holds.skip {c : Cursor} (h : r.Holds source) (hreach : r.cursor.Reaches c)
    (hc : Notes source.toList r.cursor c) : ({ r with cursor := c } : Reader).Holds source :=
  ⟨h.on.reaches hreach, h.notes hc, h.nodes, h.scripts, h.style⟩

theorem Holds.readScript (h : r.Holds source) (htag : r.cursor.atTag "script".toList = true) :
    r.readScript.Holds source := by
  have hreach := reaches_rawBlock_start r.cursor "script".toList
  have hnotes := notes_rawBlock h.on "script".toList
  have hplaced := placed_rawBlock h.on htag
  have hduplicate := hnotes.fault hplaced.cuts
  unfold Reader.readScript
  dsimp only
  split
  · split
    · exact h.skip (reaches_fault hreach) (hduplicate _)
    · refine ⟨h.on.reaches hreach, h.notes hnotes, h.nodes, fun s hs => ?_, h.style⟩
      rcases List.mem_append.1 hs with hs | hs
      · rw [List.mem_singleton.1 hs]
        exact hplaced
      · exact h.scripts s (List.mem_append_right _ hs)
  · split
    · exact h.skip (reaches_fault hreach) (hduplicate _)
    · refine ⟨h.on.reaches hreach, h.notes hnotes, h.nodes, fun s hs => ?_, h.style⟩
      rcases List.mem_append.1 hs with hs | hs
      · exact h.scripts s (List.mem_append_left _ hs)
      · rw [List.mem_singleton.1 hs]
        exact hplaced

theorem Holds.readStyle (h : r.Holds source) (htag : r.cursor.atTag "style".toList = true) :
    r.readStyle.Holds source := by
  have hreach := reaches_rawBlock_start r.cursor "style".toList
  have hnotes := notes_rawBlock h.on "style".toList
  have hplaced := placed_rawBlock h.on htag
  unfold Reader.readStyle
  dsimp only
  split
  · exact h.skip (reaches_fault hreach) (hnotes.fault hplaced.cuts _)
  · refine ⟨h.on.reaches hreach, h.notes hnotes, h.nodes, h.scripts, ?_⟩
    rintro s ⟨⟩
    exact hplaced

theorem notes_skipStray (c : Cursor) (closing : Char) : Notes source.toList c (c.skipStray closing).2 := by
  unfold skipStray
  split
  · exact .refl c
  · split <;> exact .of_eq rfl

theorem Holds.advances (h : r.Holds source) (hstep : Advances r r') : r'.Holds source := by
  cases hstep with
  | node hframes hc hreads hnode =>
    obtain ⟨hnotes, hnodes⟩ := hnode.holds h.on hc
    refine ⟨h.on.reaches hnode.reaches, h.notes hnotes, fun n hn => ?_, h.scripts, h.style⟩
    rcases List.mem_append.1 hn with hn | hn
    · exact hnodes n (List.mem_reverse.1 hn)
    · exact h.nodes n hn
  | other hframes hc hreads =>
    cases takesTop hframes hreads with
    | script htag htop => exact htop ▸ h.readScript htag
    | style htag htop => exact htop ▸ h.readStyle htag
    | closingTag _ htop =>
      have hreach := reaches_skipStray r.cursor '>'
      exact htop ▸ h.skip (reaches_fault hreach) ((notes_skipStray _ _).fault (h.on.cuts hreach) _)
    | blockTag htop =>
      have hreach := reaches_skipStray r.cursor '\x7d'
      exact htop ▸ h.skip (reaches_fault hreach) ((notes_skipStray _ _).fault (h.on.cuts hreach) _)

end Reader

/-- A node lies well in the source, and holds what it should. -/
structure Node.WellPlaced (source : String) (n : Node) : Prop
    extends n.Local source.toList (Attribute.Placed source), n.Holds source where
  fragments : ∀ f ∈ n.fragments, f.Local source.toList

/-- All that was read from a source lies well in it, and holds what it should. -/
structure Reading.WellPlaced (source : String) (r : Reading) : Prop where
  span : r.document.span.Cuts source.toList
  fragment : r.document.fragment.Local source.toList
  nodes : ∀ n ∈ subnodes r.document.fragment.nodes, n.WellPlaced source
  /-- No two nodes start at the same offset, whichever levels they are on. -/
  starts : (subnodes r.document.fragment.nodes).Pairwise fun m n => m.span.start ≠ n.span.start
  scripts : ∀ s ∈ r.document.scripts, Raw.Placed source s.span s.contentSpan s.content s.attributes
  style : ∀ s ∈ r.document.style, Raw.Placed source s.span s.contentSpan s.content s.attributes
  /-- Scripts and styles share no byte with the nodes of the document. -/
  apart : ∀ s ∈ r.document.raws, ∀ n ∈ r.document.fragment.nodes, s.1.Apart n.span
  faults : ∀ f ∈ r.faults, f.span.Cuts source.toList

theorem Reader.holds_run (source : String) : (Reader.ofText source).run.Holds source := by
  have hfirst : (Reader.ofText source).Holds source :=
    ⟨on_ofText _, by simp [Reader.ofText, Cursor.ofText], by simp [Reader.ofText], by simp [Reader.ofText],
      by simp [Reader.ofText]⟩
  exact Reader.run_induction rfl hfirst fun r r' h hstep => h.advances hstep

theorem sound_read_placed (source : String) :
    (read source).document.Sound source.toList (Attribute.Placed source) :=
  sound_read source fun _ hr _ => tagShows_placed ((on_ofText _).reaches hr.reaches)

/-- Every node of a document lies well in the source and holds what it should. -/
theorem everywhere_read (source : String) : ∀ n ∈ (read source).document.fragment.nodes, n.Everywhere fun m =>
    m.Sound source.toList (Attribute.Placed source) ∧ m.Holds source := fun n hn =>
  ((sound_read_placed source).fragment.sound n hn).everywhere.and
    ((Reader.holds_run source).nodes n (List.mem_reverse.1 hn))

/-- Whatever a source is, with faults or without, what is read from it is placed well. -/
theorem wellPlaced_read (source : String) : (read source).WellPlaced source := by
  have hholds := Reader.holds_run source
  have hsound := sound_read_placed source
  have heverywhere := everywhere_read source
  refine ⟨hsound.fragment.cuts, hsound.fragment.toLocal, fun n hn => ?_, ?_, hholds.scripts, hholds.style,
    hsound.raws_apart, fun f hf => hholds.faults f (List.mem_reverse.1 hf)⟩
  · obtain ⟨hn, hholds⟩ := forall_subnodes heverywhere n hn
    exact ⟨hn.place, hholds, fun f hf => (hn.of_mem hf).toLocal⟩
  · refine pairwise_start_subnodes (fun n hn => (heverywhere n hn).imp fun m hm => ?_)
      (List.pairwise_map.1 hsound.fragment.nodes.pairwise)
    exact hm.1.nests hm.2.later

end Restyle.Markup
