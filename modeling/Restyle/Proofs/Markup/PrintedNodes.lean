import Restyle.Proofs.Markup.Descent
import Restyle.Proofs.Markup.PrintedTags

/-! Printed nodes are read back. What stands behind a printed node matters only for a text, which must end where
markup opens; so the nodes of a fragment are read back one after the other, up to the tag that ends it, and a
construct is read back fragment by fragment. The else-if blocks of a chain are read back from behind their
tags, each with what its if block still has to come. -/

namespace Restyle.Markup

open Text Cursor

/-! ### Jobs that give printed nodes -/

/-- A job gives the nodes, apart from places, and ends where a text stands. -/
def Gives (job : Job) (c : Cursor) (nodes : List Node) (z : List Char) : Prop :=
  ∃ ns c', Yields job c ns c' ∧ c'.Sees z ∧ unplacedAll ns = unplacedAll nodes

namespace Gives

variable {c : Cursor} {n : Node} {nodes more : List Node} {z z₁ : List Char} {opened : Opened} {start : Nat}

theorem leaf {n' : Node} (hfound : (readNode c).1 = .node n') (hsees : (readNode c).2.Sees z)
    (hsame : n'.unplaced = n.unplaced) : Gives .node c [n] z :=
  ⟨[n'], _, .leaf hfound, hsees, by rw [unplacedAll_singleton, unplacedAll_singleton, hsame]⟩

theorem opens {f : Frame} (hfound : (readNode c).1 = .opened f)
    (h : Gives (.rest f.opened f.start) (readNode c).2 [n] z) : Gives .node c [n] z := by
  obtain ⟨ns, c', hrest, hsees, hsame⟩ := h
  exact ⟨ns, c', .opened hfound hrest, hsees, hsame⟩

theorem ends (hends : c.endsFragment = true) (h : c.Sees z) : Gives .fragment c [] z := ⟨[], c, .ends hends, h, rfl⟩

theorem cons (hends : c.endsFragment = false) (h : Gives .node c nodes z₁)
    (hmore : ∀ c₁ : Cursor, c₁.Sees z₁ → Gives .fragment c₁ more z) : Gives .fragment c (nodes ++ more) z := by
  obtain ⟨ns, c₁, hnode, hsees, hsame⟩ := h
  obtain ⟨ms, c₂, hrest, hsees', hsame'⟩ := hmore c₁ hsees
  exact ⟨ns ++ ms, c₂, .more hends hnode hrest, hsees', by rw [unplacedAll_append, unplacedAll_append, hsame, hsame']⟩

/-- A construct whose last fragment has been read. -/
theorem done {f : Fragment} (hcontent : Gives .fragment c f.nodes z₁)
    (hleave : ∀ (content : Fragment) (c₁ : Cursor), c₁.Sees z₁ → content.unplaced = f.unplaced →
      ∃ n' c₂, leaving opened start content c₁ = (.done n', c₂) ∧ c₂.Sees z ∧ n'.unplaced = n.unplaced) :
    Gives (.rest opened start) c [n] z := by
  obtain ⟨ns, c₁, hfragment, hsees, hsame⟩ := hcontent
  obtain ⟨n', c₂, hleaving, hsees', hsame'⟩ :=
    hleave ⟨ns, c₁.spanFrom c.offset⟩ c₁ hsees (Fragment.unplaced_congr hsame)
  exact ⟨[n'], c₂, .done hfragment hleaving, hsees', by rw [unplacedAll_singleton, unplacedAll_singleton, hsame']⟩

/-- A construct that goes on with another branch. -/
theorem next {f : Fragment} (hcontent : Gives .fragment c f.nodes z₁)
    (hleave : ∀ (content : Fragment) (c₁ : Cursor), c₁.Sees z₁ → content.unplaced = f.unplaced →
      ∃ opened' c₂, leaving opened start content c₁ = (.next opened', c₂) ∧ Gives (.rest opened' start) c₂ [n] z) :
    Gives (.rest opened start) c [n] z := by
  obtain ⟨ns, c₁, hfragment, hsees, hsame⟩ := hcontent
  obtain ⟨opened', c₂, hleaving, ms, c₃, hrest, hsees', hsame'⟩ :=
    hleave ⟨ns, c₁.spanFrom c.offset⟩ c₁ hsees (Fragment.unplaced_congr hsame)
  exact ⟨ms, c₃, .next hfragment hleaving hrest, hsees', hsame'⟩

/-- An if block that goes on with an else-if block. -/
theorem branch {f : Fragment} {m : Node} (hcontent : Gives .fragment c f.nodes z₁)
    (hleave : ∀ (content : Fragment) (c₁ : Cursor), c₁.Sees z₁ → content.unplaced = f.unplaced →
      ∃ elseif test consequent test' c₂ z₂, leaving opened start content c₁ = (.branch elseif test consequent test', c₂)
        ∧ Gives (.rest (.consequent true test') c₁.offset) c₂ [m] z₂
        ∧ ∀ (m' : Node) (c₃ : Cursor), c₃.Sees z₂ → m'.unplaced = m.unplaced →
          (Reader.ifNode c₃ start elseif test consequent (some ⟨[m'], m'.span⟩)).2.Sees z
          ∧ (Reader.ifNode c₃ start elseif test consequent (some ⟨[m'], m'.span⟩)).1.unplaced = n.unplaced) :
    Gives (.rest opened start) c [n] z := by
  obtain ⟨ns, c₁, hfragment, hsees, hsame⟩ := hcontent
  obtain ⟨elseif, test, consequent, test', c₂, z₂, hleaving, ⟨ms, c₃, hrest, hsees', hsame'⟩, hlast⟩ :=
    hleave ⟨ns, c₁.spanFrom c.offset⟩ c₁ hsees (Fragment.unplaced_congr hsame)
  obtain ⟨m', rfl⟩ := hrest.eq_singleton
  obtain ⟨hend, hnode⟩ := hlast m' c₃ hsees' (List.cons.inj hsame').1
  exact ⟨_, _, .branch hfragment hleaving hrest, hend, by rw [unplacedAll_singleton, unplacedAll_singleton, hnode]⟩

end Gives

/-! ### Where printed nodes begin and end -/

/-- A text ends here: markup opens, or nothing is left. -/
def EndsText (z : List Char) : Prop := z = [] ∨ opensMarkup z = true

/-- A tag that ends a fragment stands here. -/
def EndsFragment (z : List Char) : Prop := ['<', '/'] <+: z ∨ ['{', ':'] <+: z ∨ ['{', '/'] <+: z

theorem EndsFragment.endsText {z : List Char} (h : EndsFragment z) : EndsText z := by
  rcases h with ⟨u, rfl⟩ | ⟨u, rfl⟩ | ⟨u, rfl⟩ <;> exact .inr (by simp [opensMarkup])

theorem endsFragment_iff {c : Cursor} : c.endsFragment = true ↔ c.rest = [] ∨ EndsFragment c.rest := by
  simp only [Cursor.endsFragment, atEnd, atContinuation, Cursor.startsWith, Bool.or_eq_true, startsWith_iff,
    List.isEmpty_iff, EndsFragment, or_assoc]

/-- How the text of a node begins: with a character that opens no markup if it is a text, and with markup that
ends no fragment if it is none. -/
inductive BeginsNode (n : Node) (cs : List Char) : Prop where
  | text {d : Char} {u : List Char} : n.isText = true → cs = d :: u → d ≠ '<' → d ≠ '{' → BeginsNode n cs
  | tag {name : String} {u : List Char} : n.isText = false → IsMarkupName name → cs = '<' :: (name.toList ++ u) →
    (∃ d ∈ u.head?, endsTagName d = true) → BeginsNode n cs
  | comment {u : List Char} : n.isText = false → cs = '<' :: '!' :: u → BeginsNode n cs
  | brace {d : Char} {u : List Char} : n.isText = false → cs = '{' :: d :: u → d ≠ ':' → d ≠ '/' → BeginsNode n cs

namespace BeginsNode

variable {n : Node} {cs : List Char}

theorem append (h : BeginsNode n cs) (z : List Char) : BeginsNode n (cs ++ z) := by
  cases h with
  | text hn hcs hangle hbrace => exact .text hn (by rw [hcs]; rfl) hangle hbrace
  | @tag name u hn hname hcs hends =>
    obtain ⟨d, hd, hends⟩ := hends
    obtain ⟨v, rfl⟩ := List.head?_eq_some_iff.1 hd
    exact .tag (u := d :: v ++ z) hn hname (by rw [hcs]; simp) ⟨d, rfl, hends⟩
  | comment hn hcs => exact .comment hn (by rw [hcs]; rfl)
  | brace hn hcs hcolon hslash => exact .brace hn (by rw [hcs]; rfl) hcolon hslash

/-- The fragment goes on with the node. -/
theorem endsFragment {c : Cursor} (h : BeginsNode n cs) (hc : c.Sees cs) : c.endsFragment = false := by
  rw [← Bool.not_eq_true, endsFragment_iff, hc.rest]
  cases h with
  | text _ hcs hangle hbrace => simp [hcs, EndsFragment, hangle.symm, hbrace.symm]
  | tag _ hname hcs _ =>
    obtain ⟨d, u, hcons, halpha⟩ := hname.exists_cons
    have hslash : ¬ '/' = d := by
      rintro rfl
      cases halpha
    simp [hcs, hcons, EndsFragment, hslash]
  | comment _ hcs => simp [hcs, EndsFragment]
  | brace _ hcs hcolon hslash => simp [hcs, EndsFragment, hcolon.symm, hslash.symm]

theorem opensMarkup (h : BeginsNode n cs) (hn : n.isText = false) : Markup.opensMarkup cs = true := by
  cases h with
  | text htext => simp [hn] at htext
  | tag _ hname hcs _ =>
    obtain ⟨d, u, hcons, halpha⟩ := hname.exists_cons
    simp [hcs, hcons, Markup.opensMarkup, halpha]
  | comment _ hcs => simp [hcs, Markup.opensMarkup]
  | brace _ hcs _ _ => simp [hcs, Markup.opensMarkup]

end BeginsNode

/-- No sign of a block comes behind the brace of a printed expression. -/
theorem Expression.exists_braced (e : Expression) :
    ∃ d u, e.braced e.pad = '{' :: d :: u ∧ d ∉ ['#', '@', ':', '/'] := by
  unfold Expression.braced Expression.pad
  split
  · exact ⟨' ', _, rfl, by decide⟩
  · next hany =>
    cases htext : e.text.toList with
    | nil => exact ⟨'}', [], rfl, by decide⟩
    | cons d u =>
      rw [htext] at hany
      exact ⟨d, u ++ ['}'], rfl, by simpa [or_assoc] using hany⟩

theorem Expression.beginsNode_braced {n : Node} (hn : n.isText = false) (e : Expression) :
    BeginsNode n (e.braced e.pad) := by
  obtain ⟨d, u, hcons, hd⟩ := e.exists_braced
  simp only [List.mem_cons, List.not_mem_nil, or_false, not_or] at hd
  exact .brace hn hcons hd.2.2.1 hd.2.2.2

theorem beginsNode_blockTag {n : Node} (hn : n.isText = false) {sign : Char} (hcolon : sign ≠ ':') (hslash : sign ≠ '/')
    (keyword : String) (rest : List Char) : BeginsNode n (blockTag sign keyword rest) := .brace hn rfl hcolon hslash

theorem beginsNode_openingTag {n : Node} (hn : n.isText = false) {name : String} (hname : IsMarkupName name)
    (attributes : List Attribute) {close : List Char} (hclose : EndsTag close) :
    BeginsNode n (openingTag name attributes close) := by
  have hends := head?_printAttributes hclose attributes []
  rw [List.append_nil] at hends
  exact .tag hn hname rfl hends

theorem Node.Printable.beginsNode {n : Node} (h : n.Printable false) : BeginsNode n n.print := by
  generalize hbranch : false = branch at h
  cases h with
  | @element _ _ _ _ selfClosing helement =>
    cases selfClosing with
    | true => exact beginsNode_openingTag rfl helement.named _ (.inr rfl)
    | false => exact (beginsNode_openingTag rfl helement.named _ (.inl rfl)).append _
  | @component _ _ _ _ selfClosing helement =>
    cases selfClosing with
    | true => exact beginsNode_openingTag rfl helement.named _ (.inr rfl)
    | false => exact (beginsNode_openingTag rfl helement.named _ (.inl rfl)).append _
  | @text _ data hne hletters =>
    obtain ⟨d, u, hdata⟩ := List.exists_cons_of_ne_nil (mt String.toList_eq_nil_iff.1 hne)
    obtain ⟨hangle, hbrace⟩ := hletters d (by rw [hdata]; exact List.mem_cons_self ..)
    exact .text rfl hdata hangle hbrace
  | comment _ => exact .comment rfl rfl
  | expression _ => exact Expression.beginsNode_braced rfl _
  | tag _ => exact beginsNode_blockTag rfl (by decide) (by decide) _ _
  | ifBlock => subst hbranch; exact (beginsNode_blockTag rfl (by decide) (by decide) _ _).append _
  | ifElse => subst hbranch; exact (beginsNode_blockTag rfl (by decide) (by decide) _ _).append _
  | ifElseIf => subst hbranch; exact (beginsNode_blockTag rfl (by decide) (by decide) _ _).append _
  | eachBlock => exact (beginsNode_blockTag rfl (by decide) (by decide) _ _).append _
  | awaitBlock => exact (beginsNode_blockTag rfl (by decide) (by decide) _ _).append _
  | keyBlock => exact (beginsNode_blockTag rfl (by decide) (by decide) _ _).append _
  | snippetBlock => exact (beginsNode_blockTag rfl (by decide) (by decide) _ _).append _

/-! ### Fragments -/

/-- The node is read back wherever it stands; a text, where it ends. -/
def Node.ReadsBack (n : Node) : Prop :=
  ∀ (c : Cursor) (z : List Char), (n.isText = true → EndsText z) → c.Sees (n.print ++ z) → Gives .node c [n] z

/-- Behind a text of a fragment comes another node, or the end of the fragment. -/
theorem Spaced.endsText {n : Node} {nodes : List Node} {z : List Char} (h : Spaced (n :: nodes))
    (hbegins : ∀ m ∈ nodes, BeginsNode m m.print) (hz : EndsText z) (hn : n.isText = true) :
    EndsText (printAll nodes ++ z) := by
  cases nodes with
  | nil => exact hz
  | cons m nodes =>
    have hm : m.isText = false := by
      rcases (List.isChain_cons_cons.1 h).1 with hn' | hm
      · simp [hn] at hn'
      · exact hm
    refine .inr ?_
    rw [printAll, List.append_assoc]
    exact ((hbegins m (List.mem_cons_self ..)).append _).opensMarkup hm

/-- The fragment is read back up to the tag that ends it. -/
def Fragment.ReadsBack (f : Fragment) : Prop :=
  ∀ (c : Cursor) (z : List Char), EndsFragment z → c.Sees (f.print ++ z) → Gives .fragment c f.nodes z

theorem gives_fragment {nodes : List Node} {z : List Char} (hspaced : Spaced nodes)
    (hbegins : ∀ n ∈ nodes, BeginsNode n n.print) (hread : ∀ n ∈ nodes, n.ReadsBack) (hz : EndsFragment z)
    {c : Cursor} (h : c.Sees (printAll nodes ++ z)) : Gives .fragment c nodes z := by
  induction nodes generalizing c with
  | nil => exact .ends (endsFragment_iff.2 (.inr (h.rest ▸ hz))) h
  | cons n nodes ih =>
    rw [printAll, List.append_assoc] at h
    have hmore : ∀ m ∈ nodes, BeginsNode m m.print := fun m hm => hbegins m (List.mem_cons_of_mem n hm)
    have hfirst := hread n (List.mem_cons_self ..) c _ (hspaced.endsText hmore hz.endsText) h
    have hends := ((hbegins n (List.mem_cons_self ..)).append _).endsFragment h
    exact Gives.cons hends hfirst fun c₁ hc₁ =>
      ih hspaced.of_cons hmore (fun m hm => hread m (List.mem_cons_of_mem n hm)) hc₁

theorem Fragment.readsBack {f : Fragment} (hspaced : Spaced f.nodes) (hnodes : ∀ n ∈ f.nodes, n.Printable false)
    (hread : ∀ n ∈ f.nodes, n.ReadsBack) : f.ReadsBack := by
  intro c z hz h
  rw [print_eq] at h
  exact gives_fragment hspaced (fun n hn => (hnodes n hn).beginsNode) hread hz h

/-! ### Nodes without nodes in them -/

section Leaves

variable {c : Cursor} {z : List Char}

/-- A text without markup is read up to where markup opens. -/
theorem readsBack_text {span : Span} {data : String} (hne : data ≠ "")
    (hletters : ∀ d ∈ data.toList, d ≠ '<' ∧ d ≠ '{') : (Node.text span data).ReadsBack := by
  intro c z hends h
  obtain ⟨d, u, hdata⟩ := List.exists_cons_of_ne_nil (mt String.toList_eq_nil_iff.1 hne)
  have hrest : c.rest = d :: (u ++ z) := by rw [h.rest, Node.print, hdata]; rfl
  rw [hdata] at hletters
  obtain ⟨hangle, hbrace⟩ := hletters d (List.mem_cons_self ..)
  have hnode : readNode c = readText c := by
    refine readNode_of_text (eat?_eq_none (startsWith_eq_false ?_)) ?_ ?_
    · rw [hrest]
      simpa using hangle
    · rw [hrest]
      simpa using hbrace
    · rintro ⟨e, rest, he, -⟩
      rw [hrest] at he
      exact hangle (List.cons.inj he).1
  have hone : (c.moved (c.rest.take 1) (c.rest.drop 1)).rest = u ++ z := by rw [hrest]; rfl
  have hbreak := breakWhere_of_append hone (breakWhere_append_iff.2 ⟨hends rfl, fun e v hv => by
    obtain ⟨hangle, hbrace⟩ := hletters e (List.mem_cons_of_mem d (hv.subset (List.mem_cons_self ..)))
    cases v <;> cases z <;> simp [opensMarkup, hangle, hbrace]⟩)
  have htext : String.ofList (c.rest.take 1 ++ u) = data := by
    rw [hrest]
    show String.ofList (d :: u) = data
    rw [← hdata, String.ofList_toList]
  have hfound : (readText c).1 = .node (.text ((readText c).2.spanFrom c.offset) data) := by
    rw [readText, hbreak, htext]
  have hsees : (readText c).2.Sees z := by
    rw [readText, hbreak]
    exact ⟨rfl, h.faults⟩
  rw [← hnode] at hfound hsees
  exact .leaf hfound hsees rfl

/-- The text that closes a comment does not end where it begins. -/
theorem free_comment {data : List Char} (h : ¬ ['-', '-', '>'] <:+: data) : Free ['-', '-', '>'] data := by
  refine free_of_unbordered (fun v hne hbegins hends => ?_) h
  simp only [List.suffix_cons_iff, List.suffix_nil] at hends
  rcases hends with rfl | rfl | rfl | rfl
  · rfl
  · simp at hbegins
  · simp at hbegins
  · exact absurd rfl hne

theorem readsBack_comment {span : Span} {data : String} (hdata : ¬ ['-', '-', '>'] <:+: data.toList) :
    (Node.comment span data).ReadsBack := by
  intro c z _ h
  have hrest : c.rest = ['<', '!', '-', '-'] ++ (data.toList ++ (['-', '-', '>'] ++ z)) := by
    rw [h.rest, Node.print]
    simp
  have hnode := readNode_of_comment (eat?_of_append hrest)
  have hbreak := breakWhere_of_append (c := c.moved ['<', '!', '-', '-'] (data.toList ++ (['-', '-', '>'] ++ z))) rfl
    ((free_comment hdata).breakWhere z)
  rw [readComment, hbreak, eat?_of_append rfl] at hnode
  refine .leaf (congrArg Prod.fst hnode) ?_ ?_
  · rw [hnode]
    exact ⟨rfl, h.faults⟩
  · rw [String.ofList_toList]
    rfl

theorem readsBack_expression {span : Span} {e : Expression} (he : e.Fits e.pad) :
    (Node.expression span e).ReadsBack := by
  intro c z _ h
  have h : c.Sees (e.braced e.pad ++ z) := h
  obtain ⟨ds, hrest, hsome, hsees⟩ := h.braced_print he
  obtain ⟨d, u, hcons, hd⟩ := e.exists_braced
  obtain rfl : ds = d :: u ++ z := by
    rw [h.rest, hcons] at hrest
    exact (List.cons.inj hrest).2.symm
  have hnode := readNode_of_expression hrest (by rintro ⟨⟩; simp at hd) (by rintro ⟨⟩; simp at hd)
  rw [readExpression, hsome] at hnode
  refine .leaf (congrArg Prod.fst hnode) ?_ ?_
  · rw [hnode]
    exact hsees
  · refine congrArg (Node.expression (.point 0)) (Expression.unplaced_ofRaw ((trim_append_of_spaces (fun d hd => ?_) _).trans he.trimmed) _)
    unfold Expression.pad at hd
    split at hd
    · rw [List.mem_singleton.1 hd]
      decide
    · cases hd

/-- A keyword and an expression behind a blank. -/
theorem keyed_blank {keyword : String} {t : List Char} (hkeyword : ∀ d ∈ keyword.toList, d.isAlpha = true)
    (h : Embedded.Closed (' ' :: t)) : Keyed keyword.toList (' ' :: t) := ⟨hkeyword, by simp, h⟩

theorem TagKind.isAlpha_name (kind : TagKind) : ∀ d ∈ kind.name.toList, d.isAlpha = true := by
  cases kind <;> exact forall_mem_of_all rfl

theorem TagKind.ofName?_name (kind : TagKind) : TagKind.ofName? kind.name = some kind := by
  cases kind <;> rfl

theorem readsBack_tag {span : Span} {kind : TagKind} {e : Expression} (he : e.Fits [' ']) :
    (Node.tag span kind e).ReadsBack := by
  intro c z _ h
  have hrest : c.rest = '{' :: '@' :: (kind.name.toList ++ ((' ' :: e.text.toList) ++ '}' :: z)) := by
    rw [h.rest, Node.print, blockTag]
    simp
  have hmoved : (c.moved ['{', '@'] (kind.name.toList ++ ((' ' :: e.text.toList) ++ '}' :: z))).Sees _ :=
    ⟨rfl, h.faults⟩
  obtain ⟨hword, hsome, hsees⟩ := hmoved.keyed (keyed_blank kind.isAlpha_name he.closed)
  have hnode := readNode_of_tag hrest
  unfold readTag at hnode
  dsimp only at hnode
  rw [hsome, hword, String.ofList_toList] at hnode
  dsimp only at hnode
  rw [kind.ofName?_name] at hnode
  refine .leaf (congrArg Prod.fst hnode) ?_ ?_
  · rw [hnode]
    exact hsees
  · exact congrArg (Node.tag (.point 0) kind) (Expression.unplaced_ofRaw he.trim_blank _)

end Leaves

/-! ### Elements -/

section Elements

variable {c : Cursor} {z : List Char} {name : String} {attributes : List Attribute} {content : Fragment}

/-- A name without a colon is that of a plain element or a component. -/
theorem elementNode_of_name (h : IsMarkupName name) (c : Cursor) (start : Nat) (attributes : List Attribute)
    (content : Fragment) (selfClosing : Bool) : elementNode c start name attributes content selfClosing =
      (if isComponentName name then .component (c.spanFrom start) name attributes content selfClosing
        else .element (c.spanFrom start) name attributes content selfClosing, c) := by
  have hspecial : strip? ['s', 'v', 'e', 'l', 't', 'e', ':'] name.toList = none := by
    refine strip?_eq_none fun hpiece => ?_
    exact (h.letters ':' (hpiece.subset (by simp))).2 rfl
  rw [elementNode, hspecial]

/-- The node of an element or component. -/
theorem unplaced_elementNode (h : IsMarkupName name) {attributes attributes' : List Attribute}
    {content content' : Fragment} (hattributes : attributes'.map Attribute.unplaced = attributes.map Attribute.unplaced)
    (hcontent : content'.unplaced = content.unplaced) {span : Span} {selfClosing : Bool} {n : Node}
    (hn : n = if isComponentName name then .component span name attributes content selfClosing
      else .element span name attributes content selfClosing) (c : Cursor) (start : Nat) :
    (elementNode c start name attributes' content' selfClosing).1.unplaced = n.unplaced
      ∧ (elementNode c start name attributes' content' selfClosing).2 = c := by
  rw [elementNode_of_name h, hn]
  refine ⟨?_, rfl⟩
  dsimp only
  split <;> simp only [Node.unplaced, hattributes, hcontent]

/-- An element is read back with what is in it. -/
theorem readsBack_element {n : Node} {span : Span} {selfClosing : Bool}
    (h : PrintableElement name attributes content selfClosing)
    (hn : n = if isComponentName name then .component span name attributes content selfClosing
      else .element span name attributes content selfClosing)
    (hcontent : content.ReadsBack) : n.ReadsBack := by
  intro c z _ hc
  have hprint : n.print = if selfClosing then openingTag name attributes ['/', '>']
      else openingTag name attributes ['>'] ++ (content.print ++ closingTag name) := by
    rw [hn]
    split <;> rfl
  rw [hprint] at hc
  cases selfClosing with
  | true =>
    obtain ⟨hat, hname, hattributes, hsees⟩ := hc.openingTag h.named h.attributes (.inr rfl)
    have hnode := readNode_of_element hat
    rw [readElement, element_of_selfClosing (eat?_of_append hsees.rest), OpeningTag.leaf, hname] at hnode
    have hempty (o : Nat) : (⟨[], .point o⟩ : Fragment).unplaced = content.unplaced :=
      Fragment.unplaced_congr (by rw [h.empty rfl])
    obtain ⟨hsame, hlast⟩ := unplaced_elementNode h.named hattributes (hempty _) hn _ c.offset
    refine .leaf (congrArg Prod.fst hnode) ?_ hsame
    rw [hnode]
    dsimp only
    rw [hlast]
    exact ⟨rfl, hsees.faults⟩
  | false =>
    rw [if_neg (by decide), List.append_assoc] at hc
    obtain ⟨hat, hname, hattributes, hsees⟩ := hc.openingTag h.named h.attributes (.inl rfl)
    have hself : (readOpeningTag c).cursor.eat? ['/', '>'] = none := by
      rw [eat?, hsees.rest]
      rfl
    have hnode := readNode_of_element hat
    rw [readElement, element_of_open hself (eat?_of_append hsees.rest), hname, h.named.content.1, h.named.content.2,
      h.notVoid rfl] at hnode
    refine .opens (congrArg Prod.fst hnode) ?_
    rw [hnode]
    refine .done (hcontent _ (closingTag name ++ z) (.inl ⟨_, rfl⟩) ⟨by simp, hsees.faults⟩)
      fun content' c₁ hc₁ hsame => ?_
    have hclosed := hc₁.closeTag (closesTag_closingTag fun d hd => (h.named.letters d hd).1) c.offset
    obtain ⟨hsame', hlast⟩ := unplaced_elementNode h.named hattributes hsame hn (c₁.closeTag name c.offset) c.offset
    exact ⟨_, _, rfl, by rw [hlast]; exact hclosed, hsame'⟩

end Elements

end Restyle.Markup
