import Mathlib.Data.List.Dedup
import Restyle.Proofs.Markup.Printing
import Restyle.Proofs.Markup.Bracketing
import Restyle.Proofs.Markup.Leaving

/-! The branches of blocks. A block that is read without a fault is its opening tag, the nodes of a branch,
then a tag and the nodes of a branch as often as there is one more, and its closing tag. The tree has one place
for each kind of branch, and a branch takes the place of an earlier one of its kind. So all branches of a block
are in the tree if and only if no two are of one kind; if blocks never have two of a kind. -/

namespace Restyle.Markup

open Text Restyle.Span Cursor

/-! ### Kinds of branches -/

/-- The branches that blocks can have. -/
inductive BranchKind where
  | first | otherwise | pending | resolved | failed
  deriving DecidableEq

namespace BranchKind

def all : List BranchKind := [first, otherwise, pending, resolved, failed]

theorem mem_all (kind : BranchKind) : kind ∈ all := by
  cases kind <;> decide

theorem nodup_all : all.Nodup := by decide

/-- The keyword of the tags that go on to the branch. -/
def keyword? : BranchKind → Option String
  | otherwise => some "else"
  | resolved => some "then"
  | failed => some "catch"
  | first | pending => none

end BranchKind

/-- The fragment of a block in the place of a kind of branch. -/
def Node.branch? : Node → BranchKind → Option Fragment
  | .ifBlock _ _ _ consequent _, .first => some consequent
  | .ifBlock _ _ _ _ alternate, .otherwise => alternate
  | .eachBlock _ _ body _, .first => some body
  | .eachBlock _ _ _ fallback, .otherwise => fallback
  | .awaitBlock _ _ pending _ _, .pending => pending
  | .awaitBlock _ _ _ resolved _, .resolved => resolved
  | .awaitBlock _ _ _ _ failed, .failed => failed
  | _, _ => none

/-- The branch that a slot of an await block is for. -/
def AwaitSlot.kind? : AwaitSlot → Option BranchKind
  | .pending => some .pending
  | .resolved => some .resolved
  | .failed => some .failed
  | .unknown .. => none

/-- The branch that an await block begins with. -/
def firstKind (header : Expression) : BranchKind := (firstSlot header).kind?.getD .pending

theorem kind?_firstSlot (header : Expression) : (firstSlot header).kind? = some (firstKind header) := by
  unfold firstKind firstSlot
  split
  · rfl
  · split <;> rfl

/-- What a block of several branches begins with: the sign and the keyword of its opening tag, and the kind of
the branch behind that; and whether it can have no two branches of one kind. -/
structure Head where
  sign : Char
  keyword : String
  kind : BranchKind
  single : Bool

/-- An else-if block begins with the tag that goes on to it. -/
def ifHead (elseif : Bool) : Head :=
  if elseif then ⟨':', "else", .first, true⟩ else ⟨'#', "if", .first, true⟩

def Node.head? : Node → Option Head
  | .ifBlock _ elseif .. => some (ifHead elseif)
  | .eachBlock .. => some ⟨'#', "each", .first, false⟩
  | .awaitBlock _ header .. => some ⟨'#', "await", firstKind header, false⟩
  | _ => none

/-- A block that begins as an else-if block does is one. -/
theorem isBranch_of_head? {n : Node} (h : n.head? = some (ifHead true)) : n.isBranch = true := by
  cases n with
  | ifBlock span elseif test consequent alternate =>
    cases elseif with
    | true => rfl
    | false => simp [Node.head?, ifHead] at h
  | _ => simp [Node.head?, ifHead] at h

/-- The fragments of a block of several branches are those in the places of its branches. -/
theorem Node.fragments_eq {n : Node} {head : Head} (h : n.head? = some head) :
    n.fragments = BranchKind.all.filterMap n.branch? := by
  cases n with
  | ifBlock span elseif test consequent alternate => cases alternate <;> rfl
  | eachBlock span header body fallback => cases fallback <;> rfl
  | awaitBlock span header pending resolved failed => cases pending <;> cases resolved <;> cases failed <;> rfl
  | _ => cases h

/-! ### Branches in a row -/

/-- A branch as it is written: its tag and what stands behind it. -/
structure Branch where
  kind : BranchKind
  tag : List Char
  content : Fragment

/-- The content of the last branch of a kind. -/
def latest (branches : List Branch) (kind : BranchKind) : Option Fragment :=
  (branches.reverse.find? fun b => b.kind = kind).map Branch.content

theorem latest_append (branches : List Branch) (b : Branch) (kind : BranchKind) :
    latest (branches ++ [b]) kind = if kind = b.kind then some b.content else latest branches kind := by
  unfold latest
  rw [List.reverse_append, List.reverse_singleton, List.singleton_append, List.find?_cons]
  by_cases h : kind = b.kind
  · simp [h]
  · simp [h, Ne.symm h]

theorem isSome_latest {branches : List Branch} {kind : BranchKind} :
    (latest branches kind).isSome = true ↔ kind ∈ branches.map Branch.kind := by
  simp only [latest, Option.isSome_map, List.find?_isSome, List.mem_reverse, decide_eq_true_eq, List.mem_map]

theorem exists_of_latest {branches : List Branch} {kind : BranchKind} {f : Fragment}
    (h : latest branches kind = some f) : ∃ b ∈ branches, b.kind = kind ∧ b.content = f := by
  obtain ⟨b, hb, rfl⟩ := Option.map_eq_some_iff.1 h
  exact ⟨b, List.mem_reverse.1 (List.mem_of_find?_eq_some hb), of_decide_eq_true (List.find?_some hb :), rfl⟩

/-- One more branch of a kind that there is not yet. -/
theorem filterMap_latest_append {branches : List Branch} {b : Branch} (h : b.kind ∉ branches.map Branch.kind) :
    (BranchKind.all.filterMap (latest (branches ++ [b]))).Perm
      (BranchKind.all.filterMap (latest branches) ++ [b.content]) := by
  have hnone : latest branches b.kind = none := by
    rw [← Option.not_isSome_iff_eq_none, isSome_latest]
    exact h
  obtain ⟨before, behind, hall⟩ := List.append_of_mem b.kind.mem_all
  have hnodup := BranchKind.nodup_all
  rw [hall] at hnodup ⊢
  obtain ⟨-, hbehind, hbefore⟩ := List.nodup_append.1 hnodup
  have same : ∀ kinds : List BranchKind, b.kind ∉ kinds →
      kinds.filterMap (latest (branches ++ [b])) = kinds.filterMap (latest branches) := by
    intro kinds hkinds
    refine List.filterMap_congr fun kind hkind => ?_
    rw [latest_append, if_neg (ne_of_mem_of_not_mem hkind hkinds)]
  rw [List.filterMap_append, List.filterMap_append, List.filterMap_cons, List.filterMap_cons, latest_append,
    if_pos rfl, hnone, same before fun hmem => hbefore _ hmem _ List.mem_cons_self rfl,
    same behind (List.nodup_cons.1 hbehind).1, List.append_assoc]
  exact (List.perm_append_singleton ..).symm.append_left _

/-- The last branches of all kinds are all branches if no two are of one kind. -/
theorem filterMap_latest_perm {branches : List Branch} (h : (branches.map Branch.kind).Nodup) :
    (BranchKind.all.filterMap (latest branches)).Perm (branches.map Branch.content) := by
  induction branches using List.reverseRecOn with
  | nil => exact .refl _
  | append_singleton branches b ih =>
    rw [List.map_append, List.map_singleton] at h
    obtain ⟨hbranches, -, hnew⟩ := List.nodup_append.1 h
    have hnot : b.kind ∉ branches.map Branch.kind := fun hmem => hnew _ hmem _ (List.mem_singleton_self _) rfl
    rw [List.map_append, List.map_singleton]
    exact (filterMap_latest_append hnot).trans ((ih hbranches).append_right _)

/-- There are as many last branches as there are kinds. -/
theorem length_filterMap_latest (branches : List Branch) :
    (BranchKind.all.filterMap (latest branches)).length = (branches.map Branch.kind).dedup.length := by
  have hperm : (BranchKind.all.filter fun kind => (latest branches kind).isSome).Perm
      (branches.map Branch.kind).dedup := by
    refine (List.perm_ext_iff_of_nodup (BranchKind.nodup_all.filter _) (List.nodup_dedup _)).2 fun kind => ?_
    rw [List.mem_filter, isSome_latest, List.mem_dedup]
    exact and_iff_right kind.mem_all
  rw [List.length_filterMap_eq_countP, List.countP_eq_length_filter]
  exact hperm.length_eq

/-- No branch is lost if and only if no two are of one kind. -/
theorem filterMap_latest_perm_iff {branches : List Branch} :
    (BranchKind.all.filterMap (latest branches)).Perm (branches.map Branch.content) ↔
      (branches.map Branch.kind).Nodup := by
  refine ⟨fun h => ?_, filterMap_latest_perm⟩
  have hlength := h.length_eq
  rw [length_filterMap_latest, List.length_map, ← List.length_map (f := Branch.kind)] at hlength
  rw [← (List.dedup_sublist _).eq_of_length hlength]
  exact List.nodup_dedup _

/-! ### Branches in a text -/

/-- The tag of a block with a sign and a keyword, up to the brace that closes it. -/
def IsTag (sign : Char) (keyword : String) (tag : List Char) : Prop :=
  ∃ raw, Keyed keyword.toList raw ∧ tag = blockTag sign keyword raw

/-- No brace inside a tag closes it. -/
theorem IsTag.closed {sign : Char} {keyword : String} {tag : List Char} (h : IsTag sign keyword tag) :
    Embedded.Closed (((tag.drop 2).dropWhile Char.isAlpha).dropLast) := by
  obtain ⟨raw, ⟨halpha, hends, hclosed⟩, rfl⟩ := h
  have hbehind : (raw ++ ['}']).dropWhile Char.isAlpha = raw ++ ['}'] := by
    rw [List.dropWhile_eq_self_iff]
    intro hlt
    rw [hends _ (List.head?_eq_getElem? ▸ List.getElem?_eq_getElem hlt)]
    exact Bool.false_ne_true
  have hdrop : ((blockTag sign keyword raw).drop 2).dropWhile Char.isAlpha = raw ++ ['}'] := by
    rw [blockTag, List.drop_succ_cons, List.drop_succ_cons, List.drop_zero, List.dropWhile_append_of_pos halpha, hbehind]
  rw [hdrop, List.dropLast_concat]
  exact hclosed

/-- The branches stand side by side between two offsets, each behind its tag. -/
def Lined (cs : List Char) : Nat → List Branch → Nat → Prop
  | lo, [], hi => lo = hi
  | lo, b :: branches, hi => Text.slice? cs lo b.content.span.start = some b.tag ∧
    b.content.span.start ≤ b.content.span.stop ∧ Lined cs b.content.span.stop branches hi

/-- A branch that a block goes on with: it has a tag of its own, or is an else-if block, which begins with it. -/
inductive Branch.Continues (b : Branch) : Prop where
  | tag {keyword : String} : b.kind.keyword? = some keyword → IsTag ':' keyword b.tag → b.Continues
  | elseIf {n : Node} : b.kind = .otherwise → b.tag = [] → b.content = ⟨[n], n.span⟩ → n.isBranch = true → b.Continues

theorem Branch.Continues.keyword?_ne_none {b : Branch} (h : b.Continues) : b.kind.keyword? ≠ none := by
  cases h with
  | tag hkeyword => simp [hkeyword]
  | elseIf hkind => simp [hkind, BranchKind.keyword?]

/-- The first branch stands behind the opening tag, and each other one goes on with the block. -/
inductive Head.Begins (head : Head) : List Branch → Prop where
  | mk {b : Branch} {branches : List Branch} : b.kind = head.kind → IsTag head.sign head.keyword b.tag →
    (∀ b ∈ branches, b.Continues) → head.Begins (b :: branches)

/-- The end of a block. An else-if block has no closing tag. -/
def Head.Closes (head : Head) (close : List Char) : Prop :=
  if head.sign = '#' then ClosesBlock head.keyword close else close = []

/-- Branches of a block from its opening tag on, and the fragments that are kept of them. -/
structure Row (cs : List Char) (head : Head) (lo hi : Nat) (kept : BranchKind → Option Fragment)
    (fragments : List Fragment) (branches : List Branch) : Prop where
  lined : Lined cs lo branches hi
  begins : head.Begins branches
  kept : ∀ kind, kept kind = latest branches kind
  whole : head.single = true → fragments = branches.map Branch.content

/-- The block is written as these branches, from its opening tag to its closing tag. -/
inductive Node.Spelled (cs : List Char) (n : Node) (head : Head) (branches : List Branch) : Prop where
  | mk {mid : Nat} {close : List Char} : Row cs head n.span.start mid n.branch? n.fragments branches →
    head.Closes close → Text.slice? cs mid n.span.stop = some close → n.Spelled cs head branches

/-- Every block of several branches is written as some branches. -/
def Node.Written (cs : List Char) (n : Node) : Prop := ∀ head ∈ n.head?, ∃ branches, n.Spelled cs head branches

theorem Lined.append {cs : List Char} {lo mid hi : Nat} {branches more : List Branch} (h : Lined cs lo branches mid)
    (h' : Lined cs mid more hi) : Lined cs lo (branches ++ more) hi := by
  induction branches generalizing lo with
  | nil =>
    obtain rfl : lo = mid := h
    exact h'
  | cons b branches ih => exact ⟨h.1, h.2.1, ih h.2.2⟩

theorem Head.Begins.append {head : Head} {branches : List Branch} {b : Branch} (h : head.Begins branches)
    (hb : b.Continues) : head.Begins (branches ++ [b]) := by
  cases h with
  | mk hkind htag hmore =>
    refine .mk hkind htag fun b' hb' => ?_
    rcases List.mem_append.1 hb' with hb' | hb'
    · exact hmore b' hb'
    · rw [List.mem_singleton.1 hb']
      exact hb

/-- All branches of a block are in the tree if and only if no two are of one kind. -/
theorem Node.Spelled.fragments_perm_iff {cs : List Char} {n : Node} {head : Head} {branches : List Branch}
    (h : n.Spelled cs head branches) (hhead : n.head? = some head) :
    n.fragments.Perm (branches.map Branch.content) ↔ (branches.map Branch.kind).Nodup := by
  obtain ⟨hrow, -, -⟩ := h
  rw [n.fragments_eq hhead, funext hrow.kept]
  exact filterMap_latest_perm_iff

/-! ### Constructs of several branches -/

/-- The branch of a construct that is being read. -/
def Opened.kind? : Opened → Option BranchKind
  | .consequent .. | .eachBody .. => some .first
  | .alternate .. | .eachFallback .. => some .otherwise
  | .awaitBranch _ _ slot => slot.kind?
  | _ => none

def Opened.head? : Opened → Option Head
  | .consequent elseif _ | .alternate elseif .. | .chain elseif .. => some (ifHead elseif)
  | .eachBody .. | .eachFallback .. => some ⟨'#', "each", .first, false⟩
  | .awaitBranch header .. => some ⟨'#', "await", firstKind header, false⟩
  | _ => none

/-- The fragments of a construct that are kept in the places of its branches. -/
def Opened.branch? : Opened → BranchKind → Option Fragment
  | .alternate _ _ content, .first | .chain _ _ content, .first => some content
  | .eachFallback _ body, .first => some body
  | .awaitBranch _ branches _, .pending => branches.pending
  | .awaitBranch _ branches _, .resolved => branches.resolved
  | .awaitBranch _ branches _, .failed => branches.failed
  | _, _ => none

/-- What is kept of a construct when the branch that is being read has ended. -/
def Opened.keeping (opened : Opened) (kind : BranchKind) (content : Fragment) (k : BranchKind) : Option Fragment :=
  if k = kind then some content else opened.branch? k

/-- A fragment with no block but such that is written as it should. -/
def Fragment.Written (cs : List Char) (f : Fragment) : Prop := ∀ n ∈ f.nodes, n.Everywhere (Node.Written cs)

variable {cs : List Char}

/-- The complete branches of a construct, and the tag of the one that begins at an offset. -/
structure Opened.Begun (cs : List Char) (head : Head) (start offset : Nat) (opened : Opened) (kind : BranchKind) :
    Prop where
  row : ∃ branches tag mid, Lined cs start branches mid ∧ Text.slice? cs mid offset = some tag ∧
    (∀ content, head.Begins (branches ++ [⟨kind, tag, content⟩])) ∧
    (∀ k, k ≠ kind → opened.branch? k = latest branches k) ∧
    (head.single = true → opened.fragments = branches.map Branch.content)
  below : ∀ k, k ≠ kind → ∀ f ∈ opened.branch? k, f.Written cs

/-- A construct is written as it should up to an offset, if it is one of several branches. -/
def Opened.Written (cs : List Char) (start offset : Nat) (opened : Opened) : Prop :=
  ∀ head ∈ opened.head?, ∀ kind ∈ opened.kind?, opened.Begun cs head start offset kind

section Rows

variable {head : Head} {lo mid start offset : Nat} {opened opened' : Opened} {kind kind' : BranchKind}
  {content : Fragment} {branches : List Branch} {tag : List Char}

/-- A branch in the row that another one follows. -/
theorem Row.append {kept : BranchKind → Option Fragment} {fragments : List Fragment} {b : Branch}
    (h : Row cs head lo mid kept fragments branches) (hb : b.Continues)
    (htag : Text.slice? cs mid b.content.span.start = some b.tag) (hle : b.content.span.start ≤ b.content.span.stop) :
    Row cs head lo b.content.span.stop (fun k => if k = b.kind then some b.content else kept k)
      (fragments ++ [b.content]) (branches ++ [b]) := by
  have hlast : Lined cs mid [b] b.content.span.stop := ⟨htag, hle, rfl⟩
  refine ⟨h.lined.append hlast, h.begins.append hb, fun k => ?_, fun hsingle => ?_⟩
  · rw [latest_append, h.kept]
  · rw [h.whole hsingle, List.map_append, List.map_singleton]

/-- Behind its opening tag a construct has no branch yet. -/
theorem begun_first (htag : IsTag head.sign head.keyword tag) (hslice : Text.slice? cs start offset = some tag)
    (hbranch : ∀ k, opened.branch? k = none) (hfragments : opened.fragments = []) :
    opened.Begun cs head start offset head.kind := by
  refine ⟨⟨[], tag, start, rfl, hslice, fun content => .mk rfl htag (by simp), fun k _ => ?_, fun _ => ?_⟩,
    fun k _ f hf => ?_⟩
  · rw [hbranch]
    rfl
  · rw [hfragments]
    rfl
  · rw [hbranch] at hf
    cases hf

/-- When a branch has ended, there is one more in the row. -/
theorem Opened.Begun.exists_row (h : opened.Begun cs head start content.span.start kind)
    (hle : content.span.start ≤ content.span.stop) : ∃ branches,
    Row cs head start content.span.stop (opened.keeping kind content) (opened.fragments ++ [content]) branches := by
  obtain ⟨branches, tag, mid, hlined, htag, hbegins, hkept, hwhole⟩ := h.row
  have hlast : Lined cs mid [⟨kind, tag, content⟩] content.span.stop := ⟨htag, hle, rfl⟩
  refine ⟨branches ++ [⟨kind, tag, content⟩], hlined.append hlast, hbegins content, fun k => ?_, fun hsingle => ?_⟩
  · rw [latest_append, Opened.keeping]
    split
    · rfl
    · next hne => exact hkept k hne
  · rw [hwhole hsingle, List.map_append]
    rfl

theorem Opened.Begun.keeping (h : opened.Begun cs head start offset kind) (hcontent : content.Written cs)
    {k : BranchKind} {f : Fragment} (hf : opened.keeping kind content k = some f) : f.Written cs := by
  rw [Opened.keeping] at hf
  split at hf
  · cases hf
    exact hcontent
  · next hne => exact h.below k hne f hf

/-- The next branch begins behind a tag of its kind. -/
theorem Row.begun (h : Row cs head start mid (opened.keeping kind content) (opened.fragments ++ [content]) branches)
    {keyword : String} (hkeyword : kind'.keyword? = some keyword) (htag : IsTag ':' keyword tag)
    (hslice : Text.slice? cs mid offset = some tag)
    (hkept : ∀ k, k ≠ kind' → opened'.branch? k = opened.keeping kind content k)
    (hfragments : head.single = true → opened'.fragments = opened.fragments ++ [content])
    (hbelow : ∀ k f, opened.keeping kind content k = some f → f.Written cs) :
    opened'.Begun cs head start offset kind' := by
  refine ⟨⟨branches, tag, mid, h.lined, hslice, fun content => h.begins.append (.tag hkeyword htag), fun k hk => ?_,
    fun hsingle => ?_⟩, fun k hk f hf => hbelow k f ?_⟩
  · rw [hkept k hk, h.kept]
  · rw [hfragments hsingle, h.whole hsingle]
  · rw [← hkept k hk]
    exact hf

/-- A block of several branches with all that is in it. -/
theorem Node.everywhere_written {n : Node} (hhead : n.head? = some head) (h : n.Spelled cs head branches)
    (hbelow : ∀ k f, n.branch? k = some f → f.Written cs) : n.Everywhere (Node.Written cs) := by
  refine .mk (fun head' hhead' => ?_) fun m hm => ?_
  · cases hhead.symm.trans hhead'
    exact ⟨branches, h⟩
  · obtain ⟨f, hf, hm⟩ := List.mem_flatMap.1 hm
    rw [n.fragments_eq hhead] at hf
    obtain ⟨k, -, hk⟩ := List.mem_filterMap.1 hf
    exact hbelow k f hk m hm

end Rows

/-! ### The end of a branch -/

section Leaving

variable {c c' : Cursor} {head : Head} {kind : BranchKind} {opened : Opened} {start : Nat} {content : Fragment}
  {left : Left}

/-- What a construct comes to when a branch of it has ended: all branches are kept, but for those of the kind
that follows; and the tag that is read is the closing tag, or goes on to that kind. -/
def Left.Follows (cs : List Char) (head : Head) (opened : Opened) (kind : BranchKind) (content : Fragment)
    (c c' : Cursor) : Left → Prop
  | .done n => n.head? = some head ∧ (∀ k, n.branch? k = opened.keeping kind content k) ∧
    (head.single = true → n.fragments = opened.fragments ++ [content]) ∧
    ∃ close, head.Closes close ∧ Text.slice? cs c.offset c'.offset = some close
  | .next opened' => opened'.head? = some head ∧
    (head.single = true → opened'.fragments = opened.fragments ++ [content]) ∧
    ∀ kind' ∈ opened'.kind?, (∀ k, k ≠ kind' → opened'.branch? k = opened.keeping kind content k) ∧
      ∃ keyword tag, kind'.keyword? = some keyword ∧ IsTag ':' keyword tag ∧
        Text.slice? cs c.offset c'.offset = some tag
  | .branch elseif test consequent _ => opened = .consequent elseif test ∧ kind = .first ∧ consequent = content ∧
    ∃ tag, IsTag ':' "else" tag ∧ Text.slice? cs c.offset c'.offset = some tag

/-- The tag that goes on with a block. -/
theorem tag_continuation? (hc : c.On cs) (hclean : c.continuation?.2.faults = []) {keyword : String} {e : Expression}
    (h : c.continuation?.1 = some (keyword, e)) :
    ∃ tag, IsTag ':' keyword tag ∧ Text.slice? cs c.offset c.continuation?.2.offset = some tag := by
  cases hat : c.atContinuation with
  | false => simp [continuation?_of_not hat] at h
  | true =>
    obtain ⟨word, raw, hkeyed, hrest, hsome⟩ := rest_of_continuation? hclean hat
    cases hsome.symm.trans h
    refine ⟨_, ⟨raw, by rwa [String.toList_ofList], rfl⟩, hc.slice?_read (reaches_continuation? c) ?_⟩
    rw [hrest]
    simp [blockTag]

theorem continuation?_of_none (h : c.continuation?.1 = none) (hclean : c.continuation?.2.faults = []) :
    c.continuation? = (none, c) := by
  cases hat : c.atContinuation with
  | false => exact continuation?_of_not hat
  | true =>
    obtain ⟨_, _, -, -, hsome⟩ := rest_of_continuation? hclean hat
    cases hsome.symm.trans h

theorem closes_closeBlock {keyword : String} (hc : c.On cs) (hsign : head.sign = '#') (hkeyword : head.keyword = keyword)
    (hclean : (c.closeBlock keyword start).faults = []) :
    ∃ close, head.Closes close ∧ Text.slice? cs c.offset (c.closeBlock keyword start).offset = some close := by
  obtain ⟨close, hclose, hrest⟩ := rest_of_closeBlock hclean
  refine ⟨close, ?_, hc.slice?_read (reaches_closeBlock ..) hrest⟩
  rw [Head.Closes, if_pos hsign, hkeyword]
  exact hclose

/-- A block that does not go on is closed where its last branch ends. -/
theorem closes_of_none {keyword : String} (hc : c.On cs) (hnone : c.continuation?.1 = none) (hsign : head.sign = '#')
    (hkeyword : head.keyword = keyword) (hclean : (c.continuation?.2.closeBlock keyword start).faults = []) :
    ∃ close, head.Closes close ∧
      Text.slice? cs c.offset (c.continuation?.2.closeBlock keyword start).offset = some close := by
  have hstays := continuation?_of_none hnone ((reaches_closeBlock ..).clean hclean)
  rw [hstays] at hclean ⊢
  exact closes_closeBlock hc hsign hkeyword hclean

theorem closes_ifNode (hc : c.On cs) {elseif : Bool} (test : Expression) (consequent : Fragment)
    (alternate : Option Fragment) (hclean : (Reader.ifNode c start elseif test consequent alternate).2.faults = []) :
    ∃ close, (ifHead elseif).Closes close ∧
      Text.slice? cs c.offset (Reader.ifNode c start elseif test consequent alternate).2.offset = some close := by
  cases elseif with
  | true => exact ⟨[], by simp [Head.Closes, ifHead], hc.slice?_read (.refl c) rfl⟩
  | false => exact closes_closeBlock hc rfl rfl hclean

variable {branches : List Branch}

/-- A block whose last branch has ended. -/
theorem Row.done {n : Node}
    (h : Row cs head start c.offset (opened.keeping kind content) (opened.fragments ++ [content]) branches)
    (hfollows : (Left.done n).Follows cs head opened kind content c c') (hspan : n.span = c'.spanFrom start) :
    n.Spelled cs head branches := by
  obtain ⟨-, hbranch, hwhole, close, hclose, hslice⟩ := hfollows
  have hrow : Row cs head n.span.start c.offset n.branch? n.fragments branches := by
    refine ⟨?_, h.begins, fun k => (hbranch k).trans (h.kept k), fun hsingle => ?_⟩
    · rw [hspan]
      exact h.lined
    · rw [hwhole hsingle, h.whole hsingle]
  refine .mk hrow hclose ?_
  rw [hspan]
  exact hslice

/-- The next branch of a block. -/
theorem Row.next {opened' : Opened}
    (h : Row cs head start c.offset (opened.keeping kind content) (opened.fragments ++ [content]) branches)
    (hfollows : (Left.next opened').Follows cs head opened kind content c c')
    (hbelow : ∀ k f, opened.keeping kind content k = some f → f.Written cs) : opened'.Written cs start c'.offset := by
  obtain ⟨hnext, hwhole, hkinds⟩ := hfollows
  intro head' hhead' kind' hkind'
  cases hnext.symm.trans hhead'
  obtain ⟨hkept, keyword, tag, hkeyword, htag, hslice⟩ := hkinds kind' hkind'
  exact h.begun hkeyword htag hslice hkept hwhole hbelow

/-- An if block whose last branch is an else-if block. -/
theorem Row.branch {elseif : Bool} {test : Expression} {n : Node} {lo : Nat}
    (h : Row cs (ifHead elseif) start lo ((Opened.consequent elseif test).keeping .first content) [content] branches)
    (hc : c.On cs) (hlo : Text.isBoundary cs lo = true) (hle : lo ≤ c.offset) (hn : n.isBranch = true)
    (hspan : n.span = c.spanFrom lo)
    (hclean : (Reader.ifNode c start elseif test content (some ⟨[n], n.span⟩)).2.faults = []) :
    (Reader.ifNode c start elseif test content (some ⟨[n], n.span⟩)).1.Spelled cs (ifHead elseif)
      (branches ++ [⟨.otherwise, [], ⟨[n], n.span⟩⟩]) := by
  obtain ⟨close, hclose, hslice⟩ := closes_ifNode hc test content (some ⟨[n], n.span⟩) hclean
  have hrow := h.append (b := ⟨.otherwise, [], ⟨[n], n.span⟩⟩) (.elseIf rfl rfl rfl hn)
    (by rw [hspan]; exact slice?_self hlo) (by rw [hspan]; exact hle)
  have hstop : n.span.stop = c.offset := congrArg Span.stop hspan
  refine .mk ⟨hrow.lined, hrow.begins, fun k => ?_, fun _ => ?_⟩ hclose ?_
  · rw [← hrow.kept k]
    cases k <;> rfl
  · exact hrow.whole (by cases elseif <;> rfl)
  · rw [hstop]
    exact hslice

/-- Without a fault an if block or an each block goes on with an else branch. -/
theorem else_continuation? (hc : c.On cs) {block keyword : String} {e : Expression}
    (hsome : c.continuation?.1 = some (keyword, e))
    (hclean : (if keyword = "else" && e.text = "" then c.continuation?.2
      else c.continuation?.2.unexpectedContinuation block keyword e.span).faults = []) :
    ∃ tag, IsTag ':' "else" tag ∧ Text.slice? cs c.offset (if keyword = "else" && e.text = "" then c.continuation?.2
      else c.continuation?.2.unexpectedContinuation block keyword e.span).offset = some tag := by
  have hexpected := expected_of_clean hclean
  rw [if_pos hexpected] at hclean ⊢
  rw [of_decide_eq_true (Bool.and_eq_true_iff.1 hexpected).1] at hsome
  exact tag_continuation? hc hclean hsome

/-- The branches of an await block, with the one that has just ended. -/
theorem branch?_storeBranch (c : Cursor) (content : Fragment) (header : Expression) (branches : AwaitBranches)
    {slot : AwaitSlot} (hkind : slot.kind? = some kind) (span : Span) (k : BranchKind) :
    (Node.awaitBlock span header (Reader.storeBranch branches c content slot).1.pending
        (Reader.storeBranch branches c content slot).1.resolved
        (Reader.storeBranch branches c content slot).1.failed).branch? k =
      (Opened.awaitBranch header branches slot).keeping kind content k := by
  cases slot <;> cases hkind <;> cases k <;> rfl

theorem AwaitSlot.isKnown_iff {slot : AwaitSlot} : slot.isKnown = true ↔ ∃ kind, slot.kind? = some kind := by
  cases slot <;> simp [isKnown, kind?]

/-- A continuation of an await block that it has is the one of its keyword. -/
theorem keyword?_awaitSlot {keyword : String} {span : Span} (h : (Reader.awaitSlot keyword span).kind? = some kind) :
    kind.keyword? = some keyword := by
  unfold Reader.awaitSlot at h
  split at h
  · cases h
    rfl
  · cases h
    rfl
  · cases h

/-- A construct of several branches goes on with a branch of another kind or comes to its end. -/
theorem Leaves.follows (hleave : Leaves start content c opened left c') (hc : c.On cs)
    (hhead : opened.head? = some head) (hkind : opened.kind? = some kind) (hclean : c'.faults = []) :
    left.Follows cs head opened kind content c c' := by
  cases hleave with
  | element | key | snippet => cases hhead
  | chain => cases hkind
  | endIf elseif test hnone =>
    cases hhead
    cases hkind
    have hnone := continuation?_of_none hnone ((Reader.reaches_ifNode ..).clean hclean)
    rw [hnone] at hclean ⊢
    refine ⟨rfl, fun k => ?_, fun _ => rfl, closes_ifNode hc test content none hclean⟩
    cases k <;> rfl
  | elseIf elseif test hsome =>
    cases hhead
    cases hkind
    exact ⟨rfl, rfl, rfl, tag_continuation? hc hclean hsome⟩
  | orElse elseif test hsome =>
    cases hhead
    cases hkind
    obtain ⟨tag, htag, hslice⟩ := else_continuation? hc hsome hclean
    refine ⟨rfl, fun _ => rfl, ?_⟩
    rintro kind ⟨⟩
    refine ⟨fun k _ => ?_, "else", tag, rfl, htag, hslice⟩
    cases k <;> rfl
  | alternate elseif test consequent =>
    cases hhead
    cases hkind
    refine ⟨rfl, fun k => ?_, fun _ => rfl, closes_ifNode hc test consequent (some content) hclean⟩
    cases k <;> rfl
  | endEach hends hnone =>
    cases hends <;> cases hhead <;> cases hkind <;>
      exact ⟨rfl, fun k => by cases k <;> rfl, by simp, closes_of_none hc hnone rfl rfl hclean⟩
  | eachElse hends hsome =>
    obtain ⟨tag, htag, hslice⟩ := else_continuation? hc hsome hclean
    cases hends with
    | body header =>
      cases hhead
      cases hkind
      refine ⟨rfl, by simp, ?_⟩
      rintro kind ⟨⟩
      refine ⟨fun k _ => ?_, "else", tag, rfl, htag, hslice⟩
      cases k <;> rfl
    | fallback header body =>
      -- another fallback takes the place of the one that has ended
      cases hhead
      cases hkind
      refine ⟨rfl, by simp, ?_⟩
      rintro kind ⟨⟩
      exact ⟨fun k hk => (if_neg hk).symm, "else", tag, rfl, htag, hslice⟩
  | endAwait header branches slot hstored hnone =>
    subst hstored
    cases hhead
    have hkept := branch?_storeBranch c content header branches hkind
    rw [snd_storeBranch branches c content (AwaitSlot.isKnown_iff.2 ⟨_, hkind⟩)] at hnone hclean ⊢
    exact ⟨rfl, hkept _, by simp, closes_of_none hc hnone rfl rfl hclean⟩
  | @awaitNext header branches slot _ keyword e hstored hsome =>
    subst hstored
    cases hhead
    have hkept := branch?_storeBranch c content header branches hkind e.span
    rw [snd_storeBranch branches c content (AwaitSlot.isKnown_iff.2 ⟨_, hkind⟩)] at hsome hclean ⊢
    obtain ⟨tag, htag, hslice⟩ := tag_continuation? hc hclean hsome
    refine ⟨rfl, by simp, fun kind' hkind' => ⟨fun k _ => ?_, keyword, tag, keyword?_awaitSlot hkind', htag, hslice⟩⟩
    rw [← hkept k]
    cases k <;> rfl

/-- Without a fault, a branch that has ended is one that its block has. -/
theorem Leaves.exists_kind? (hleave : Leaves start content c opened left c') (hhead : opened.head? = some head)
    (hchain : opened.isChain = false) (hclean : c'.faults = []) : ∃ kind, opened.kind? = some kind := by
  have hstored {stored : AwaitBranches × Cursor} {branches : AwaitBranches} {slot : AwaitSlot}
      (hstored : Reader.storeBranch branches c content slot = stored) (hclean : stored.2.faults = []) :
      ∃ kind, slot.kind? = some kind := by
    subst hstored
    exact AwaitSlot.isKnown_iff.1 (isKnown_of_clean hclean)
  cases hleave with
  | element | key | snippet => cases hhead
  | chain => cases hchain
  | endIf | elseIf | orElse | alternate => exact ⟨_, rfl⟩
  | endEach hends | eachElse hends => cases hends <;> exact ⟨_, rfl⟩
  | endAwait _ _ _ h => exact hstored h ((reaches_continuation? _).clean ((reaches_closeBlock ..).clean hclean))
  | awaitNext _ _ _ h => exact hstored h ((reaches_continuation? _).clean hclean)

end Leaving

/-! ### Reading a node -/

section Reading

variable {c c' : Cursor} {start : Nat} {content : Fragment}

/-- A node that is no block of several branches. -/
theorem Node.written_plain {n : Node} (hhead : n.head? = none) (hfragments : ∀ f ∈ n.fragments, f.Written cs) :
    n.Everywhere (Node.Written cs) := by
  refine .mk (fun head hmem => ?_) fun m hm => ?_
  · rw [hhead] at hmem
    cases hmem
  · obtain ⟨f, hf, hm⟩ := List.mem_flatMap.1 hm
    exact hfragments f hf m hm

theorem head?_elementNode (c : Cursor) (start : Nat) (name : String) (attributes : List Attribute) (content : Fragment)
    (selfClosing : Bool) : (elementNode c start name attributes content selfClosing).1.head? = none :=
  elementNode_cases (P := fun n => n.head? = none) rfl rfl fun _ => rfl

theorem written_elementNode (name : String) (attributes : List Attribute) (selfClosing : Bool)
    (hcontent : content.Written cs) :
    (elementNode c start name attributes content selfClosing).1.Everywhere (Node.Written cs) := by
  refine Node.written_plain (head?_elementNode ..) ?_
  rw [fragments_elementNode]
  simpa using hcontent

theorem written_textNodes (closing : List Char) : ∀ n ∈ (c.textNodes closing).1, n.Everywhere (Node.Written cs) := by
  fun_induction textNodes closing c with
  | case1 c hc => simp
  | case2 c d ds hc hclosing => simp
  | case3 c ds hc hclosing inside more he ih => exact ih
  | case4 c ds e hc hclosing inside more he ih =>
    exact List.forall_mem_cons.2 ⟨Node.written_plain rfl (by simp [Node.fragments]), ih⟩
  | case5 c d ds hc hclosing hbrace text more ih =>
    exact List.forall_mem_cons.2 ⟨Node.written_plain rfl (by simp [Node.fragments]), ih⟩

theorem written_rawContent (c : Cursor) (name : String) : (c.rawContent name).1.Written cs := by
  unfold rawContent Fragment.Written
  dsimp only
  split
  · simp
  · simpa using Node.written_plain rfl (by simp [Node.fragments])

/-- What was found between two offsets is written as it should. -/
def Found.Written (cs : List Char) (start stop : Nat) : Found → Prop
  | .node n => n.Everywhere (Node.Written cs)
  | .nothing => True
  | .opened f => f.start = start ∧ f.opened.Written cs start stop

theorem OpeningTag.Ends.written {tag : OpeningTag} {found : Found} (hends : tag.Ends start found c') :
    found.Written cs start c'.offset := by
  have hempty : ∀ o : Nat, (⟨[], .point o⟩ : Fragment).Written cs := fun o n hn => by cases hn
  cases hends with
  | selfClosing | unclosed | void => exact written_elementNode _ _ _ (hempty _)
  | raw => exact written_elementNode _ _ _ (written_rawContent _ _)
  | text => exact written_elementNode _ _ _ (written_textNodes _)
  | opened => exact ⟨rfl, fun head hhead => by cases hhead⟩

/-- A block that has just been opened, behind its tag. -/
theorem Begins.written {keyword : String} {opened : Expression → Opened} {raw : List Char} {offset : Nat}
    (hbegins : Begins keyword opened) (hkeyed : Keyed keyword.toList raw)
    (hslice : Text.slice? cs start offset = some (blockTag '#' keyword raw)) (e : Expression) :
    (opened e).Written cs start offset := by
  have hhead : ∀ head ∈ (opened e).head?, head.sign = '#' ∧ head.keyword = keyword ∧
      (opened e).kind? = some head.kind := by
    cases hbegins with
    | ifBlock | eachBlock =>
      rintro head ⟨⟩
      exact ⟨rfl, rfl, rfl⟩
    | awaitBlock =>
      rintro head ⟨⟩
      exact ⟨rfl, rfl, kind?_firstSlot e⟩
    | keyBlock | snippetBlock => rintro head ⟨⟩
  have hbranch : ∀ k, (opened e).branch? k = none := by
    cases hbegins <;> intro k <;> cases k <;> rfl
  intro head hmem kind hkind
  obtain ⟨hsign, hword, hfirst⟩ := hhead head hmem
  cases hfirst.symm.trans hkind
  refine begun_first ⟨raw, ?_, ?_⟩ hslice hbranch (hbegins.fragments e)
  · rw [hword]
    exact hkeyed
  · rw [hsign, hword]

theorem Finds.written {found : Found} (hfinds : Finds c found c') (h : c.On cs) (hclean : c'.faults = []) :
    found.Written cs c.offset c'.offset := by
  cases hfinds with
  | comment | unclosedComment | tag | expression | text => exact Node.written_plain rfl (by simp [Node.fragments])
  | unclosed | unknown | noExpression => trivial
  | @block c₁ _ _ _ heat _ hword hbegins =>
    subst hword
    obtain ⟨raw, hkeyed, hrest, -⟩ := rest_of_keyed hclean
    have hread : c₁.Reaches c₁.word.2.braced.2 := (reaches_takeWhile c₁ _).trans (reaches_braced _)
    have hbehind := (h.reaches (reaches_eat? heat).1).slice?_read (t := c₁.word.1 ++ (raw ++ ['}'])) hread
      (by rw [hrest]; simp)
    have hkeyed : Keyed (String.ofList c₁.word.1).toList raw := by rwa [String.toList_ofList]
    refine ⟨rfl, hbegins.written hkeyed ?_ _⟩
    rw [slice?_append (h.slice?_eat? heat) hbehind, blockTag, String.toList_ofList]
    rfl
  | element _ _ hends => exact hends.written

/-- A node that is read without a fault, or what is open then, is written as it should. -/
theorem written_readNode (h : c.On cs) (hclean : (readNode c).2.faults = []) :
    (readNode c).1.Written cs c.offset (readNode c).2.offset := (finds_readNode c).written h hclean

end Reading

/-! ### The recursion -/

/-- What is known of the construct that a job is about: it is none that waits for an else-if block, and it is
written as it should. -/
def Job.Written (cs : List Char) (c : Cursor) : Job → Prop
  | .rest opened start => opened.isChain = false ∧ opened.Written cs start c.offset
  | .node | .fragment => True

def Job.head? : Job → Option Head
  | .rest opened _ => opened.head?
  | .node | .fragment => none

/-- A construct with no branches is done with its only fragment. -/
theorem leaving_of_plain {opened : Opened} {start : Nat} {content : Fragment} {c c' : Cursor} {left : Left}
    (h : opened.head? = none) (hleave : leaving opened start content c = (left, c')) :
    ∃ n, left = .done n ∧ n.head? = none ∧ n.fragments = [content] := by
  cases leaves_of_leaving hleave with
  | element => exact ⟨_, rfl, head?_elementNode .., fragments_elementNode ..⟩
  | key | snippet => exact ⟨_, rfl, rfl, rfl⟩
  | endEach hends | eachElse hends => cases hends <;> cases h
  | _ => cases h

/-- A branch that has ended without a fault, in the row with those before it, and what follows. -/
theorem Yields.written_leave {opened : Opened} {start : Nat} {c c₁ c₂ : Cursor} {ns : List Node} {left : Left}
    {head : Head} (h : Yields .fragment c ns c₁) (hcontent : ∀ n ∈ ns, n.Everywhere (Node.Written cs)) (hc : c.On cs)
    (hjob : (Job.rest opened start).Written cs c) (hhead : opened.head? = some head) (hclean : c₂.faults = [])
    (hleave : leaving opened start ⟨ns, c₁.spanFrom c.offset⟩ c₁ = (left, c₂)) : ∃ kind branches,
      Row cs head start c₁.offset (opened.keeping kind ⟨ns, c₁.spanFrom c.offset⟩)
        (opened.fragments ++ [⟨ns, c₁.spanFrom c.offset⟩]) branches ∧
      (∀ k f, opened.keeping kind ⟨ns, c₁.spanFrom c.offset⟩ k = some f → f.Written cs) ∧
      left.Follows cs head opened kind ⟨ns, c₁.spanFrom c.offset⟩ c₁ c₂ ∧ c.Reaches c₂ := by
  have hleaves := leaves_of_leaving hleave
  obtain ⟨hchain, hwritten⟩ := hjob
  obtain ⟨kind, hkind⟩ := hleaves.exists_kind? hhead hchain hclean
  have hbegun : opened.Begun cs head start (⟨ns, c₁.spanFrom c.offset⟩ : Fragment).span.start kind :=
    hwritten head hhead kind hkind
  obtain ⟨branches, hrow⟩ := hbegun.exists_row h.reaches.offset_le
  have hfollows := hleaves.follows (hc.reaches h.reaches) hhead hkind hclean
  have hwritten : (⟨ns, c₁.spanFrom c.offset⟩ : Fragment).Written cs := hcontent
  exact ⟨kind, branches, hrow, fun k f hf => hbegun.keeping hwritten hf, hfollows,
    h.reaches.trans hleaves.further.reaches⟩

/-- The nodes that a job gives without a fault are written as they should; what is left of a construct is a block
with the same beginning. -/
def JobWrites (cs : List Char) (job : Job) (c : Cursor) (ns : List Node) (c' : Cursor) : Prop :=
  c.On cs → job.Written cs c → c'.faults = [] →
    ∀ n ∈ ns, n.Everywhere (Node.Written cs) ∧ ∀ head ∈ job.head?, n.head? = some head

section JobWrites

variable {opened opened' : Opened} {start : Nat} {c c₁ c₂ c₃ : Cursor} {ns ms : List Node} {n : Node}

theorem JobWrites.leaf (hfound : (readNode c).1 = .node n) : JobWrites cs .node c [n] (readNode c).2 := by
  intro hc _ hclean
  have hnode := written_readNode hc hclean
  rw [hfound] at hnode
  exact List.forall_mem_singleton.2 ⟨hnode, fun head hhead => by cases hhead⟩

theorem JobWrites.begun {f : Frame} (hfound : (readNode c).1 = .opened f)
    (hrest : Yields (.rest f.opened f.start) (readNode c).2 ns c₁)
    (ih : JobWrites cs (.rest f.opened f.start) (readNode c).2 ns c₁) : JobWrites cs .node c ns c₁ := by
  intro hc _ hclean
  have hnode := written_readNode hc (hrest.reaches.clean hclean)
  rw [hfound] at hnode
  obtain ⟨hstart, hopened⟩ := hnode
  rw [← hstart] at hopened
  have hlast := ih (hc.reaches (reaches_readNode c)) ⟨(opens_readNode c f hfound).not_chain, hopened⟩ hclean
  exact fun n hn => ⟨(hlast n hn).1, fun head hhead => by cases hhead⟩

theorem JobWrites.more (hnode : Yields .node c ns c₁) (hmore : Yields .fragment c₁ ms c₂)
    (ih : JobWrites cs .node c ns c₁) (ih' : JobWrites cs .fragment c₁ ms c₂) :
    JobWrites cs .fragment c (ns ++ ms) c₂ := by
  intro hc _ hclean n hn
  rcases List.mem_append.1 hn with hn | hn
  · exact ih hc trivial (hmore.reaches.clean hclean) n hn
  · exact ih' (hc.reaches hnode.reaches) trivial hclean n hn

/-- The content of a construct whose fragment was read without a fault up to its end. -/
theorem JobWrites.content {left : Left} (hc : c.On cs) (hclean : c₂.faults = [])
    (hleave : leaving opened start ⟨ns, c₁.spanFrom c.offset⟩ c₁ = (left, c₂)) (ih : JobWrites cs .fragment c ns c₁) :
    ∀ m ∈ ns, m.Everywhere (Node.Written cs) :=
  fun m hm => (ih hc trivial ((further_of_leaving hleave).reaches.clean hclean) m hm).1

theorem JobWrites.done (hcontent : Yields .fragment c ns c₁)
    (hleave : leaving opened start ⟨ns, c₁.spanFrom c.offset⟩ c₁ = (.done n, c₂))
    (ih : JobWrites cs .fragment c ns c₁) : JobWrites cs (.rest opened start) c [n] c₂ := by
  intro hc hjob hclean
  have hnodes := ih.content hc hclean hleave
  refine List.forall_mem_singleton.2 ?_
  cases hhead : opened.head? with
  | none =>
    obtain ⟨n', heq, hplain, hfragments⟩ := leaving_of_plain hhead hleave
    cases heq
    refine ⟨Node.written_plain hplain ?_, fun head hmem => ?_⟩
    · rw [hfragments]
      exact List.forall_mem_singleton.2 hnodes
    · cases hhead.symm.trans hmem
  | some head =>
    obtain ⟨kind, branches, hrow, hbelow, hfollows, -⟩ := hcontent.written_leave hnodes hc hjob hhead hclean hleave
    have hspelled := hrow.done hfollows (leaves_of_leaving hleave).span
    refine ⟨Node.everywhere_written hfollows.1 hspelled fun k f hf => hbelow k f ?_, fun head' hmem => ?_⟩
    · rw [← hfollows.2.1]
      exact hf
    · cases hhead.symm.trans hmem
      exact hfollows.1

theorem JobWrites.next (hcontent : Yields .fragment c ns c₁)
    (hleave : leaving opened start ⟨ns, c₁.spanFrom c.offset⟩ c₁ = (.next opened', c₂))
    (hrest : Yields (.rest opened' start) c₂ ms c₃) (ih : JobWrites cs .fragment c ns c₁)
    (ih' : JobWrites cs (.rest opened' start) c₂ ms c₃) : JobWrites cs (.rest opened start) c ms c₃ := by
  intro hc hjob hclean
  have hclean₂ := hrest.reaches.clean hclean
  have hnodes := ih.content hc hclean₂ hleave
  have hchain := isChain_leaving hleave
  cases hhead : opened.head? with
  | none =>
    obtain ⟨n', heq, -⟩ := leaving_of_plain hhead hleave
    cases heq
  | some head =>
    obtain ⟨kind, branches, hrow, hbelow, hfollows, hreach⟩ :=
      hcontent.written_leave hnodes hc hjob hhead hclean₂ hleave
    have hopened := hrow.next hfollows hbelow
    intro n hn
    obtain ⟨hn, hlast⟩ := ih' (hc.reaches hreach) ⟨hchain, hopened⟩ hclean n hn
    refine ⟨hn, fun head' hmem => ?_⟩
    cases hhead.symm.trans hmem
    exact hlast head hfollows.1

theorem JobWrites.branch {elseif : Bool} {test test' : Expression} {consequent : Fragment}
    (hcontent : Yields .fragment c ns c₁)
    (hleave : leaving opened start ⟨ns, c₁.spanFrom c.offset⟩ c₁ = (.branch elseif test consequent test', c₂))
    (hrest : Yields (.rest (.consequent true test') c₁.offset) c₂ [n] c₃) (ih : JobWrites cs .fragment c ns c₁)
    (ih' : JobWrites cs (.rest (.consequent true test') c₁.offset) c₂ [n] c₃) : JobWrites cs (.rest opened start) c
      [(Reader.ifNode c₃ start elseif test consequent (some ⟨[n], n.span⟩)).1]
      (Reader.ifNode c₃ start elseif test consequent (some ⟨[n], n.span⟩)).2 := by
  intro hc hjob hclean
  have hlast : c₃.Reaches (Reader.ifNode c₃ start elseif test consequent (some ⟨[n], n.span⟩)).2 :=
    Reader.reaches_ifNode ..
  have hclean₃ := hlast.clean hclean
  have hclean₂ := hrest.reaches.clean hclean₃
  have hnodes := ih.content hc hclean₂ hleave
  cases hhead : opened.head? with
  | none =>
    obtain ⟨n', heq, -⟩ := leaving_of_plain hhead hleave
    cases heq
  | some head =>
    obtain ⟨kind, branches, hrow, hbelow, ⟨rfl, rfl, rfl, tag, htag, hslice⟩, hreach⟩ :=
      hcontent.written_leave hnodes hc hjob hhead hclean₂ hleave
    cases hhead
    -- the else-if block begins with the tag that goes on to it
    have hopened : (Opened.consequent true test').Written cs c₁.offset c₂.offset := by
      rintro head ⟨⟩ kind ⟨⟩
      exact begun_first htag hslice (fun k => by cases k <;> rfl) rfl
    obtain ⟨⟨hn, hnhead⟩, -⟩ := List.forall_mem_cons.1 (ih' (hc.reaches hreach) ⟨rfl, hopened⟩ hclean₃)
    have hon := hc.reaches (hreach.trans hrest.reaches)
    have hspelled := hrow.branch hon (hc.reaches hcontent.reaches).isBoundary
      ((further_of_leaving hleave).reaches.trans hrest.reaches).offset_le (isBranch_of_head? (hnhead _ rfl)) hrest.span
      hclean
    refine List.forall_mem_singleton.2 ⟨Node.everywhere_written rfl hspelled fun k f hf => ?_, fun head hmem => hmem⟩
    cases k with
    | first => exact hbelow .first f hf
    | otherwise =>
      cases hf
      exact List.forall_mem_singleton.2 hn
    | _ => cases hf

end JobWrites

theorem Yields.written {job : Job} {c c' : Cursor} {ns : List Node} (h : Yields job c ns c') :
    JobWrites cs job c ns c' := by
  induction h with
  | leaf hfound => exact JobWrites.leaf hfound
  | nothing => exact fun _ _ _ => List.forall_mem_nil _
  | opened hfound hrest ih => exact JobWrites.begun hfound hrest ih
  | ends => exact fun _ _ _ => List.forall_mem_nil _
  | more _ hnode hmore ih ih' => exact JobWrites.more hnode hmore ih ih'
  | done hcontent hleave ih => exact JobWrites.done hcontent hleave ih
  | next hcontent hleave hrest ih ih' => exact JobWrites.next hcontent hleave hrest ih ih'
  | branch hcontent hleave hrest ih ih' => exact JobWrites.branch hcontent hleave hrest ih ih'

/-! ### Documents -/

/-- The nodes that have been read are written as they should, if there was no fault in them. -/
structure Reader.Writes (cs : List Char) (r : Reader) : Prop where
  on : r.cursor.On cs
  nodes : r.cursor.faults = [] → ∀ n ∈ r.nodes, n.Everywhere (Node.Written cs)

theorem Reader.Writes.advances {r r' : Reader} (h : r.Writes cs) (hstep : Reader.Advances r r') : r'.Writes cs := by
  refine ⟨h.on.reaches hstep.leads.reaches, fun hclean => ?_⟩
  cases hstep with
  | node hframes hrest hreads hnode =>
    intro n hn
    rcases List.mem_append.1 hn with hn | hn
    · exact (hnode.written h.on trivial hclean n (List.mem_reverse.1 hn)).1
    · exact h.nodes (hnode.reaches.clean hclean) n hn
  | other hframes hrest hreads =>
    rw [Reader.nodes_readTop hframes hreads]
    exact h.nodes ((Reader.reaches_readTop r).clean hclean)

theorem written_read {source : String} (h : (read source).faults = []) :
    ∀ n ∈ (read source).document.fragment.nodes, n.Everywhere (Node.Written source.toList) := by
  have hclean : (Reader.ofText source).run.cursor.faults = [] := List.reverse_eq_nil_iff.1 h
  have hrun : (Reader.ofText source).run.Writes source.toList :=
    Reader.run_induction rfl ⟨on_ofText _, by simp [Reader.ofText]⟩ fun r r' hr hstep => hr.advances hstep
  exact fun n hn => hrun.nodes hclean n (List.mem_reverse.1 hn)

/-- In a text without faults every if, each and await block is the tags of its branches with the branches between
them; and all branches are in the tree if and only if no two of them are of one kind. -/
theorem exists_branches_read (source : String) (h : (read source).faults = []) :
    ∀ n ∈ subnodes (read source).document.fragment.nodes, ∀ head ∈ n.head?, ∃ branches,
      n.Spelled source.toList head branches ∧
        (n.fragments.Perm (branches.map Branch.content) ↔ (branches.map Branch.kind).Nodup) := by
  intro n hn head hhead
  obtain ⟨branches, hspelled⟩ := forall_subnodes (written_read h) n hn head hhead
  exact ⟨branches, hspelled, hspelled.fragments_perm_iff hhead⟩

/-- A page with an each block that has two fallbacks. -/
def twiceElse : String :=
  "\x7b#each a as b\x7dx\x7b:else\x7d<div stylex=\x7bp\x7d/>\x7b:else\x7dy\x7b/each\x7d"

/-- The second fallback takes the place of the first one: no fault is found, but more than a tag stands between the
fragments of the block, and the element there is not among those of the page. -/
theorem fallback_lost_twiceElse : (read twiceElse).faults = [] ∧
    ((read twiceElse).document.fragment.nodes.map fun n => n.fragments.map Fragment.span) =
      [[⟨14, 15⟩, ⟨46, 47⟩]] ∧
    (∃ between, Text.slice? twiceElse.toList 15 46 = some between ∧ '<' ∈ between ∧
      ∀ keyword, ¬IsTag ':' keyword between) ∧
    (read twiceElse).document.fragment.elements.length = 0 := by
  refine ⟨by decide +kernel, by decide +kernel,
    ⟨"\x7b:else\x7d<div stylex=\x7bp\x7d/>\x7b:else\x7d".toList, by decide +kernel, by decide +kernel, fun keyword h => ?_⟩,
    by decide +kernel⟩
  have hclosed := h.closed
  revert hclosed
  show ¬Embedded.split? _ = _
  decide +kernel

/-- A page with all branches of an await block, the last one first, and an else-if block in one of them. -/
def awaitedPage : String :=
  "\x7b#await a\x7db\x7b:catch c\x7d\x7b#if d\x7de\x7b:else if f\x7dg\x7b:else\x7dh\x7b/if\x7d\x7b:then i\x7dj\x7b/await\x7d"

theorem exists_branches_awaitedPage : (read awaitedPage).faults = [] ∧
    ∀ n ∈ subnodes (read awaitedPage).document.fragment.nodes, ∀ head ∈ n.head?, ∃ branches,
      n.Spelled awaitedPage.toList head branches ∧
        (n.fragments.Perm (branches.map Branch.content) ↔ (branches.map Branch.kind).Nodup) := by
  have h : (read awaitedPage).faults = [] := by decide +kernel
  exact ⟨h, exists_branches_read awaitedPage h⟩

end Restyle.Markup
