import Restyle.Markup.Nodes
import Restyle.Markup.Scripts

/-! Reading a markup document. The reader is a machine with a stack of frames, one for each construct
that is open. A step reads one node, opens a frame, goes on to the next branch of a block, or leaves
the innermost frame. A step that leaves the text where it is leaves a frame, so the text and the
stack together get smaller, and every text has a document. What is wrong with the text is recorded
and reading goes on. -/

namespace Restyle.Markup

open Text

/-- The state of the machine. -/
structure Reader where
  cursor : Cursor
  /-- Innermost first. -/
  frames : List Frame := []
  /-- The nodes of the document itself, newest first. -/
  nodes : List Node := []
  moduleScript : Option Script := none
  instanceScript : Option Script := none
  style : Option Style := none

namespace Reader

/-! ### Leaving frames -/

/-- The node of an if block that has been read up to its closing tag. An else-if block has none of its
own. -/
def ifNode (c : Cursor) (start : Nat) (elseif : Bool) (test : Expression) (consequent : Fragment)
    (alternate : Option Fragment) : Node × Cursor :=
  let c' := if elseif then c else c.closeBlock "if" start
  (.ifBlock (c'.spanFrom start) elseif test consequent alternate, c')

/-- Adds a node to the innermost of the given frames, or to the document. An else-if block completes
the block whose last branch it is. -/
def deliver (r : Reader) (node : Node) : List Frame → Reader
  | [] => { r with nodes := node :: r.nodes, frames := [] }
  | f :: frames =>
    match f.opened with
    | .chain elseif test consequent =>
      let block := ifNode r.cursor f.start elseif test consequent (some ⟨[node], node.span⟩)
      deliver { r with cursor := block.2 } block.1 frames
    | _ => { r with frames := { f with nodes := node :: f.nodes } :: frames }

/-- Replaces the innermost frame by the next branch of its block. -/
def continueWith (r : Reader) (f : Frame) (opened : Opened) (c : Cursor) (frames : List Frame) :
    Reader :=
  { r with cursor := c, frames := ⟨opened, f.start, c.offset, []⟩ :: frames }

/-- Leaves the innermost frame with its node. -/
def leaveWith (r : Reader) (node : Node) (c : Cursor) (frames : List Frame) : Reader :=
  deliver { r with cursor := c } node frames

/-- The test of an else-if branch, by the text after `else`. -/
def elseIfTest? (rest : Expression) : Option Expression :=
  match strip? ['i', 'f'] rest.text.toList with
  | some (c :: cs) => if isSpace c then some (.ofRaw (rest.span.start + 2) (c :: cs)) else none
  | _ => none

/-- The first branch of an if block has ended. -/
def leaveConsequent (r : Reader) (f : Frame) (elseif : Bool) (test : Expression)
    (frames : List Frame) : Reader :=
  let consequent := f.fragment r.cursor.offset
  let next := r.cursor.continuation?
  match next.1 with
  | none =>
    let block := ifNode next.2 f.start elseif test consequent none
    r.leaveWith block.1 block.2 frames
  | some (keyword, rest) =>
    match if keyword = "else" then elseIfTest? rest else none with
    | some test' =>
      let parent : Frame := ⟨.chain elseif test consequent, f.start, r.cursor.offset, []⟩
      let branch : Frame := ⟨.consequent true test', r.cursor.offset, next.2.offset, []⟩
      { r with cursor := next.2, frames := branch :: parent :: frames }
    | none =>
      let c := if keyword = "else" && rest.text = "" then next.2
        else next.2.unexpectedContinuation "if" keyword rest.span
      r.continueWith f (.alternate elseif test consequent) c frames

/-- A branch of an each block has ended. -/
def leaveEach (r : Reader) (f : Frame) (header : Expression) (body : Fragment)
    (fallback : Option Fragment) (frames : List Frame) : Reader :=
  let next := r.cursor.continuation?
  match next.1 with
  | some (keyword, rest) =>
    let c := if keyword = "else" && rest.text = "" then next.2
      else next.2.unexpectedContinuation "each" keyword rest.span
    r.continueWith f (.eachFallback header body) c frames
  | none =>
    let c := next.2.closeBlock "each" f.start
    r.leaveWith (.eachBlock (c.spanFrom f.start) header body fallback) c frames

/-- The slot of an await block that a continuation begins. -/
def awaitSlot (keyword : String) (span : Span) : AwaitSlot :=
  match keyword with
  | "then" => .resolved
  | "catch" => .failed
  | other => .unknown other span

/-- The branches with one more, unless an await block has no such branch. -/
def storeBranch (branches : AwaitBranches) (c : Cursor) (body : Fragment) :
    AwaitSlot → AwaitBranches × Cursor
  | .pending => ({ branches with pending := some body }, c)
  | .resolved => ({ branches with resolved := some body }, c)
  | .failed => ({ branches with failed := some body }, c)
  | .unknown keyword span => (branches, c.unexpectedContinuation "await" keyword span)

/-- A branch of an await block has ended. -/
def leaveAwait (r : Reader) (f : Frame) (header : Expression) (branches : AwaitBranches)
    (slot : AwaitSlot) (frames : List Frame) : Reader :=
  let stored := storeBranch branches r.cursor (f.fragment r.cursor.offset) slot
  let next := stored.2.continuation?
  match next.1 with
  | some (keyword, rest) =>
    r.continueWith f (.awaitBranch header stored.1 (awaitSlot keyword rest.span)) next.2 frames
  | none =>
    let c := next.2.closeBlock "await" f.start
    r.leaveWith (.awaitBlock (c.spanFrom f.start) header stored.1.pending stored.1.resolved
      stored.1.failed) c frames

/-- The fragment of the innermost frame has ended. -/
def leave (r : Reader) (f : Frame) (frames : List Frame) : Reader :=
  let content := f.fragment r.cursor.offset
  match f.opened with
  | .element name attributes =>
    let c := r.cursor.closeTag name f.start
    let node := elementNode c f.start name attributes content false
    r.leaveWith node.1 node.2 frames
  | .consequent elseif test => r.leaveConsequent f elseif test frames
  | .alternate elseif test consequent =>
    let block := ifNode r.cursor f.start elseif test consequent (some content)
    r.leaveWith block.1 block.2 frames
  | .chain elseif test consequent =>
    let block := ifNode r.cursor f.start elseif test consequent none
    r.leaveWith block.1 block.2 frames
  | .eachBody header => r.leaveEach f header content none frames
  | .eachFallback header body => r.leaveEach f header body (some content) frames
  | .awaitBranch header branches slot => r.leaveAwait f header branches slot frames
  | .key value =>
    let c := r.cursor.closeBlock "key" f.start
    r.leaveWith (.keyBlock (c.spanFrom f.start) value content) c frames
  | .snippet name parameters =>
    let c := r.cursor.closeBlock "snippet" f.start
    r.leaveWith (.snippetBlock (c.spanFrom f.start) name parameters content) c frames

/-! ### Reading on -/

/-- One node, added to the innermost frame. -/
def readNode (r : Reader) : Reader :=
  let found := Markup.readNode r.cursor
  match found.1 with
  | .node n => deliver { r with cursor := found.2 } n r.frames
  | .nothing => { r with cursor := found.2 }
  | .opened f => { r with cursor := found.2, frames := f :: r.frames }

/-- A script or style of the document. Only the first of each kind is kept. -/
def readScript (r : Reader) : Reader :=
  let block := r.cursor.rawBlock "script".toList
  let script := block.script r.cursor.offset
  let duplicate (what : String) : Reader :=
    { r with cursor := block.cursor.fault (.duplicate what) script.span }
  match script.context with
  | .perModule =>
    if r.moduleScript.isSome then duplicate "module script"
    else { r with cursor := block.cursor, moduleScript := some script }
  | .perInstance =>
    if r.instanceScript.isSome then duplicate "instance script"
    else { r with cursor := block.cursor, instanceScript := some script }

def readStyle (r : Reader) : Reader :=
  let block := r.cursor.rawBlock "style".toList
  let style := block.style r.cursor.offset
  if r.style.isSome then
    { r with cursor := block.cursor.fault (.duplicate "top-level style") style.span }
  else { r with cursor := block.cursor, style := some style }

/-- A closing tag that closes nothing. -/
def skipClosingTag (r : Reader) : Reader :=
  let name := (r.cursor.rest.drop 2).takeWhile (!endsTagName ·)
  let c := (r.cursor.skipStray '>').2
  { r with cursor := c.fault (.unexpectedClosingTag (String.ofList name)) (c.spanFrom r.cursor.offset) }

/-- A tag of a block that is not open. -/
def skipBlockTag (r : Reader) : Reader :=
  let stray := r.cursor.skipStray '}'
  let reason := "unexpected `" ++ String.ofList stray.1 ++ "` outside of a block"
  { r with cursor := stray.2.fault (.invalidBlock reason) (stray.2.spanFrom r.cursor.offset) }

/-- One step at the top of the document. -/
def readTop (r : Reader) : Reader :=
  let c := r.cursor
  if c.atTag "script".toList then r.readScript
  else if c.atTag "style".toList then r.readStyle
  else if c.startsWith ['<', '/'] then r.skipClosingTag
  else if c.startsWith ['{', ':'] || c.startsWith ['{', '/'] then r.skipBlockTag
  else r.readNode

def step (r : Reader) : Reader :=
  match r.frames with
  | [] => r.readTop
  | f :: frames => if r.cursor.endsFragment then r.leave f frames else r.readNode

/-- The text is read and nothing is open. -/
def isDone (r : Reader) : Bool := r.frames.isEmpty && r.cursor.atEnd

/-- What gets smaller with every step. -/
def size (r : Reader) : Nat := 2 * r.cursor.rest.length + r.frames.length

/-! ### Progress -/

open Cursor

theorem reaches_ifNode (c : Cursor) (start : Nat) (elseif : Bool) (test : Expression)
    (consequent : Fragment) (alternate : Option Fragment) :
    c.Reaches (ifNode c start elseif test consequent alternate).2 := by
  unfold ifNode
  cases elseif
  · exact reaches_closeBlock c "if" start
  · exact .refl c

theorem size_deliver_le (r : Reader) (node : Node) (frames : List Frame) :
    (r.deliver node frames).size ≤ 2 * r.cursor.rest.length + frames.length := by
  induction frames generalizing r node with
  | nil => simp [deliver, size]
  | cons f frames ih =>
    unfold deliver
    split
    · next elseif test consequent _ =>
      refine Nat.le_trans (ih _ _) ?_
      have := (reaches_ifNode r.cursor f.start elseif test consequent
        (some ⟨[node], node.span⟩)).length_le
      simp only [List.length_cons]
      omega
    · simp [size]

theorem size_leaveWith_le {r : Reader} {node : Node} {c : Cursor} {frames : List Frame}
    (h : r.cursor.Reaches c) :
    (r.leaveWith node c frames).size ≤ 2 * r.cursor.rest.length + frames.length := by
  have := h.length_le
  exact Nat.le_trans (size_deliver_le { r with cursor := c } node frames)
    (Nat.add_le_add_right (Nat.mul_le_mul_left 2 this) _)

theorem size_continueWith_lt {r : Reader} {f : Frame} {opened : Opened} {c : Cursor}
    {frames : List Frame} (h : c.rest.length + 2 ≤ r.cursor.rest.length) :
    (r.continueWith f opened c frames).size ≤ 2 * r.cursor.rest.length + frames.length := by
  simp only [continueWith, size, List.length_cons]
  omega

theorem size_leaveConsequent_le (r : Reader) (f : Frame) (elseif : Bool) (test : Expression)
    (frames : List Frame) :
    (r.leaveConsequent f elseif test frames).size ≤ 2 * r.cursor.rest.length + frames.length := by
  unfold leaveConsequent
  dsimp only
  split
  · exact size_leaveWith_le ((reaches_continuation? _).trans (reaches_ifNode ..))
  · next h =>
    have := length_continuation? h
    split
    · simp only [size, List.length_cons]
      omega
    · refine size_continueWith_lt ?_
      split
      · exact this
      · exact this

theorem size_leaveEach_le (r : Reader) (f : Frame) (header : Expression) (body : Fragment)
    (fallback : Option Fragment) (frames : List Frame) :
    (r.leaveEach f header body fallback frames).size
      ≤ 2 * r.cursor.rest.length + frames.length := by
  unfold leaveEach
  dsimp only
  split
  · next h =>
    have := length_continuation? h
    refine size_continueWith_lt ?_
    split
    · exact this
    · exact this
  · exact size_leaveWith_le ((reaches_continuation? _).trans (reaches_closeBlock ..))

theorem reaches_storeBranch (branches : AwaitBranches) (c : Cursor) (body : Fragment)
    (slot : AwaitSlot) : c.Reaches (storeBranch branches c body slot).2 := by
  cases slot with
  | unknown keyword span => exact reaches_fault (.refl c)
  | _ => exact .refl c

theorem size_leaveAwait_le (r : Reader) (f : Frame) (header : Expression)
    (branches : AwaitBranches) (slot : AwaitSlot) (frames : List Frame) :
    (r.leaveAwait f header branches slot frames).size
      ≤ 2 * r.cursor.rest.length + frames.length := by
  have stored := reaches_storeBranch branches r.cursor (f.fragment r.cursor.offset) slot
  unfold leaveAwait
  dsimp only
  split
  · next h =>
    have := length_continuation? h
    have := stored.length_le
    exact size_continueWith_lt (by omega)
  · exact size_leaveWith_le
      (stored.trans ((reaches_continuation? _).trans (reaches_closeBlock ..)))

/-- Leaving a frame or going on to the next branch of its block makes the state smaller. -/
theorem size_leave_le (r : Reader) (f : Frame) (frames : List Frame) :
    (r.leave f frames).size ≤ 2 * r.cursor.rest.length + frames.length := by
  unfold leave
  dsimp only
  split
  · exact size_leaveWith_le ((reaches_closeTag ..).trans (reaches_elementNode ..))
  · exact size_leaveConsequent_le ..
  · exact size_leaveWith_le (reaches_ifNode ..)
  · exact size_leaveWith_le (reaches_ifNode ..)
  · exact size_leaveEach_le ..
  · exact size_leaveEach_le ..
  · exact size_leaveAwait_le ..
  · exact size_leaveWith_le (reaches_closeBlock ..)
  · exact size_leaveWith_le (reaches_closeBlock ..)

theorem size_readNode_lt {r : Reader} (h : r.cursor.rest ≠ []) : r.readNode.size < r.size := by
  have shorter := length_readNode h
  unfold readNode
  dsimp only
  split
  · next n _ =>
    have := size_deliver_le { r with cursor := (Markup.readNode r.cursor).2 } n r.frames
    simp only [size] at *
    omega
  · simp only [size]
    omega
  · simp only [size, List.length_cons]
    omega

theorem length_of_atTag {c : Cursor} {name : List Char} (h : c.atTag name = true) {r : Cursor}
    (hr : (c.moved (c.rest.take (name.length + 1)) (c.rest.drop (name.length + 1))).Reaches r) :
    r.rest.length < c.rest.length := by
  have shorter := hr.length_le
  unfold atTag at h
  have : ∀ rest, strip? ('<' :: name) c.rest = some rest → 0 < c.rest.length := by
    intro rest hs
    simp [strip?_eq_some_iff.1 hs]
  have : 0 < c.rest.length := by
    split at h
    · exact this _ ‹_›
    · exact this _ ‹_›
    · cases h
  simp only [rest_moved, List.length_drop] at shorter
  omega

theorem size_readTop_lt {r : Reader} (h : r.cursor.rest ≠ []) : r.readTop.size < r.size := by
  have of_cursor : ∀ r' : Reader, r'.frames = r.frames →
      r'.cursor.rest.length < r.cursor.rest.length → r'.size < r.size := by
    intro r' hf hc
    simp only [size, hf]
    omega
  unfold readTop
  dsimp only
  split
  · next htag =>
    have := length_of_atTag htag (reaches_rawBlock ..)
    unfold readScript
    dsimp only
    split <;> split <;> exact of_cursor _ rfl this
  · split
    · next htag =>
      have := length_of_atTag htag (reaches_rawBlock ..)
      unfold readStyle
      dsimp only
      split <;> exact of_cursor _ rfl this
    · split
      · exact of_cursor _ rfl (length_skipStray h)
      · split
        · exact of_cursor _ rfl (length_skipStray h)
        · exact size_readNode_lt h

/-- Every step before the end makes the state smaller. -/
theorem size_step_lt {r : Reader} (h : r.isDone = false) : r.step.size < r.size := by
  unfold step
  split
  · next hf =>
    apply size_readTop_lt
    intro hc
    simp [isDone, hf, atEnd, hc] at h
  · next f frames hf =>
    split
    · have := size_leave_le r f frames
      simp only [size, hf, List.length_cons] at *
      omega
    · next hend =>
      apply size_readNode_lt
      intro hc
      exact hend (by simp [endsFragment, atEnd, hc])

/-- All steps to the end. -/
def run (r : Reader) : Reader := if _h : r.isDone then r else r.step.run
termination_by r.size
decreasing_by exact size_step_lt (by simpa using _h)

end Reader

/-- A document and what is wrong with it, in the order in which it was found. -/
structure Reading where
  document : Document
  faults : List Fault

/-- Reads a document from a text. -/
def read (text : String) : Reading :=
  let r := ({ cursor := .ofText text.toList } : Reader).run
  let span : Span := ⟨0, width text.toList⟩
  ⟨⟨r.moduleScript, r.instanceScript, r.style, ⟨r.nodes.reverse, span⟩, span⟩,
    r.cursor.faults.reverse⟩

end Restyle.Markup
