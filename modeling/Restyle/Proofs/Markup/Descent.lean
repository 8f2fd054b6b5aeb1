import Restyle.Proofs.Markup.Document

/-! Reading told by recursion. The reader keeps its open constructs in frames; here the same reading is told
from the constructs themselves: a node is read by reading what its opening begins, a fragment by reading
one node after the other, and the rest of a construct by reading a fragment and then the tag that ends it
or goes on to its next branch. Each of these can be read from every cursor, and the reader does what they
say, so what is true of the recursion is true of the document. -/

namespace Restyle.Markup

open Text Cursor

/-! ### The recursion -/

/-- What is to be read. -/
inductive Job where
  | node
  | fragment
  /-- What is left of a construct that starts at an offset, from the beginning of a fragment of it on. -/
  | rest (opened : Opened) (start : Nat)

/-- A job that is begun at a cursor gives nodes and ends at another cursor. -/
inductive Yields : Job → Cursor → List Node → Cursor → Prop where
  | leaf {c : Cursor} {n : Node} :
    (readNode c).1 = .node n → Yields .node c [n] (readNode c).2
  | nothing {c : Cursor} : (readNode c).1 = .nothing → Yields .node c [] (readNode c).2
  | opened {c c' : Cursor} {f : Frame} {ns : List Node} :
    (readNode c).1 = .opened f → Yields (.rest f.opened f.start) (readNode c).2 ns c' → Yields .node c ns c'
  | ends {c : Cursor} : c.endsFragment = true → Yields .fragment c [] c
  | more {c c₁ c₂ : Cursor} {ns ms : List Node} :
    c.endsFragment = false → Yields .node c ns c₁ → Yields .fragment c₁ ms c₂ → Yields .fragment c (ns ++ ms) c₂
  | done {opened : Opened} {start : Nat} {c c₁ c₂ : Cursor} {ns : List Node} {n : Node} :
    Yields .fragment c ns c₁ → leaving opened start ⟨ns, c₁.spanFrom c.offset⟩ c₁ = (.done n, c₂) →
    Yields (.rest opened start) c [n] c₂
  | next {opened opened' : Opened} {start : Nat} {c c₁ c₂ c₃ : Cursor} {ns ms : List Node} :
    Yields .fragment c ns c₁ → leaving opened start ⟨ns, c₁.spanFrom c.offset⟩ c₁ = (.next opened', c₂) →
    Yields (.rest opened' start) c₂ ms c₃ → Yields (.rest opened start) c ms c₃
  | branch {opened : Opened} {start : Nat} {c c₁ c₂ c₃ : Cursor} {ns : List Node} {n : Node} {elseif : Bool}
      {test test' : Expression} {consequent : Fragment} :
    Yields .fragment c ns c₁ →
    leaving opened start ⟨ns, c₁.spanFrom c.offset⟩ c₁ = (.branch elseif test consequent test', c₂) →
    Yields (.rest (.consequent true test') c₁.offset) c₂ [n] c₃ →
    Yields (.rest opened start) c
      [(Reader.ifNode c₃ start elseif test consequent (some ⟨[n], n.span⟩)).1]
      (Reader.ifNode c₃ start elseif test consequent (some ⟨[n], n.span⟩)).2

namespace Yields

variable {job : Job} {opened : Opened} {start : Nat} {c c' : Cursor} {ns : List Node}

/-- A job only reads on. -/
theorem reaches (h : Yields job c ns c') : c.Reaches c' := by
  induction h with
  | leaf _ => exact reaches_readNode _
  | nothing _ => exact reaches_readNode _
  | opened _ _ ih => exact (reaches_readNode _).trans ih
  | ends _ => exact .refl _
  | more _ _ _ ih ih' => exact ih.trans ih'
  | done _ hleave ih => exact ih.trans (further_of_leaving hleave).reaches
  | next _ hleave _ ih ih' => exact (ih.trans (further_of_leaving hleave).reaches).trans ih'
  | branch _ hleave _ ih ih' =>
    exact ((ih.trans (further_of_leaving hleave).reaches).trans ih').trans (Reader.reaches_ifNode ..)

/-- A fragment ends at a tag that ends it, or at the end of the text. -/
theorem endsFragment (h : Yields .fragment c ns c') : c'.endsFragment = true := by
  generalize hjob : Job.fragment = job at h
  induction h with
  | ends hends => exact hends
  | more _ _ _ _ ih' => exact ih' hjob
  | _ => cases hjob

/-- What is left of a construct is one node. -/
theorem eq_singleton (h : Yields (.rest opened start) c ns c') : ∃ n, ns = [n] := by
  generalize hjob : Job.rest opened start = job at h
  induction h generalizing opened start with
  | done _ _ => exact ⟨_, rfl⟩
  | next _ _ _ _ ih' => exact ih' rfl
  | branch _ _ _ => exact ⟨_, rfl⟩
  | _ => cases hjob

end Yields

/-! ### Every job can be done -/

/-- The order of the jobs that begin at one cursor. -/
def Job.weight : Job → Nat
  | node => 0
  | fragment => 1
  | rest .. => 2

theorem Cursor.rest_ne_nil {c : Cursor} (h : c.endsFragment = false) : c.rest ≠ [] := by
  intro hnil
  simp [Cursor.endsFragment, atEnd, hnil] at h

theorem Yields.length_lt {c c' : Cursor} {ns : List Node} (h : Yields .node c ns c') (hc : c.rest ≠ []) :
    c'.rest.length < c.rest.length := by
  have hnode := length_readNode hc
  generalize hjob : Job.node = job at h
  cases h with
  | leaf _ => exact hnode
  | nothing _ => exact hnode
  | opened _ hrest => exact Nat.lt_of_le_of_lt hrest.reaches.length_le hnode
  | _ => cases hjob

theorem exists_yields (job : Job) (c : Cursor) (h : job = .node → c.rest ≠ []) : ∃ ns c', Yields job c ns c' := by
  induction hk : 3 * c.rest.length + job.weight using Nat.strongRecOn generalizing job c with
  | ind k ih =>
  cases job with
  | node =>
    have hnode := length_readNode (h rfl)
    cases hfound : (readNode c).1 with
    | node n => exact ⟨_, _, .leaf hfound⟩
    | nothing => exact ⟨_, _, .nothing hfound⟩
    | opened f =>
      obtain ⟨ns, c', hrest⟩ := ih _ (by simp only [Job.weight] at hk ⊢; omega) (.rest f.opened f.start)
        (readNode c).2 (by rintro ⟨⟩) rfl
      exact ⟨_, _, .opened hfound hrest⟩
  | fragment =>
    cases hends : c.endsFragment with
    | true => exact ⟨_, _, .ends hends⟩
    | false =>
      have hc := rest_ne_nil hends
      obtain ⟨ns, c₁, hnode⟩ := ih _ (by simp only [Job.weight] at hk ⊢; omega) .node c (fun _ => hc) rfl
      have hlt := hnode.length_lt hc
      obtain ⟨ms, c₂, hmore⟩ := ih _ (by simp only [Job.weight] at hk ⊢; omega) .fragment c₁ (by rintro ⟨⟩) rfl
      exact ⟨_, _, .more hends hnode hmore⟩
  | rest opened start =>
    obtain ⟨ns, c₁, hcontent⟩ := ih _ (by simp only [Job.weight] at hk ⊢; omega) .fragment c (by rintro ⟨⟩) rfl
    have hle := hcontent.reaches.length_le
    rcases hleave : leaving opened start ⟨ns, c₁.spanFrom c.offset⟩ c₁ with ⟨left, c₂⟩
    have hfurther := further_of_leaving hleave
    cases left with
    | done n => exact ⟨_, _, .done hcontent hleave⟩
    | next opened' =>
      have hlt : c₂.rest.length < c₁.rest.length := hfurther.shorter (by simp)
      obtain ⟨ms, c₃, hrest⟩ := ih _ (by simp only [Job.weight] at hk ⊢; omega) (.rest opened' start) c₂
        (by rintro ⟨⟩) rfl
      exact ⟨_, _, .next hcontent hleave hrest⟩
    | branch elseif test consequent test' =>
      have hlt : c₂.rest.length < c₁.rest.length := hfurther.shorter (by simp)
      obtain ⟨ms, c₃, hrest⟩ := ih _ (by simp only [Job.weight] at hk ⊢; omega)
        (.rest (.consequent true test') c₁.offset) c₂ (by rintro ⟨⟩) rfl
      obtain ⟨n, rfl⟩ := hrest.eq_singleton
      exact ⟨_, _, .branch hcontent hleave hrest⟩

/-! ### The reader does the jobs -/

/-- The else-if block of an if block is being read, in a frame of its own. -/
def Opened.isChain : Opened → Bool
  | .chain .. => true
  | _ => false

theorem Opened.ne_chain {opened : Opened} (h : opened.isChain = false) (elseif : Bool) (test : Expression)
    (consequent : Fragment) : opened ≠ .chain elseif test consequent := by
  rintro rfl
  cases h

/-- A frame that begins at a cursor and has no nodes yet. -/
structure Frame.Fresh (start : Nat) (c : Cursor) (f : Frame) : Prop where
  eq : f = ⟨f.opened, start, c.offset, []⟩
  not_chain : f.opened.isChain = false

/-- A construct that is found open at an offset has just been opened there. -/
def Opens (start : Nat) (found : Found × Cursor) : Prop := ∀ f, found.1 = .opened f → f.Fresh start found.2

theorem Finds.fresh {c c' : Cursor} {f : Frame} (h : Finds c (.opened f) c') : f.Fresh c.offset c' := by
  cases h with
  | block _ _ _ hbegins =>
    refine ⟨rfl, ?_⟩
    cases hbegins <;> rfl
  | element _ _ hends =>
    cases hends
    exact ⟨rfl, rfl⟩

theorem opens_readNode (c : Cursor) : Opens c.offset (readNode c) := by
  intro f hfound
  have hfinds := finds_readNode c
  rw [hfound] at hfinds
  exact hfinds.fresh

theorem isChain_leaving {opened opened' : Opened} {start : Nat} {content : Fragment} {c c' : Cursor}
    (h : leaving opened start content c = (.next opened', c')) : opened'.isChain = false := by
  cases leaves_of_leaving h <;> rfl

namespace Reader

variable {r r' : Reader} {f : Frame} {frames : List Frame} {n : Node} {ns ms : List Node} {c c' : Cursor}

/-- The reader at another cursor, with more nodes in the fragment that is being read. -/
def collect (r : Reader) (ns : List Node) (c : Cursor) : Reader :=
  match r.frames with
  | [] => { r with cursor := c, nodes := ns.reverse ++ r.nodes }
  | f :: frames => { r with cursor := c, frames := { f with nodes := ns.reverse ++ f.nodes } :: frames }

theorem collect_of_nil (h : r.frames = []) :
    r.collect ns c = { r with cursor := c, nodes := ns.reverse ++ r.nodes } := by
  rw [collect, h]

theorem collect_of_cons (h : r.frames = f :: frames) :
    r.collect ns c = { r with cursor := c, frames := { f with nodes := ns.reverse ++ f.nodes } :: frames } := by
  rw [collect, h]

@[simp] theorem cursor_collect : (r.collect ns c).cursor = c := by
  unfold collect
  split <;> rfl

theorem collect_nothing : r.collect [] c = { r with cursor := c } := by
  cases h : r.frames with
  | nil => simp [collect_of_nil h, h]
  | cons f frames => simp [collect_of_cons h]

theorem collect_collect : (r.collect ns c).collect ms c' = r.collect (ns ++ ms) c' := by
  cases h : r.frames with
  | nil =>
    rw [collect_of_nil h, collect_of_nil (by exact h), collect_of_nil h]
    simp
  | cons f frames =>
    rw [collect_of_cons h, collect_of_cons rfl, collect_of_cons h]
    simp

theorem collect_ne_nil (h : r.frames ≠ []) : (r.collect ns c).frames ≠ [] := by
  obtain ⟨f, frames, hframes⟩ := List.exists_cons_of_ne_nil h
  rw [collect_of_cons hframes]
  simp

/-- The construct that is being read, if there is one, takes nodes. -/
def Open (r : Reader) : Prop := ∀ f ∈ r.frames.head?, f.opened.isChain = false

theorem Open.collect (h : r.Open) : (r.collect ns c).Open := by
  intro f hf
  cases hframes : r.frames with
  | nil =>
    rw [collect_of_nil hframes] at hf
    exact h f hf
  | cons g frames =>
    rw [collect_of_cons hframes] at hf
    cases hf
    exact h g (by rw [hframes]; rfl)

theorem collect_one (h : r.Open) : deliver { r with cursor := c } n r.frames = r.collect [n] c := by
  cases hframes : r.frames with
  | nil =>
    rw [collect_of_nil hframes]
    simp [deliver, hframes]
  | cons f frames =>
    rw [collect_of_cons hframes, deliver_of_not_chain (Opened.ne_chain (h f (by rw [hframes]; rfl)))]
    rfl

/-- The frames that take a node are the given ones. -/
theorem deliver_frames (r : Reader) (n : Node) (frames frames' : List Frame) :
    deliver { r with frames := frames' } n frames = r.deliver n frames := by
  induction frames generalizing r n with
  | nil => rfl
  | cons f frames ih =>
    unfold deliver
    split
    · exact ih { r with cursor := _ } _
    · rfl

theorem leaveTo_frames (r : Reader) (f : Frame) (frames frames' : List Frame) (left : Left × Cursor) :
    ({ r with frames := frames' } : Reader).leaveTo f frames left = r.leaveTo f frames left := by
  obtain ⟨left, c⟩ := left
  cases left with
  | done n => exact deliver_frames { r with cursor := c } n frames frames'
  | next opened => rfl
  | branch elseif test consequent test' => rfl

theorem Leads.trans {r'' : Reader} (h : r.Leads r') (h' : r'.Leads r'') : r.Leads r'' :=
  Relation.ReflTransGen.trans h h'

theorem isDone_of_cons (h : r.frames = f :: frames) : r.isDone = false := by
  simp [isDone, h]

theorem isDone_of_rest (h : r.cursor.rest ≠ []) : r.isDone = false := by
  simp [isDone, atEnd, h]

/-- The reader does a job: begun in a state of its own, it leads to the state with the nodes of the job. -/
def Does (job : Job) (c : Cursor) (ns : List Node) (c' : Cursor) : Prop :=
  match job with
  | .node => ∀ r : Reader, r.cursor = c → c.rest ≠ [] → r.readsNode = true → r.Open → r.Leads (r.collect ns c')
  | .fragment => ∀ r : Reader, r.cursor = c → r.frames ≠ [] → r.Open → r.Leads (r.collect ns c')
  | .rest opened start => ∀ (r : Reader) frames n, ns = [n] → r.cursor = c → opened.isChain = false →
    r.frames = ⟨opened, start, c.offset, []⟩ :: frames → r.Leads (deliver { r with cursor := c' } n frames)

theorem Leads.of_step_eq (hdone : r.isDone = false) (h : r.step = r') : r.Leads r' :=
  .of_step hdone (h ▸ .refl r')

/-- A fragment of a construct is read and left. -/
theorem leads_leaving {opened : Opened} {start : Nat} {c₁ : Cursor}
    (hcontent : Does .fragment c ns c₁) (hends : c₁.endsFragment = true) (hcursor : r.cursor = c)
    (hchain : opened.isChain = false) (hframes : r.frames = ⟨opened, start, c.offset, []⟩ :: frames) :
    r.Leads (({ r with cursor := c₁ } : Reader).leaveTo ⟨opened, start, c.offset, ns.reverse⟩ frames
      (leaving opened start ⟨ns, c₁.spanFrom c.offset⟩ c₁)) := by
  have hopen : r.Open := by
    rw [Open, hframes]
    rintro f ⟨⟩
    exact hchain
  have hread := hcontent r hcursor (by simp [hframes]) hopen
  rw [collect_of_cons hframes, List.append_nil] at hread
  refine hread.trans (.of_step_eq (isDone_of_cons rfl) ?_)
  have hfragment : (⟨opened, start, c.offset, ns.reverse⟩ : Frame).fragment c₁.offset = ⟨ns, c₁.spanFrom c.offset⟩ := by
    rw [Frame.fragment, List.reverse_reverse]
    rfl
  rw [step]
  dsimp only
  rw [if_pos hends, leave_eq, hfragment]
  exact leaveTo_frames { r with cursor := c₁ } _ frames _ _

/-- The reader does the jobs as the recursion says. -/
theorem does_of_yields {job : Job} (h : Yields job c ns c') : Does job c ns c' := by
  induction h with
  | leaf hfound =>
    rintro r rfl hc hnode hopen
    refine .of_step_eq (isDone_of_rest hc) ?_
    rw [step_of_readsNode hnode, ← collect_one hopen, Reader.readNode, hfound]
  | nothing hfound =>
    rintro r rfl hc hnode hopen
    refine .of_step_eq (isDone_of_rest hc) ?_
    rw [step_of_readsNode hnode, collect_nothing, Reader.readNode, hfound]
  | @opened c c' f ns hfound hrest ih =>
    rintro r rfl hc hnode hopen
    obtain ⟨n, rfl⟩ := hrest.eq_singleton
    obtain ⟨heq, hchain⟩ := opens_readNode r.cursor f hfound
    have hstep : r.step = { r with cursor := (Markup.readNode r.cursor).2, frames := f :: r.frames } := by
      rw [step_of_readsNode hnode, Reader.readNode, hfound]
    have hframe : f = ⟨f.opened, f.start, (Markup.readNode r.cursor).2.offset, []⟩ := by
      rw [heq]
    have hrest := ih { r with cursor := (Markup.readNode r.cursor).2, frames := f :: r.frames } r.frames n rfl rfl
      hchain (by rw [← hframe])
    rw [← collect_one hopen, ← deliver_frames _ n r.frames (f :: r.frames)]
    exact .of_step (isDone_of_rest hc) (hstep ▸ hrest)
  | ends hends =>
    rintro r rfl hframes hopen
    rw [collect_nothing]
    exact .refl r
  | @more c c₁ c₂ ns ms hends hnode hmore ih ih' =>
    rintro r rfl hframes hopen
    have hreads : r.readsNode = true := by
      obtain ⟨f, frames, hcons⟩ := List.exists_cons_of_ne_nil hframes
      simp [readsNode, hcons, hends]
    have hfirst := ih r rfl (rest_ne_nil hends) hreads hopen
    have hsecond := ih' (r.collect ns c₁) cursor_collect (collect_ne_nil hframes) hopen.collect
    rw [collect_collect] at hsecond
    exact hfirst.trans hsecond
  | done hcontent hleave ih =>
    rintro r frames n hn rfl hchain hframes
    cases hn
    have hleads := leads_leaving ih hcontent.endsFragment rfl hchain hframes
    rw [hleave] at hleads
    exact hleads
  | @next opened opened' start c c₁ c₂ c₃ ns ms hcontent hleave hrest ih ih' =>
    rintro r frames n rfl rfl hchain hframes
    have hleads := leads_leaving ih hcontent.endsFragment rfl hchain hframes
    rw [hleave] at hleads
    have hchain' := isChain_leaving hleave
    have hmore := ih' { r with cursor := c₂, frames := ⟨opened', start, c₂.offset, []⟩ :: frames } frames n rfl rfl
      hchain' rfl
    refine hleads.trans ?_
    rw [← deliver_frames { r with cursor := c₃ } n frames (⟨opened', start, c₂.offset, []⟩ :: frames)]
    exact hmore
  | @branch opened start c c₁ c₂ c₃ ns n elseif test test' consequent hcontent hleave hrest ih ih' =>
    rintro r frames n' hn rfl hchain hframes
    cases hn
    have hleads := leads_leaving ih hcontent.endsFragment rfl hchain hframes
    rw [hleave] at hleads
    -- the else-if block joins the frame of its if block, which is left with it at once
    let parent : Frame := ⟨.chain elseif test consequent, start, c₁.offset, []⟩
    let branch : Frame := ⟨.consequent true test', c₁.offset, c₂.offset, []⟩
    have hmore := ih' { r with cursor := c₂, frames := branch :: parent :: frames } (parent :: frames) n rfl rfl rfl rfl
    rw [deliver_of_chain rfl] at hmore
    refine hleads.trans ?_
    rw [← deliver_frames _ _ frames (branch :: parent :: frames)]
    exact hmore

/-! ### Documents -/

/-- What a step at the top of a document does if it reads no node. -/
inductive TakesTop (r : Reader) : Prop where
  | script : r.cursor.atTag "script".toList = true → r.readTop = r.readScript → r.TakesTop
  | style : r.cursor.atTag "style".toList = true → r.readTop = r.readStyle → r.TakesTop
  | closingTag : r.cursor.startsWith ['<', '/'] = true → r.readTop = r.skipClosingTag → r.TakesTop
  | blockTag : r.readTop = r.skipBlockTag → r.TakesTop

theorem takesTop (hframes : r.frames = []) (h : r.readsNode = false) : r.TakesTop := by
  rw [readsNode, hframes] at h
  by_cases hscript : r.cursor.atTag "script".toList = true
  · exact .script hscript (by rw [readTop, if_pos hscript])
  · by_cases hstyle : r.cursor.atTag "style".toList = true
    · exact .style hstyle (by rw [readTop, if_neg hscript, if_pos hstyle])
    · by_cases hclosing : r.cursor.startsWith ['<', '/'] = true
      · exact .closingTag hclosing (by rw [readTop, if_neg hscript, if_neg hstyle, if_pos hclosing])
      · refine .blockTag ?_
        have hblock : (r.cursor.startsWith ['{', ':'] || r.cursor.startsWith ['{', '/']) = true := by
          grind
        rw [readTop, if_neg hscript, if_neg hstyle, if_neg hclosing, if_pos hblock]

theorem frames_readTop (hframes : r.frames = []) (h : r.readsNode = false) : r.readTop.frames = [] := by
  rw [← hframes]
  cases takesTop hframes h with
  | script _ htop =>
    rw [htop, readScript]
    dsimp only
    split <;> split <;> rfl
  | style _ htop =>
    rw [htop, readStyle]
    split <;> rfl
  | closingTag _ htop => rw [htop, skipClosingTag]
  | blockTag htop => rw [htop, skipBlockTag]

/-- Only steps that read a node add nodes to the document. -/
theorem nodes_readTop (hframes : r.frames = []) (h : r.readsNode = false) : r.readTop.nodes = r.nodes := by
  cases takesTop hframes h with
  | script _ htop =>
    rw [htop, readScript]
    dsimp only
    split <;> split <;> rfl
  | style _ htop =>
    rw [htop, readStyle]
    split <;> rfl
  | closingTag _ htop => rw [htop, skipClosingTag]
  | blockTag htop => rw [htop, skipBlockTag]

/-- A step at the top of a document, with all that a node there takes. -/
inductive Advances : Reader → Reader → Prop where
  | node {r : Reader} {ns : List Node} {c : Cursor} : r.frames = [] → r.cursor.rest ≠ [] → r.readsNode = true →
    Yields .node r.cursor ns c → Advances r { r with cursor := c, nodes := ns.reverse ++ r.nodes }
  | other {r : Reader} : r.frames = [] → r.cursor.rest ≠ [] → r.readsNode = false → Advances r r.readTop

theorem Advances.frames_eq (h : Advances r r') : r'.frames = [] := by
  cases h with
  | node hframes _ _ _ => exact hframes
  | other hframes _ hnot => exact frames_readTop hframes hnot

theorem Advances.shorter (h : Advances r r') : r'.cursor.rest.length < r.cursor.rest.length := by
  cases h with
  | node _ hc _ hnode => exact hnode.length_lt hc
  | other hframes hc hnot =>
    have hsize := size_readTop_lt hc
    simp only [size, hframes, frames_readTop hframes hnot] at hsize
    omega

theorem Advances.leads (h : Advances r r') : r.Leads r' := by
  cases h with
  | node hframes hc hreads hnode =>
    have hopen : r.Open := by
      rw [Open, hframes]
      rintro f ⟨⟩
    have hleads := does_of_yields hnode r rfl hc hreads hopen
    rwa [collect_of_nil hframes] at hleads
  | other hframes hc hnot =>
    refine .of_step_eq (isDone_of_rest hc) ?_
    rw [step, hframes]

theorem exists_advances (hframes : r.frames = []) (hc : r.cursor.rest ≠ []) : ∃ r', Advances r r' := by
  cases hreads : r.readsNode with
  | true =>
    obtain ⟨ns, c, hnode⟩ := exists_yields .node r.cursor fun _ => hc
    exact ⟨_, .node hframes hc hreads hnode⟩
  | false => exact ⟨_, .other hframes hc hreads⟩

theorem run_of_isDone (h : r.isDone = true) : r.run = r := by
  rw [run, dif_pos h]

theorem run_of_leads (h : r.Leads r') : r.run = r'.run := by
  induction h using Relation.ReflTransGen.head_induction_on with
  | refl => rfl
  | head hmove _ ih =>
    rw [run, dif_neg (by rw [hmove.1]; exact Bool.false_ne_true), ← hmove.2]
    exact ih

theorem leads_to_run (r : Reader) : r.Leads r.run := by
  fun_induction run r with
  | case1 r hdone => exact .refl r
  | case2 r hdone ih => exact .of_step (by simpa using hdone) ih

/-- A whole run is made of steps at the top of the document. -/
theorem advances_run (hframes : r.frames = []) :
    Relation.ReflTransGen Advances r r.run ∧ r.run.cursor.rest = [] := by
  induction hk : r.cursor.rest.length using Nat.strongRecOn generalizing r with
  | ind k ih =>
  by_cases hc : r.cursor.rest = []
  · have hdone : r.isDone = true := by simp [isDone, atEnd, hframes, hc]
    rw [run_of_isDone hdone]
    exact ⟨.refl, hc⟩
  · obtain ⟨r', hstep⟩ := exists_advances hframes hc
    have hrest := ih _ (hk ▸ hstep.shorter) hstep.frames_eq rfl
    rw [run_of_leads hstep.leads]
    exact ⟨.head hstep hrest.1, hrest.2⟩

/-- What steps at the top of a document keep holds when it is read. -/
theorem run_induction {Inv : Reader → Prop} (hframes : r.frames = []) (hfirst : Inv r)
    (hstep : ∀ r r', Inv r → Advances r r' → Inv r') : Inv r.run := by
  have hrun := (advances_run hframes).1
  generalize r.run = last at hrun
  induction hrun with
  | refl => exact hfirst
  | tail _ hmove ih => exact hstep _ _ ih hmove

end Reader

end Restyle.Markup
