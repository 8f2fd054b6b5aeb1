import Restyle.Markup.Cursor

/-! Frames: the constructs of a markup document that are open at a place, each with what is known of it
and the nodes of the fragment that is being read. -/

namespace Restyle.Markup

/-- The branches of an await block. -/
inductive AwaitSlot where
  | pending | resolved | failed
  /-- A continuation that an await block does not have. -/
  | unknown (keyword : String) (span : Span)

structure AwaitBranches where
  pending : Option Fragment := none
  resolved : Option Fragment := none
  failed : Option Fragment := none

/-- An open construct and what is known of it. -/
inductive Opened where
  | element (name : String) (attributes : List Attribute)
  /-- The first branch of an if block is being read. -/
  | consequent (elseif : Bool) (test : Expression)
  /-- The else branch is being read. -/
  | alternate (elseif : Bool) (test : Expression) (consequent : Fragment)
  /-- An else-if block, in a frame of its own, is being read. -/
  | chain (elseif : Bool) (test : Expression) (consequent : Fragment)
  | eachBody (header : Expression)
  | eachFallback (header : Expression) (body : Fragment)
  | awaitBranch (header : Expression) (branches : AwaitBranches) (slot : AwaitSlot)
  | key (value : Expression)
  | snippet (name parameters : String)

structure Frame where
  opened : Opened
  /-- Where the construct starts. -/
  start : Nat
  /-- Where the fragment that is being read starts. -/
  contentStart : Nat
  /-- The nodes of that fragment, newest first. -/
  nodes : List Node := []

def Frame.fragment (f : Frame) (stop : Nat) : Fragment := ⟨f.nodes.reverse, ⟨f.contentStart, stop⟩⟩

end Restyle.Markup
