import Restyle.Proofs.Markup.Tags

/-! Printing markup. A document is printed in one way: scripts first, then the nodes, then the style, with one
blank where blanks are needed. What is printed depends on no place, and two trees that differ in places only
are the same apart from places. Not every tree is one that a text can have: a tree is printable if its parts
are such that the text of each stands for it. -/

namespace Restyle.Markup

open Text

/-! ### Apart from places -/

mutual

/-- The node apart from its place. -/
def Node.unplaced : Node → Node
  | .element _ name attributes content selfClosing =>
    .element (.point 0) name (attributes.map Attribute.unplaced) content.unplaced selfClosing
  | .component _ name attributes content selfClosing =>
    .component (.point 0) name (attributes.map Attribute.unplaced) content.unplaced selfClosing
  | .special _ kind name attributes content =>
    .special (.point 0) kind name (attributes.map Attribute.unplaced) content.unplaced
  | .text _ data => .text (.point 0) data
  | .comment _ data => .comment (.point 0) data
  | .expression _ e => .expression (.point 0) e.unplaced
  | .tag _ kind e => .tag (.point 0) kind e.unplaced
  | .ifBlock _ elseif test consequent alternate =>
    .ifBlock (.point 0) elseif test.unplaced consequent.unplaced (unplacedOption alternate)
  | .eachBlock _ header body fallback =>
    .eachBlock (.point 0) header.unplaced body.unplaced (unplacedOption fallback)
  | .awaitBlock _ header pending resolved failed =>
    .awaitBlock (.point 0) header.unplaced (unplacedOption pending) (unplacedOption resolved) (unplacedOption failed)
  | .keyBlock _ value body => .keyBlock (.point 0) value.unplaced body.unplaced
  | .snippetBlock _ name parameters body => .snippetBlock (.point 0) name parameters body.unplaced

def Fragment.unplaced : Fragment → Fragment
  | ⟨nodes, _⟩ => ⟨unplacedAll nodes, .point 0⟩

def unplacedAll : List Node → List Node
  | [] => []
  | n :: nodes => n.unplaced :: unplacedAll nodes

def unplacedOption : Option Fragment → Option Fragment
  | none => none
  | some f => some f.unplaced

end

def Script.unplaced (s : Script) : Script :=
  { s with span := .point 0, contentSpan := .point 0, attributes := s.attributes.map Attribute.unplaced }

def Style.unplaced (s : Style) : Style :=
  { s with span := .point 0, contentSpan := .point 0, attributes := s.attributes.map Attribute.unplaced }

def Document.unplaced (d : Document) : Document where
  moduleScript := d.moduleScript.map Script.unplaced
  instanceScript := d.instanceScript.map Script.unplaced
  style := d.style.map Style.unplaced
  fragment := d.fragment.unplaced
  span := .point 0

theorem unplacedAll_append (nodes more : List Node) :
    unplacedAll (nodes ++ more) = unplacedAll nodes ++ unplacedAll more := by
  induction nodes with
  | nil => rfl
  | cons n nodes ih => rw [List.cons_append, unplacedAll, unplacedAll, ih, List.cons_append]

theorem unplacedAll_singleton (n : Node) : unplacedAll [n] = [n.unplaced] := rfl

theorem Fragment.unplaced_eq (f : Fragment) : f.unplaced = ⟨unplacedAll f.nodes, .point 0⟩ := by
  cases f
  rfl

/-- Fragments are the same apart from places if their nodes are. -/
theorem Fragment.unplaced_congr {f g : Fragment} (h : unplacedAll f.nodes = unplacedAll g.nodes) :
    f.unplaced = g.unplaced := by
  rw [unplaced_eq, unplaced_eq, h]

theorem unplacedOption_congr {f g : Fragment} (h : f.unplaced = g.unplaced) :
    unplacedOption (some f) = unplacedOption (some g) := congrArg some h

/-! ### Texts of the parts -/

/-- An expression in braces, with a text before it that belongs to the braces. -/
def Expression.braced (before : List Char) (e : Expression) : List Char :=
  '{' :: (before ++ (e.text.toList ++ ['}']))

/-- What keeps an expression in braces apart from the brace, if it begins as a tag of a block would. -/
def Expression.pad (e : Expression) : List Char :=
  if e.text.toList.head?.any fun d => d = '#' || d = '@' || d = ':' || d = '/' then [' '] else []

/-- A tag of a block: a sign, a keyword and what comes behind it. -/
def blockTag (sign : Char) (keyword : String) (rest : List Char) : List Char :=
  '{' :: sign :: (keyword.toList ++ (rest ++ ['}']))

/-- The tag that begins an if block or an else-if block. -/
def ifTag (elseif : Bool) (test : Expression) : List Char :=
  if elseif then blockTag ':' "else" ([' ', 'i', 'f', ' '] ++ test.text.toList)
  else blockTag '#' "if" (' ' :: test.text.toList)

/-- An else-if block ends before the closing tag of its if block. -/
def endIf (elseif : Bool) : List Char := if elseif then [] else blockTag '/' "if" []

def TagKind.name : TagKind → String
  | .html => "html"
  | .const => "const"
  | .debug => "debug"
  | .render => "render"

/-- Directives, attachments and values that mix texts and expressions are not printed. -/
def Attribute.print : Attribute → List Char
  | .normal _ name .absent => name.toList
  | .normal _ name (.expression _ e) => name.toList ++ '=' :: e.braced []
  | .normal _ name (.parts [.text _ value]) => name.toList ++ '=' :: '"' :: (value.toList ++ ['"'])
  | .spread _ e => e.braced ['.', '.', '.']
  | .shorthand _ e => e.braced []
  | _ => []

def printAttributes (attributes : List Attribute) : List Char := attributes.flatMap fun a => ' ' :: a.print

def openingTag (name : String) (attributes : List Attribute) (close : List Char) : List Char :=
  '<' :: (name.toList ++ (printAttributes attributes ++ close))

def closingTag (name : String) : List Char := '<' :: '/' :: (name.toList ++ ['>'])

/-! ### Texts of trees -/

/-- An else-if block. -/
def Node.isBranch : Node → Bool
  | .ifBlock _ elseif .. => elseif
  | _ => false

/-- A fragment that is an else-if block and nothing else. -/
def Fragment.isBranch (f : Fragment) : Bool :=
  match f.nodes with
  | [n] => n.isBranch
  | _ => false

mutual

def Node.print : Node → List Char
  | .element _ name attributes content selfClosing | .component _ name attributes content selfClosing =>
    if selfClosing then openingTag name attributes ['/', '>']
    else openingTag name attributes ['>'] ++ (content.print ++ closingTag name)
  | .special _ _ name attributes content => openingTag name attributes ['>'] ++ (content.print ++ closingTag name)
  | .text _ data => data.toList
  | .comment _ data => ['<', '!', '-', '-'] ++ (data.toList ++ ['-', '-', '>'])
  | .expression _ e => e.braced e.pad
  | .tag _ kind e => blockTag '@' kind.name (' ' :: e.text.toList)
  | .ifBlock _ elseif test consequent alternate =>
    ifTag elseif test ++ (consequent.print
      ++ (printOption (if alternate.any Fragment.isBranch then [] else blockTag ':' "else" []) alternate
        ++ endIf elseif))
  | .eachBlock _ header body fallback =>
    blockTag '#' "each" (' ' :: header.text.toList)
      ++ (body.print ++ (printOption (blockTag ':' "else" []) fallback ++ blockTag '/' "each" []))
  | .awaitBlock _ header pending resolved failed =>
    blockTag '#' "await" (' ' :: header.text.toList)
      ++ (printOption [] pending ++ (printOption (blockTag ':' "then" []) resolved
        ++ (printOption (blockTag ':' "catch" []) failed ++ blockTag '/' "await" [])))
  | .keyBlock _ value body => blockTag '#' "key" (' ' :: value.text.toList) ++ (body.print ++ blockTag '/' "key" [])
  | .snippetBlock _ name parameters body =>
    blockTag '#' "snippet" (' ' :: (name.toList ++ '(' :: (parameters.toList ++ [')'])))
      ++ (body.print ++ blockTag '/' "snippet" [])

def Fragment.print : Fragment → List Char
  | ⟨nodes, _⟩ => printAll nodes

def printAll : List Node → List Char
  | [] => []
  | n :: nodes => n.print ++ printAll nodes

/-- A branch that a block may have, behind the tag that begins it. -/
def printOption (tag : List Char) : Option Fragment → List Char
  | none => []
  | some f => tag ++ f.print

end

theorem Fragment.print_eq (f : Fragment) : f.print = printAll f.nodes := by
  cases f
  rfl

/-- A script or style. -/
def printRaw (name : String) (attributes : List Attribute) (content : String) : List Char :=
  openingTag name attributes ['>'] ++ (content.toList ++ closingTag name)

def Script.print (s : Script) : List Char := printRaw "script" s.attributes s.content

def Style.print (s : Style) : List Char := printRaw "style" s.attributes s.content

def Document.print (d : Document) : String :=
  String.ofList (d.moduleScript.toList.flatMap Script.print ++ (d.instanceScript.toList.flatMap Script.print
    ++ (d.fragment.print ++ d.style.toList.flatMap Style.print)))

/-! ### Printable trees -/

/-- The expression has no spaces around it, and in its braces, behind the given text, the brace behind it is
the first that closes them. -/
structure Expression.Fits (before : List Char) (e : Expression) : Prop where
  trimmed : trim e.text.toList = e.text.toList
  closed : Embedded.Closed (before ++ e.text.toList)

/-- A name of an attribute that is not a directive. -/
structure IsAttributeName (name : String) : Prop where
  nonempty : name ≠ ""
  letters : ∀ d ∈ name.toList, isBlank d = false ∧ d ∉ ['=', '>', '/', ':', '{', '}', '"', '\'']

/-- A shorthand is not empty, and does not begin as a spread or an attachment does. -/
inductive Attribute.Printable : Attribute → Prop where
  | bare {span : Span} {name : String} : IsAttributeName name → Printable (.normal span name .absent)
  | braced {span s : Span} {name : String} {e : Expression} : IsAttributeName name → e.Fits [] →
    Printable (.normal span name (.expression s e))
  | quoted {span s : Span} {name value : String} : IsAttributeName name →
    (∀ d ∈ value.toList, d ≠ '"' ∧ d ≠ '{') → Printable (.normal span name (.parts [.text s value]))
  | spread {span : Span} {e : Expression} : e.Fits ['.', '.', '.'] → Printable (.spread span e)
  | shorthand {span : Span} {e : Expression} : e.Fits [] → e.text ≠ "" → ¬ ['.', '.', '.'] <+: e.text.toList →
    ¬ ['@', 'a', 't', 't', 'a', 'c', 'h'] <+: e.text.toList → Printable (.shorthand span e)

/-- A name of an element whose content is markup. -/
structure IsMarkupName (name : String) : Prop where
  first : ∃ d ∈ name.toList.head?, d.isAlpha = true
  letters : ∀ d ∈ name.toList, endsTagName d = false ∧ d ≠ ':'
  content : isRawTextElement name = false ∧ isTextElement name = false

/-- What is asked of an element apart from the nodes in it. -/
structure PrintableElement (name : String) (attributes : List Attribute) (content : Fragment) (selfClosing : Bool) :
    Prop where
  named : IsMarkupName name
  attributes : ∀ a ∈ attributes, a.Printable
  empty : selfClosing = true → content.nodes = []
  notVoid : selfClosing = false → isVoidElement name = false

def Node.isText : Node → Bool
  | .text .. => true
  | _ => false

/-- No two texts are neighbours. -/
def Spaced (nodes : List Node) : Prop := nodes.IsChain fun m n => m.isText = false ∨ n.isText = false

/-- A test of an if block or an else-if block. An else-if block without a test would be a faulty else branch. -/
structure Expression.IsTest (elseif : Bool) (test : Expression) : Prop where
  fits : test.Fits (if elseif then [' ', 'i', 'f', ' '] else [' '])
  nonempty : elseif = true → test.text ≠ ""

/-- A node that a text can have, as an else-if block or anywhere else. -/
inductive Node.Printable : Bool → Node → Prop where
  | element {span : Span} {name : String} {attributes : List Attribute} {content : Fragment} {selfClosing : Bool} :
    PrintableElement name attributes content selfClosing → isComponentName name = false → Spaced content.nodes →
    (∀ n ∈ content.nodes, n.Printable false) → Printable false (.element span name attributes content selfClosing)
  | component {span : Span} {name : String} {attributes : List Attribute} {content : Fragment} {selfClosing : Bool} :
    PrintableElement name attributes content selfClosing → isComponentName name = true → Spaced content.nodes →
    (∀ n ∈ content.nodes, n.Printable false) → Printable false (.component span name attributes content selfClosing)
  | text {span : Span} {data : String} : data ≠ "" → (∀ d ∈ data.toList, d ≠ '<' ∧ d ≠ '{') →
    Printable false (.text span data)
  | comment {span : Span} {data : String} : ¬ ['-', '-', '>'] <:+: data.toList → Printable false (.comment span data)
  | expression {span : Span} {e : Expression} : e.Fits e.pad → Printable false (.expression span e)
  | tag {span : Span} {kind : TagKind} {e : Expression} : e.Fits [' '] → Printable false (.tag span kind e)
  | ifBlock {span : Span} {elseif : Bool} {test : Expression} {consequent : Fragment} :
    test.IsTest elseif → Spaced consequent.nodes →
    (∀ n ∈ consequent.nodes, n.Printable false) → Printable elseif (.ifBlock span elseif test consequent none)
  | ifElse {span : Span} {elseif : Bool} {test : Expression} {consequent alternate : Fragment} :
    test.IsTest elseif → Spaced consequent.nodes →
    (∀ n ∈ consequent.nodes, n.Printable false) → Spaced alternate.nodes →
    (∀ n ∈ alternate.nodes, n.Printable false) →
    Printable elseif (.ifBlock span elseif test consequent (some alternate))
  | ifElseIf {span s : Span} {elseif : Bool} {test : Expression} {consequent : Fragment} {n : Node} :
    test.IsTest elseif → Spaced consequent.nodes →
    (∀ n ∈ consequent.nodes, n.Printable false) → n.Printable true →
    Printable elseif (.ifBlock span elseif test consequent (some ⟨[n], s⟩))
  | eachBlock {span : Span} {header : Expression} {body : Fragment} {fallback : Option Fragment} :
    header.Fits [' '] → Spaced body.nodes → (∀ n ∈ body.nodes, n.Printable false) →
    (∀ f ∈ fallback, Spaced f.nodes) → (∀ f ∈ fallback, ∀ n ∈ f.nodes, n.Printable false) →
    Printable false (.eachBlock span header body fallback)
  | awaitBlock {span : Span} {header : Expression} {pending : Fragment} {resolved failed : Option Fragment} :
    header.Fits [' '] → firstSlot header = .pending →
    (∀ f ∈ pending :: (resolved.toList ++ failed.toList), Spaced f.nodes) →
    (∀ f ∈ pending :: (resolved.toList ++ failed.toList), ∀ n ∈ f.nodes, n.Printable false) →
    Printable false (.awaitBlock span header (some pending) resolved failed)
  | keyBlock {span : Span} {value : Expression} {body : Fragment} : value.Fits [' '] → Spaced body.nodes →
    (∀ n ∈ body.nodes, n.Printable false) → Printable false (.keyBlock span value body)
  | snippetBlock {span : Span} {name parameters : String} {body : Fragment} :
    (∀ d ∈ name.toList, d ≠ '(' ∧ d ≠ '<') → trim name.toList = name.toList →
    trim parameters.toList = parameters.toList →
    Embedded.Closed (' ' :: (name.toList ++ '(' :: (parameters.toList ++ [')']))) → Spaced body.nodes →
    (∀ n ∈ body.nodes, n.Printable false) → Printable false (.snippetBlock span name parameters body)

/-- A script whose language and context are what its attributes say. -/
structure Script.Printable (s : Script) : Prop where
  attributes : ∀ a ∈ s.attributes, a.Printable
  content : ¬ ('<' :: '/' :: "script".toList) <:+: s.content.toList
  language : s.language = if s.attributes.any Attribute.namesTypeScript then .typeScript else .javaScript
  context : s.context = if s.attributes.any Attribute.namesModule then .perModule else .perInstance

structure Style.Printable (s : Style) : Prop where
  attributes : ∀ a ∈ s.attributes, a.Printable
  content : ¬ ('<' :: '/' :: "style".toList) <:+: s.content.toList

/-- A document that a text can have. -/
structure Document.Printable (d : Document) : Prop where
  moduleScript : ∀ s ∈ d.moduleScript, s.Printable ∧ s.context = .perModule
  instanceScript : ∀ s ∈ d.instanceScript, s.Printable ∧ s.context = .perInstance
  style : ∀ s ∈ d.style, s.Printable
  spaced : Spaced d.fragment.nodes
  nodes : ∀ n ∈ d.fragment.nodes, n.Printable false

end Restyle.Markup
