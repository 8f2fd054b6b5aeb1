import Restyle.Json.Reader
import Restyle.Json.Writer
import Restyle.Decimal.Shortest

/-! From style properties to the attributes of an element. The style runtime resolves styles into a
class name, a map of inline styles and a hint to the source; an element takes a class, the inline
styles as one text, and the hint. -/

namespace Restyle

/-- The value of an inline style: a text, or a number with its sign and size. -/
inductive StyleValue where
  | text (value : String)
  | number (negative : Bool) (size : Decimal.Binary64)
  deriving Repr, DecidableEq

def StyleValue.render : StyleValue → String
  | text s => s
  | number negative size => (if negative then "-" else "") ++ size.shortest.render

/-- Properties as the style runtime resolves them; the inline styles are in declaration order. -/
structure StyleProps where
  className : Option String := none
  style : Option (List (String × StyleValue)) := none
  sourceHint : Option String := none
  deriving Repr, DecidableEq

/-- Attributes ready to be spread onto an element. -/
structure DomAttrs where
  className : Option String := none
  style : Option String := none
  sourceHint : Option String := none
  deriving Repr, DecidableEq

/-- Empty class names, empty style maps and empty hints are dropped. -/
def StyleProps.toAttrs (p : StyleProps) : DomAttrs where
  className := p.className.filter (· ≠ "")
  style := (p.style.filter (!·.isEmpty)).map fun styles =>
    String.intercalate " " (styles.map fun (k, v) => k ++ ": " ++ v.render ++ ";")
  sourceHint := p.sourceHint.filter (· ≠ "")

/-- The attributes as one line of JSON; absent ones are left out. -/
def DomAttrs.render (a : DomAttrs) : String :=
  let member (name : String) (value : Option String) :=
    value.toList.map fun v => (name, Json.quote v)
  Json.compactObject
    (member "class" a.className ++ member "style" a.style ++ member "data-style-src" a.sourceHint)

/-! ### Reading -/

namespace StyleProps

/-- A text or nothing; other values are refused. -/
def textOf? : Json → Option (Option String)
  | .null => some none
  | .string (some s) => some (some s)
  | _ => none

def valueOf? : Json → Option StyleValue
  | .string (some s) => some (.text s)
  | .number n => n.toBinary64?.map fun (negative, size) => .number negative size
  | _ => none

/-- Adds a style; one of the same name keeps its place and takes the new value. -/
def putStyle (name : String) (value : StyleValue) :
    List (String × StyleValue) → List (String × StyleValue)
  | [] => [(name, value)]
  | (k, v) :: rest => if k = name then (k, value) :: rest else (k, v) :: putStyle name value rest

def stylesOf? : Json → Option (Option (List (String × StyleValue)))
  | .null => some none
  | .object members => do
    let styles ← (← Json.named? members).foldlM
      (fun styles (k, v) => do some (putStyle k (← valueOf? v) styles)) []
    some (some styles)
  | _ => none

/-- The members known by name, with the three fields that are read already. A field that comes twice
is refused, other names are skipped. -/
def readMembers (className : Option (Option String))
    (style : Option (Option (List (String × StyleValue)))) (hint : Option (Option String)) :
    List (String × Json) → Option StyleProps
  | [] => some ⟨className.join, style.join, hint.join⟩
  | (name, value) :: rest =>
    if name = "className" then
      if className.isSome then none else do readMembers (some (← textOf? value)) style hint rest
    else if name = "style" then
      if style.isSome then none else do readMembers className (some (← stylesOf? value)) hint rest
    else if name = "data-style-src" then
      if hint.isSome then none else do readMembers className style (some (← textOf? value)) rest
    else readMembers className style hint rest

/-- Properties are an object, or the list of their values in order, cut off anywhere. -/
def ofJson? : Json → Option StyleProps
  | .object members => do readMembers none none none (← Json.named? members)
  | .array [] => some {}
  | .array [c] => do some { className := ← textOf? c }
  | .array [c, s] => do some { className := ← textOf? c, style := ← stylesOf? s }
  | .array [c, s, h] => do
    some { className := ← textOf? c, style := ← stylesOf? s, sourceHint := ← textOf? h }
  | _ => none

def ofText? (text : String) : Option StyleProps := do ofJson? (← Json.ofText? text)

end StyleProps

end Restyle
