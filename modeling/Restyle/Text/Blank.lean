/-! Blank characters. Markup separates its words by the five blanks of ASCII text; the ends of an
embedded expression are trimmed by every character with the Unicode property `White_Space`. -/

namespace Restyle.Text

/-- The blanks of markup: space, tab, line feed, form feed and carriage return. -/
def isBlank (c : Char) : Bool :=
  c == ' ' || c == '\t' || c == '\n' || c == '\x0c' || c == '\r'

/-- The Unicode property `White_Space`. -/
def isSpace (c : Char) : Bool :=
  let n := c.toNat
  (9 ≤ n && n ≤ 13) || n == 0x20 || n == 0x85 || n == 0xa0 || n == 0x1680
    || (0x2000 ≤ n && n ≤ 0x200a) || n == 0x2028 || n == 0x2029 || n == 0x202f || n == 0x205f
    || n == 0x3000

/-- The text without its leading spaces. -/
def trimLeft (cs : List Char) : List Char := cs.dropWhile isSpace

/-- The text without its trailing spaces. -/
def trimRight (cs : List Char) : List Char := (cs.reverse.dropWhile isSpace).reverse

/-- The text without the spaces around it. -/
def trim (cs : List Char) : List Char := trimRight (trimLeft cs)

/-- The maximal runs of characters that are not spaces, in order. -/
def words : List Char → List (List Char)
  | [] => []
  | c :: cs =>
    if isSpace c then words cs
    else match cs with
      | [] => [[c]]
      | d :: _ => if isSpace d then [c] :: words cs else
        match words cs with
        | w :: ws => (c :: w) :: ws
        | [] => [[c]]

end Restyle.Text
