import Restyle.Markup.Cursor

/-! Reading the attributes of a tag: names with quoted, unquoted or no values, directives, spreads,
shorthands and attachments. Reading an attribute before the end of the text always moves on, so the
list of attributes is finite. -/

namespace Restyle.Markup.Cursor

open Text

/-! ### Values -/

/-- Whether a value ends here: a quoted one at its quote, an unquoted one at a blank or at the end of
the tag. -/
def endsValue (quote : Option Char) : List Char → Bool
  | [] => true
  | c :: cs => match quote with
    | some q => c == q
    | none => isBlank c || c == '>' || (c == '/' && cs.head? == some '>')

def endsValueText (quote : Option Char) (cs : List Char) : Bool :=
  endsValue quote cs || cs.head? == some '{'

/-- Text and expressions up to the end of a value, or up to an expression that is not closed. -/
def valueParts (quote : Option Char) (r : Cursor) : List ValuePart × Cursor :=
  match _hr : r.rest with
  | [] => ([], r)
  | c :: cs =>
    if _hend : endsValue quote (c :: cs) then ([], r)
    else if _hbrace : c = '{' then
      let inside := (r.moved [c] cs).braced
      match inside.1 with
      | none => ([], inside.2)
      | some e =>
        let more := inside.2.valueParts quote
        (.expression (inside.2.spanFrom r.offset) e :: more.1, more.2)
    else
      let text := r.breakWhere (endsValueText quote)
      let more := text.2.valueParts quote
      (.text (text.2.spanFrom r.offset) (String.ofList text.1) :: more.1, more.2)
termination_by r.rest.length
decreasing_by
  · have := (reaches_braced (r.moved [c] cs)).length_le
    rw [_hr, List.length_cons]
    exact Nat.lt_succ_of_le this
  · exact length_breakWhere _hr (by simp [endsValueText, _hend, _hbrace])

theorem reaches_valueParts (quote : Option Char) (r : Cursor) :
    r.Reaches (r.valueParts quote).2 := by
  fun_induction valueParts quote r with
  | case1 r hr => exact .refl r
  | case2 r c cs hr hend => exact .refl r
  | case3 r cs hr => exact (reaches_moved_one hr).trans (reaches_braced _)
  | case4 r cs e hr _ _ _ _ ih => exact ((reaches_moved_one hr).trans (reaches_braced _)).trans ih
  | case5 r c cs hr hend hbrace text more ih => exact (reaches_breakWhere r _).trans ih

/-- A value after the equals sign. An empty quoted value has one empty part. -/
def value (r : Cursor) : AttributeValue × Cursor :=
  match r.rest with
  | c :: cs =>
    if c = '"' || c = '\'' then
      let inside := (r.moved [c] cs).valueParts (some c)
      let parts := if inside.1.isEmpty then [.text (.point inside.2.offset) ""] else inside.1
      match inside.2.eat? [c] with
      | some r' => (.parts parts, r')
      | none => (.parts parts, inside.2.fault (.unexpectedEnd "closing quote") (inside.2.spanFrom r.offset))
    else unquoted r
  | [] => unquoted r
where
  unquoted (r : Cursor) : AttributeValue × Cursor :=
    let inside := r.valueParts none
    match inside.1 with
    | [.expression span e] => (.expression span e, inside.2)
    | [] => (.parts [],
        inside.2.fault (.invalidAttribute "missing attribute value") (inside.2.spanFrom r.offset))
    | parts => (.parts parts, inside.2)

theorem reaches_value (r : Cursor) : r.Reaches r.value.2 := by
  have plain : r.Reaches (value.unquoted r).2 := by
    have inside := reaches_valueParts none r
    unfold value.unquoted
    dsimp only
    split
    · exact inside
    · exact reaches_fault inside
    · exact inside
  unfold value
  split
  · next c cs hr =>
    split
    · have inside := (reaches_moved_one hr).trans (reaches_valueParts (some c) _)
      dsimp only
      split
      · next h => exact inside.trans (reaches_eat? h).1
      · exact reaches_fault inside
    · exact plain
  · exact plain

/-! ### Attributes -/

/-- Whether an attribute name ends here. A slash ends it only as part of the end of the tag. -/
def endsName : List Char → Bool
  | [] => true
  | c :: cs =>
    isBlank c || c == '=' || c == '>' || c == '{' || c == '}' || c == '"' || c == '\''
      || (c == '/' && cs.head? == some '>')

/-- An attribute in braces, by its text. -/
def bracedAttribute (span : Span) (inner : Expression) : Option Attribute :=
  let rest (piece : List Char) : Option Expression :=
    (strip? piece inner.text.toList).map (.ofRaw (inner.span.start + width piece))
  match rest ['.', '.', '.'], rest ['@', 'a', 't', 't', 'a', 'c', 'h'] with
  | some e, _ => some (.spread span e)
  | none, some e => some (.attach span e)
  | none, none => if inner.text = "" then none else some (.shorthand span inner)

/-- An attribute with a name; the name decides whether it is a directive. -/
def namedAttribute (span : Span) (name : List Char) (value : AttributeValue) : Attribute :=
  let normal := Attribute.normal span (String.ofList name) value
  match name.dropWhile (· ≠ ':') with
  | [] => normal
  | _ :: rest =>
    match DirectiveKind.ofName? (String.ofList (name.takeWhile (· ≠ ':'))) with
    | none => normal
    | some kind =>
      let segments := (splitAtChar '|' rest).map String.ofList
      .directive span kind (segments.headD "") segments.tail
        (match value with
          | .absent => none
          | value => some value)

/-- One attribute. A character that begins none is skipped with a fault. -/
def attribute? (r : Cursor) : Option Attribute × Cursor :=
  match r.rest with
  | [] => (none, r)
  | c :: cs =>
    if c = '{' then
      let inner := (r.moved [c] cs).braced
      match inner.1 with
      | none => (none, inner.2)
      | some e =>
        let span := inner.2.spanFrom r.offset
        match bracedAttribute span e with
        | some a => (some a, inner.2)
        | none => (none, inner.2.fault (.invalidAttribute "empty shorthand attribute") span)
    else
      let name := r.breakWhere endsName
      if name.1.isEmpty then
        let r' := r.moved [c] cs
        (none, r'.fault (.invalidAttribute ("unexpected " ++ quoteChar c)) (r'.spanFrom r.offset))
      else
        match name.2.skipBlanks.eat? ['='] with
        | some r' =>
          let value := r'.skipBlanks.value
          (some (namedAttribute (value.2.spanFrom r.offset) name.1 value.1), value.2)
        | none => (some (namedAttribute (name.2.spanFrom r.offset) name.1 .absent), name.2)

theorem reaches_attribute? (r : Cursor) : r.Reaches r.attribute?.2 := by
  unfold attribute?
  split
  · exact .refl r
  · next c cs hr =>
    have first := reaches_moved_one hr
    have name := reaches_breakWhere r endsName
    split
    · have inner := first.trans (reaches_braced _)
      dsimp only
      split
      · exact inner
      · split
        · exact inner
        · exact reaches_fault inner
    · dsimp only
      split
      · exact reaches_fault first
      · split
        · next h =>
          exact name.trans ((reaches_skipBlanks _).trans ((reaches_eat? h).1.trans
            ((reaches_skipBlanks _).trans (reaches_value _))))
        · exact name

/-- Every attribute moves the cursor on. -/
theorem length_attribute? {r : Cursor} (h : r.rest ≠ []) :
    r.attribute?.2.rest.length < r.rest.length := by
  unfold attribute?
  split
  · next hr => exact absurd hr h
  · next c cs hr =>
    split
    · have inner := (reaches_braced (r.moved [c] cs)).length_le
      rw [rest_moved] at inner
      rw [hr, List.length_cons]
      dsimp only
      split
      · exact Nat.lt_succ_of_le inner
      · split <;> exact Nat.lt_succ_of_le inner
    · dsimp only
      split
      · simp [hr]
      · next hname =>
        have shorter : (r.breakWhere endsName).2.rest.length < r.rest.length := by
          apply length_breakWhere hr
          apply Bool.eq_false_iff.2
          intro hends
          exact hname (by simp [breakWhere, hr, Text.breakWhere, hends])
        split
        · next r' h =>
          have := (reaches_skipBlanks (r.breakWhere endsName).2).length_le
          have := (reaches_eat? h).1.length_le
          have := ((reaches_skipBlanks r').trans (reaches_value _)).length_le
          dsimp only
          omega
        · exact shorter

/-- Whether the list of attributes ends here: at the end of the tag or of the text. -/
def endsAttributes (r : Cursor) : Bool :=
  r.atEnd || r.startsWith ['>'] || r.startsWith ['/', '>']

/-- The attributes up to the end of the tag. -/
def attributes (r : Cursor) : List Attribute × Cursor :=
  if _h : r.skipBlanks.endsAttributes then ([], r.skipBlanks)
  else
    let first := r.skipBlanks.attribute?
    let more := first.2.attributes
    (first.1.toList ++ more.1, more.2)
termination_by r.rest.length
decreasing_by
  have hne : r.skipBlanks.rest ≠ [] := by
    intro he
    exact _h (by simp [endsAttributes, atEnd, he])
  have := length_attribute? hne
  have := (reaches_skipBlanks r).length_le
  omega

theorem reaches_attributes (r : Cursor) : r.Reaches r.attributes.2 := by
  fun_induction attributes r with
  | case1 r h => exact reaches_skipBlanks r
  | case2 r h first more ih =>
    exact (reaches_skipBlanks r).trans ((reaches_attribute? _).trans ih)

end Restyle.Markup.Cursor
