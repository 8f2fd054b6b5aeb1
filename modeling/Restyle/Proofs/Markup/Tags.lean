import Restyle.Proofs.Markup.Clean

/-! Attributes that are read again. What stands in a tag says the same wherever the tag stands, if the
character behind an attribute still ends it; only the places of its parts are others. -/

namespace Restyle.Markup

open Text

/-! ### Apart from places -/

/-- The expression apart from its place. -/
def Expression.unplaced (e : Expression) : Expression := { e with span := .point 0 }

/-- The part apart from its place. -/
def ValuePart.unplaced : ValuePart → ValuePart
  | .text _ value => .text (.point 0) value
  | .expression _ e => .expression (.point 0) e.unplaced

/-- The value apart from its place. -/
def AttributeValue.unplaced : AttributeValue → AttributeValue
  | .absent => .absent
  | .expression _ e => .expression (.point 0) e.unplaced
  | .parts ps => .parts (ps.map ValuePart.unplaced)

/-- The attribute apart from its place. -/
def Attribute.unplaced : Attribute → Attribute
  | .normal _ name value => .normal (.point 0) name value.unplaced
  | .spread _ e => .spread (.point 0) e.unplaced
  | .shorthand _ e => .shorthand (.point 0) e.unplaced
  | .directive _ kind name modifiers value =>
    .directive (.point 0) kind name modifiers (value.map AttributeValue.unplaced)
  | .attach _ e => .attach (.point 0) e.unplaced

theorem Attribute.static?_unplaced (v : AttributeValue) : v.unplaced.static? = v.static? := by
  cases v with
  | parts ps =>
    unfold AttributeValue.unplaced AttributeValue.static?
    dsimp only
    congr 1
    induction ps with
    | nil => rfl
    | cons p ps ih =>
      rw [List.map_cons, List.mapM_cons, List.mapM_cons, ih]
      cases p <;> rfl
  | absent => rfl
  | expression => rfl

/-- Whether a script runs for the module does not depend on places. -/
theorem Attribute.namesModule_unplaced (a : Attribute) : a.unplaced.namesModule = a.namesModule := by
  cases a with
  | normal span name value =>
    show ((name == "context" && value.unplaced.static? == some "module") || name == "module") = _
    rw [static?_unplaced]
    rfl
  | _ => rfl

/-- What is asked of any attribute apart from its places is the same for attributes that are the same apart from
places. -/
theorem any_unplaced {test : Attribute → Bool} (htest : ∀ a : Attribute, test a.unplaced = test a)
    {attributes attributes' : List Attribute}
    (h : attributes'.map Attribute.unplaced = attributes.map Attribute.unplaced) :
    attributes'.any test = attributes.any test := by
  have hany := congrArg (·.any test) h
  simpa [List.any_map, Function.comp_def, htest] using hany

namespace Cursor

theorem unplaced_bracedAttribute (s s' : Span) {e e' : Expression} (h : e'.text = e.text) :
    (bracedAttribute s' e').map Attribute.unplaced = (bracedAttribute s e).map Attribute.unplaced := by
  unfold bracedAttribute
  dsimp only
  rw [h]
  cases strip? ['.', '.', '.'] e.text.toList with
  | some rest => rfl
  | none =>
    cases strip? ['@', 'a', 't', 't', 'a', 'c', 'h'] e.text.toList with
    | some rest => rfl
    | none =>
      dsimp only [Option.map_none]
      split
      · rfl
      · exact congrArg (fun text => some (Attribute.shorthand (.point 0) ⟨.point 0, text⟩)) h

/-- Dots make a spread of what is behind them. -/
theorem bracedAttribute_of_dots {raw rest : List Char} (h : trim raw = ['.', '.', '.'] ++ rest) (span : Span)
    (o : Nat) : ∃ a, bracedAttribute span (.ofRaw o raw) = some a
      ∧ a.unplaced = (Attribute.spread span (.ofRaw o rest)).unplaced := by
  have hstrip : strip? ['.', '.', '.'] (Expression.ofRaw o raw).text.toList = some rest := by
    rw [strip?_eq_some_iff, Expression.ofRaw, String.toList_ofList]
    exact h
  unfold bracedAttribute
  dsimp only
  rw [hstrip]
  exact ⟨_, rfl, rfl⟩

theorem unplaced_namedAttribute (s s' : Span) (name : List Char) {v v' : AttributeValue}
    (h : v'.unplaced = v.unplaced) :
    (namedAttribute s' name v').unplaced = (namedAttribute s name v).unplaced := by
  unfold namedAttribute
  dsimp only
  split
  · exact congrArg (Attribute.normal (.point 0) (String.ofList name)) h
  · split
    · exact congrArg (Attribute.normal (.point 0) (String.ofList name)) h
    · refine congrArg (Attribute.directive (.point 0) _ _ _) ?_
      cases v <;> cases v' <;> first | rfl | cases h | exact congrArg some h

/-! ### Values -/

section Values

variable {c c' : Cursor} {t z z' : List Char} {quote : Option Char}

theorem head?_append_congr (h : z'.head? = z.head?) (t : List Char) :
    (t ++ z').head? = (t ++ z).head? := by
  cases t with
  | nil => exact h
  | cons d t => rfl

/-- What was read first and what was read next make up what was read. -/
theorem read_eq {first next r : List Char} (h : t ++ z = first ++ r) (hrest : r = next ++ z) :
    t = first ++ next := by
  rw [hrest, ← List.append_assoc] at h
  exact List.append_cancel_right h

/-- A text is broken at the same place again. -/
theorem Sees.breakWhere {test : List Char → Bool} (htwo : LooksAtTwo test)
    (hc : (c.breakWhere test).2.rest = t ++ z) (h : c'.Sees ((c.breakWhere test).1 ++ (t ++ z')))
    (hend : z' = [] ∨ test z' = true) (hhead : z'.head? = z.head?) :
    (c'.breakWhere test).1 = (c.breakWhere test).1 ∧ (c'.breakWhere test).2.Sees (t ++ z') := by
  obtain ⟨-, hbreak⟩ := rest_of_breakWhere c test
  rw [hc] at hbreak
  have hends : t ++ z' = [] ∨ test (t ++ z') = true := by
    cases t with
    | nil => exact hend
    | cons d t =>
      rcases (breakWhere_append_iff.1 hbreak).1 with hnil | htest
      · cases hnil
      · right
        rw [← htest]
        exact htwo d _ _ (head?_append_congr hhead t)
  rw [breakWhere_of_append h.rest (htwo.breakWhere hbreak (head?_append_congr hhead t) hends)]
  exact ⟨rfl, h.moved⟩

/-- An expression in braces is read again, before what was read behind it. -/
theorem Sees.inBraces {ds t₂ : List Char} (hrest : c.rest = '{' :: ds)
    (hclean : (c.moved ['{'] ds).braced.2.faults = []) (hc : c.rest = t ++ z) (hbehind : (c.moved ['{'] ds).braced.2.rest = t₂ ++ z) (h : c'.Sees (t ++ z')) :
    ∃ raw, ds = raw ++ '}' :: (t₂ ++ z) ∧ c'.rest = '{' :: (raw ++ '}' :: (t₂ ++ z'))
      ∧ (c.moved ['{'] ds).braced.1 = some (.ofRaw (c.moved ['{'] ds).offset raw)
      ∧ (c'.moved ['{'] (raw ++ '}' :: (t₂ ++ z'))).braced.1 =
        some (.ofRaw (c'.moved ['{'] (raw ++ '}' :: (t₂ ++ z'))).offset raw)
      ∧ (c'.moved ['{'] (raw ++ '}' :: (t₂ ++ z'))).braced.2.Sees (t₂ ++ z') := by
  obtain ⟨raw, hraw, hds, hexpression⟩ := rest_of_braced hclean
  rw [hbehind] at hds
  obtain rfl : t = ('{' :: raw ++ ['}']) ++ t₂ := by
    refine read_eq (r := t₂ ++ z) ?_ rfl
    rw [← hc, hrest, show ds = _ from hds]
    simp
  have hmoved : (c'.moved ['{'] (raw ++ '}' :: (t₂ ++ z'))).Sees _ := ⟨rfl, h.faults⟩
  obtain ⟨hsome, hsees⟩ := hmoved.braced hraw
  exact ⟨raw, hds, by simp [h.rest], hexpression, hsome, hsees⟩

theorem looksAtTwo_endsValue (quote : Option Char) : LooksAtTwo (endsValue quote) := by
  intro d cs cs' h
  cases quote with
  | some q => rfl
  | none => simp only [endsValue, h]

theorem looksAtTwo_endsValueText (quote : Option Char) : LooksAtTwo (endsValueText quote) := by
  intro d cs cs' h
  show (endsValue quote (d :: cs) || _) = (endsValue quote (d :: cs') || _)
  rw [looksAtTwo_endsValue quote d cs cs' h]
  rfl

theorem valueParts_of_ends (h : endsValue quote c.rest = true) : c.valueParts quote = ([], c) := by
  rw [valueParts]
  split
  · rfl
  · next d ds hc =>
    rw [hc] at h
    rw [dif_pos h]

theorem valueParts_of_brace {ds : List Char} {e : Expression} (hc : c.rest = '{' :: ds)
    (hend : endsValue quote ('{' :: ds) = false) (he : (c.moved ['{'] ds).braced.1 = some e) :
    c.valueParts quote =
      (.expression ((c.moved ['{'] ds).braced.2.spanFrom c.offset) e
          :: ((c.moved ['{'] ds).braced.2.valueParts quote).1,
        ((c.moved ['{'] ds).braced.2.valueParts quote).2) := by
  rw [valueParts]
  split
  · next hnil =>
    rw [hc] at hnil
    cases hnil
  · next d ds' hc' =>
    rw [hc] at hc'
    cases hc'
    rw [dif_neg (by simp [hend]), dif_pos rfl]
    dsimp only
    rw [he]

theorem valueParts_of_text {d : Char} {ds : List Char} (hc : c.rest = d :: ds)
    (hend : endsValue quote (d :: ds) = false) (hd : d ≠ '{') :
    c.valueParts quote =
      (.text ((c.breakWhere (endsValueText quote)).2.spanFrom c.offset)
          (String.ofList (c.breakWhere (endsValueText quote)).1)
        :: ((c.breakWhere (endsValueText quote)).2.valueParts quote).1,
        ((c.breakWhere (endsValueText quote)).2.valueParts quote).2) := by
  rw [valueParts]
  split
  · next hnil =>
    rw [hc] at hnil
    cases hnil
  · next d' ds' hc' =>
    rw [hc] at hc'
    cases hc'
    rw [dif_neg (by simp [hend]), dif_neg hd]

/-- The parts of a value are read again if it ends at the same character. -/
theorem Sees.valueParts (hclean : (c.valueParts quote).2.faults = []) (hc : c.rest = t ++ z)
    (hz : (c.valueParts quote).2.rest = z) (h : c'.Sees (t ++ z')) (hend : endsValue quote z' = true)
    (hhead : z'.head? = z.head?) :
    (c'.valueParts quote).1.map ValuePart.unplaced = (c.valueParts quote).1.map ValuePart.unplaced
      ∧ (c'.valueParts quote).2.Sees z' := by
  fun_induction Cursor.valueParts quote c generalizing t c' with
  | case1 c hnil =>
    rw [hnil] at hc hz
    subst hz
    obtain rfl : t = [] := (List.append_eq_nil_iff.1 hc.symm).1
    rw [valueParts_of_ends (by rw [h.rest]; exact hend)]
    exact ⟨rfl, h⟩
  | case2 c d ds hrest hends =>
    rw [← hz] at hc
    obtain rfl : t = [] := List.append_left_eq_self.1 hc.symm
    rw [valueParts_of_ends (by rw [h.rest]; exact hend)]
    exact ⟨rfl, h⟩
  | case3 c ds hrest hends inside =>
    rename_i he
    obtain ⟨raw, -, -, hsome⟩ := rest_of_braced (c := c.moved ['{'] ds) hclean
    cases hsome.symm.trans he
  | case4 c ds e hrest hends inside he =>
    rename_i more ih
    have hmore := reaches_valueParts quote inside.2
    have hinside := hmore.clean hclean
    obtain ⟨t₂, ht₂, -⟩ := hmore
    rw [show (inside.2.valueParts quote).2.rest = z from hz] at ht₂
    obtain ⟨raw, -, hc', hexpression, hsome, hsees⟩ := h.inBraces hrest hinside hc ht₂
    have hends' : endsValue quote ('{' :: (raw ++ '}' :: (t₂ ++ z'))) = false := by
      rw [Bool.not_eq_true] at hends
      rw [← hends]
      cases quote <;> rfl
    obtain ⟨hparts, hlast⟩ := ih hclean ht₂ hz hsees
    rw [valueParts_of_brace hc' hends' hsome]
    refine ⟨?_, hlast⟩
    obtain rfl : Expression.ofRaw (c.moved ['{'] ds).offset raw = e :=
      Option.some.inj (hexpression.symm.trans he)
    rw [List.map_cons, List.map_cons, hparts]
    rfl
  | case5 c d ds hrest hends hbrace text =>
    rename_i more ih
    obtain ⟨hsplit, -⟩ := rest_of_breakWhere c (endsValueText quote)
    obtain ⟨t₂, ht₂, -⟩ := reaches_valueParts quote text.2
    rw [show (text.2.valueParts quote).2.rest = z from hz] at ht₂
    obtain rfl : t = text.1 ++ t₂ := read_eq (hc.symm.trans hsplit) ht₂
    rw [List.append_assoc] at h
    obtain ⟨htext, hsees⟩ := h.breakWhere (looksAtTwo_endsValueText quote) ht₂
      (.inr (by simp [endsValueText, hend])) hhead
    obtain ⟨hparts, hlast⟩ := ih hclean ht₂ hz hsees
    -- the text begins with the character that the value goes on with
    obtain ⟨u, hu, hds⟩ := exists_breakWhere_cons hrest (show endsValueText quote (d :: ds) = false by
      simp [endsValueText, hends, hbrace])
    have hc' : c'.rest = d :: (u ++ (t₂ ++ z')) := by
      rw [h.rest, show text.1 = d :: u from hu]
      rfl
    have hends' : endsValue quote (d :: (u ++ (t₂ ++ z'))) = false := by
      rw [show (c.breakWhere (endsValueText quote)).2.rest = _ from ht₂] at hds
      rw [Bool.not_eq_true] at hends
      rw [← hends, hds]
      exact looksAtTwo_endsValue quote d _ _ (head?_append_congr (head?_append_congr hhead t₂) u)
    rw [valueParts_of_text hc' hends' hbrace]
    refine ⟨?_, hlast⟩
    rw [List.map_cons, List.map_cons, hparts, htext]
    rfl

/-- Without a fault a value is read up to its end. -/
theorem ends_valueParts (hclean : (c.valueParts quote).2.faults = []) :
    endsValue quote (c.valueParts quote).2.rest = true := by
  fun_induction Cursor.valueParts quote c with
  | case1 c hnil =>
    rw [hnil]
    rfl
  | case2 c d ds hrest hends =>
    rw [hrest]
    exact hends
  | case3 c ds hrest hends inside he =>
    obtain ⟨raw, -, -, hsome⟩ := rest_of_braced (c := c.moved ['{'] ds) hclean
    cases hsome.symm.trans he
  | case4 c ds e hrest hends inside he more ih => exact ih hclean
  | case5 c d ds hrest hends hbrace text more ih => exact ih hclean

/-- Whatever ends a name is still behind it, and no equals sign has come there. -/
structure Ready (z z' : List Char) : Prop where
  ends : endsName z = true → endsName z' = true ∧ z'.head? = z.head?
  slash : z.head? = some '/' → z'.head? = some '/'
  unequal : (z'.dropWhile isBlank).head? ≠ some '='

/-- An unquoted value still ends where the name of an attribute would. -/
theorem Ready.endsValue (h : Ready z z') (hz : endsValue none z = true) :
    Cursor.endsValue none z' = true ∧ z'.head? = z.head? := by
  obtain ⟨hends, hhead⟩ := h.ends (by
    cases z with
    | nil => rfl
    | cons d z =>
      simp only [Cursor.endsValue, Bool.or_eq_true] at hz
      simp only [endsName, Bool.or_eq_true]
      tauto)
  refine ⟨?_, hhead⟩
  cases z' with
  | nil => rfl
  | cons d' z' =>
    cases z with
    | nil => cases hhead
    | cons d z =>
      cases hhead
      simp only [Cursor.endsValue, endsName, Bool.or_eq_true, Bool.and_eq_true, beq_iff_eq] at hz hends ⊢
      rcases hz with hz | ⟨rfl, -⟩
      · exact .inl hz
      · exact .inr ⟨rfl, by simpa [isBlank] using hends⟩

/-- A value begins with a quote or not. -/
theorem quote_cases (c : Cursor) : (∀ q ∈ c.rest.head?, q ≠ '"' ∧ q ≠ '\'')
    ∨ ∃ q ds, c.rest = q :: ds ∧ (q = '"' ∨ q = '\'') := by
  cases c.rest with
  | nil => exact .inl fun q hq => nomatch hq
  | cons q ds =>
    by_cases hquote : q = '"' ∨ q = '\''
    · exact .inr ⟨q, ds, rfl, hquote⟩
    · left
      rintro q' ⟨⟩
      exact not_or.1 hquote

/-- A value in quotes. -/
theorem value_of_quote {q : Char} {ds : List Char} {r : Cursor} (hc : c.rest = q :: ds)
    (hq : q = '"' ∨ q = '\'') (hr : ((c.moved [q] ds).valueParts (some q)).2.eat? [q] = some r) :
    c.value = (.parts (if ((c.moved [q] ds).valueParts (some q)).1.isEmpty
      then [.text (.point ((c.moved [q] ds).valueParts (some q)).2.offset) ""]
      else ((c.moved [q] ds).valueParts (some q)).1), r) := by
  rw [value, hc]
  dsimp only
  rw [if_pos (by simpa using hq), hr]

/-- A value without quotes. -/
theorem value_of_not_quote (hc : ∀ q ∈ c.rest.head?, q ≠ '"' ∧ q ≠ '\'') : c.value = value.unquoted c := by
  rw [value]
  split
  · next d ds hrest =>
    have := hc d (by rw [hrest]; rfl)
    rw [if_neg (by simpa using this)]
  · rfl

/-- The value that some parts make without quotes. -/
def ofParts : List ValuePart → AttributeValue
  | [.expression span e] => .expression span e
  | ps => .parts ps

theorem unplaced_ofParts (ps : List ValuePart) :
    (ofParts ps).unplaced = ofParts (ps.map ValuePart.unplaced) := by
  cases ps with
  | nil => rfl
  | cons p ps => cases ps <;> cases p <;> rfl

theorem unquoted_of_ne_nil (h : (c.valueParts none).1 ≠ []) :
    value.unquoted c = (ofParts (c.valueParts none).1, (c.valueParts none).2) := by
  unfold value.unquoted
  dsimp only
  split
  · next span e heq => rw [heq, ofParts]
  · next heq => exact absurd heq h
  · next hone hnil =>
    cases hparts : (c.valueParts none).1 with
    | nil => exact absurd hparts h
    | cons p ps =>
      cases ps with
      | nil =>
        cases p with
        | text => rfl
        | expression span e => exact absurd hparts (hone span e)
      | cons => cases p <;> rfl

/-- Without a fault an unquoted value has parts. -/
theorem ne_nil_of_unquoted (hclean : (value.unquoted c).2.faults = []) : (c.valueParts none).1 ≠ [] := by
  intro hnil
  unfold value.unquoted at hclean
  dsimp only at hclean
  rw [hnil] at hclean
  cases hclean

/-- Without a fault a value is not empty. -/
theorem length_value (hclean : c.value.2.faults = []) : c.value.2.rest.length < c.rest.length := by
  rcases quote_cases c with hquote | ⟨q, ds, hrest, hquote⟩
  · rw [value_of_not_quote hquote] at hclean ⊢
    have hne := ne_nil_of_unquoted hclean
    rw [unquoted_of_ne_nil hne] at hclean ⊢
    obtain ⟨t, ht, -⟩ := reaches_valueParts none c
    cases t with
    | nil =>
      have hends := ends_valueParts hclean
      rw [show (c.valueParts none).2.rest = c.rest from ht.symm] at hends
      exact absurd (congrArg Prod.fst (valueParts_of_ends hends)) hne
    | cons d t =>
      rw [ht]
      simp only [List.cons_append, List.length_cons, List.length_append]
      omega
  · have hinside := (reaches_valueParts (some q) (c.moved [q] ds)).length_le
    have hvalue : c.value.2.rest.length ≤ ds.length := by
      rw [value, hrest]
      dsimp only
      rw [if_pos (by simpa using hquote)]
      split
      · next r hr => exact Nat.le_trans (reaches_eat? hr).1.length_le hinside
      · exact hinside
    rw [hrest, List.length_cons]
    omega

/-- A value without quotes is read again. -/
theorem Sees.unquoted (hquote : ∀ q ∈ c.rest.head?, q ≠ '"' ∧ q ≠ '\'') (hclean : c.value.2.faults = [])
    (hc : c.rest = t ++ z) (hz : c.value.2.rest = z) (h : c'.Sees (t ++ z')) (hready : Ready z z') :
    c'.value.1.unplaced = c.value.1.unplaced ∧ c'.value.2.Sees z' := by
  rw [value_of_not_quote hquote] at hclean hz ⊢
  have hne := ne_nil_of_unquoted hclean
  rw [unquoted_of_ne_nil hne] at hclean hz ⊢
  have hends := ends_valueParts hclean
  rw [show (c.valueParts none).2.rest = z from hz] at hends
  obtain ⟨hends', hhead⟩ := hready.endsValue hends
  obtain ⟨hparts, hsees⟩ := h.valueParts hclean hc hz hends' hhead
  have hne' : (c'.valueParts none).1 ≠ [] := by
    intro hnil
    rw [hnil] at hparts
    exact hne (List.map_eq_nil_iff.1 hparts.symm)
  -- what was read is not empty, so the value begins with the same character
  have hquote' : ∀ q ∈ c'.rest.head?, q ≠ '"' ∧ q ≠ '\'' := by
    cases t with
    | nil => exact absurd (congrArg Prod.fst (valueParts_of_ends (by rw [hc]; exact hends))) hne
    | cons d t =>
      rw [h.rest]
      rw [hc] at hquote
      exact hquote
  rw [value_of_not_quote hquote', unquoted_of_ne_nil hne']
  refine ⟨?_, hsees⟩
  rw [unplaced_ofParts, unplaced_ofParts, hparts]

/-- A value in quotes is read again, whatever comes behind it. -/
theorem Sees.quoted {q : Char} {ds : List Char} (hrest : c.rest = q :: ds) (hquote : q = '"' ∨ q = '\'')
    (hclean : c.value.2.faults = []) (hc : c.rest = t ++ z) (hz : c.value.2.rest = z) (h : c'.Sees (t ++ z')) :
    c'.value.1.unplaced = c.value.1.unplaced ∧ c'.value.2.Sees z' := by
  cases hr : ((c.moved [q] ds).valueParts (some q)).2.eat? [q] with
  | none =>
    rw [Cursor.value, hrest] at hclean
    dsimp only at hclean
    rw [if_pos (by simpa using hquote), hr] at hclean
    cases hclean
  | some r =>
    rw [value_of_quote hrest hquote hr] at hclean hz ⊢
    obtain ⟨hafter, hfaults⟩ := rest_of_eat? hr
    rw [show r.rest = z from hz] at hafter
    obtain ⟨t₁, ht₁, -⟩ := reaches_valueParts (some q) (c.moved [q] ds)
    rw [hafter] at ht₁
    obtain rfl : t = (q :: t₁) ++ [q] := by
      refine read_eq (r := q :: z) ?_ rfl
      rw [← hc, hrest, show ds = _ from ht₁]
      rfl
    have hc' : c'.rest = q :: (t₁ ++ ([q] ++ z')) := by simp [h.rest]
    have hmoved : (c'.moved [q] (t₁ ++ ([q] ++ z'))).Sees _ := ⟨rfl, h.faults⟩
    have hends : Cursor.endsValue (some q) ([q] ++ z') = true := by simp [Cursor.endsValue]
    obtain ⟨hparts, hsees⟩ := hmoved.valueParts (by rw [← hfaults]; exact hclean) ht₁ hafter hends rfl
    have heat := eat?_of_append hsees.rest
    rw [value_of_quote hc' hquote heat]
    refine ⟨?_, rfl, hsees.faults⟩
    have hempty := congrArg List.isEmpty hparts
    rw [List.isEmpty_map, List.isEmpty_map] at hempty
    rw [hempty]
    split
    · rfl
    · exact congrArg AttributeValue.parts hparts

/-- A value is read again. -/
theorem Sees.value (hclean : c.value.2.faults = []) (hc : c.rest = t ++ z) (hz : c.value.2.rest = z)
    (h : c'.Sees (t ++ z')) (hready : Ready z z') :
    c'.value.1.unplaced = c.value.1.unplaced ∧ c'.value.2.Sees z' := by
  rcases quote_cases c with hquote | ⟨q, ds, hrest, hquote⟩
  · exact h.unquoted hquote hclean hc hz hready
  · exact h.quoted hrest hquote hclean hc hz

end Values

/-! ### One attribute -/

section Attributes

variable {c c' : Cursor} {t z z' : List Char} {a : Attribute}

/-- Without a fault every attribute is read. -/
theorem exists_of_attribute? (hclean : c.attribute?.2.faults = []) (hc : c.rest ≠ []) :
    ∃ a, c.attribute?.1 = some a := by
  cases hrest : c.rest with
  | nil => exact absurd hrest hc
  | cons d ds =>
    unfold attribute? at hclean ⊢
    rw [hrest] at hclean ⊢
    dsimp only at hclean ⊢
    by_cases hd : d = '{'
    · rw [if_pos hd] at hclean ⊢
      cases he : (c.moved [d] ds).braced.1 with
      | none =>
        rw [he] at hclean
        obtain ⟨raw, -, -, hsome⟩ := rest_of_braced (c := c.moved [d] ds) hclean
        cases hsome.symm.trans he
      | some e =>
        rw [he] at hclean
        dsimp only at hclean ⊢
        split
        · exact ⟨_, rfl⟩
        · next hnone =>
          rw [hnone] at hclean
          cases hclean
    · rw [if_neg hd] at hclean ⊢
      split
      · next hname =>
        rw [if_pos hname] at hclean
        cases hclean
      · split
        · exact ⟨_, rfl⟩
        · exact ⟨_, rfl⟩

theorem attribute?_of_brace {ds : List Char} {e : Expression} (hc : c.rest = '{' :: ds)
    (he : (c.moved ['{'] ds).braced.1 = some e)
    (ha : bracedAttribute ((c.moved ['{'] ds).braced.2.spanFrom c.offset) e = some a) :
    c.attribute? = (some a, (c.moved ['{'] ds).braced.2) := by
  rw [attribute?, hc]
  dsimp only
  rw [if_pos rfl, he]
  dsimp only
  rw [ha]

/-- A name without a value. -/
theorem attribute?_of_name (hc : ∀ d ∈ c.rest.head?, d ≠ '{') (hname : (c.breakWhere endsName).1 ≠ [])
    (heat : (c.breakWhere endsName).2.skipBlanks.eat? ['='] = none) :
    c.attribute? = (some (namedAttribute ((c.breakWhere endsName).2.spanFrom c.offset)
      (c.breakWhere endsName).1 .absent), (c.breakWhere endsName).2) := by
  rw [attribute?]
  split
  · next hnil =>
    rw [Cursor.breakWhere, hnil] at hname
    exact absurd rfl hname
  · next d ds hrest =>
    rw [if_neg (hc d (by rw [hrest]; rfl))]
    dsimp only
    rw [if_neg (by simpa using hname), heat]

/-- A name with a value. -/
theorem attribute?_of_value {r : Cursor} (hc : ∀ d ∈ c.rest.head?, d ≠ '{')
    (hname : (c.breakWhere endsName).1 ≠ [])
    (heat : (c.breakWhere endsName).2.skipBlanks.eat? ['='] = some r) :
    c.attribute? = (some (namedAttribute (r.skipBlanks.value.2.spanFrom c.offset)
      (c.breakWhere endsName).1 r.skipBlanks.value.1), r.skipBlanks.value.2) := by
  rw [attribute?]
  split
  · next hnil =>
    rw [Cursor.breakWhere, hnil] at hname
    exact absurd rfl hname
  · next d ds hrest =>
    rw [if_neg (hc d (by rw [hrest]; rfl))]
    dsimp only
    rw [if_neg (by simpa using hname), heat]

/-- How an attribute was read. -/
inductive Written (c : Cursor) (a : Attribute) : Prop where
  | brace (ds : List Char) (e : Expression) (hc : c.rest = '{' :: ds)
    (he : (c.moved ['{'] ds).braced.1 = some e)
    (ha : bracedAttribute ((c.moved ['{'] ds).braced.2.spanFrom c.offset) e = some a)
  | name (hc : ∀ d ∈ c.rest.head?, d ≠ '{') (hname : (c.breakWhere endsName).1 ≠ [])
    (heat : (c.breakWhere endsName).2.skipBlanks.eat? ['='] = none)
    (ha : a = namedAttribute ((c.breakWhere endsName).2.spanFrom c.offset) (c.breakWhere endsName).1 .absent)
  | value (r : Cursor) (hc : ∀ d ∈ c.rest.head?, d ≠ '{') (hname : (c.breakWhere endsName).1 ≠ [])
    (heat : (c.breakWhere endsName).2.skipBlanks.eat? ['='] = some r)
    (ha : a = namedAttribute (r.skipBlanks.value.2.spanFrom c.offset) (c.breakWhere endsName).1
      r.skipBlanks.value.1)

theorem written_of_attribute? (ha : c.attribute?.1 = some a) : Written c a := by
  unfold attribute? at ha
  split at ha
  · cases ha
  · next d ds hrest =>
    split at ha
    · next hd =>
      subst hd
      dsimp only at ha
      split at ha
      · cases ha
      · next e he =>
        split at ha
        · next a' ha' =>
          cases ha
          exact .brace ds e hrest he ha'
        · cases ha
    · next hd =>
      have hc : ∀ d ∈ c.rest.head?, d ≠ '{' := by
        intro d' hd'
        rw [hrest] at hd'
        cases hd'
        exact hd
      dsimp only at ha
      split at ha
      · cases ha
      · next hname =>
        have hname : (c.breakWhere endsName).1 ≠ [] := by simpa using hname
        split at ha
        · next r heat =>
          cases ha
          exact .value r hc hname heat rfl
        · next heat =>
          cases ha
          exact .name hc hname heat rfl

theorem endsName_of_name (hname : (c.breakWhere endsName).1 ≠ []) : endsName c.rest = false := by
  rw [← Bool.not_eq_true]
  intro hends
  apply hname
  cases hc : c.rest with
  | nil => simp [Cursor.breakWhere, hc, Text.breakWhere]
  | cons d ds =>
    rw [hc] at hends
    simp [Cursor.breakWhere, hc, Text.breakWhere, hends]

/-- An attribute begins with a brace or with a character of its name. -/
theorem Written.begins (h : Written c a) :
    (∃ ds, c.rest = '{' :: ds) ∨ endsName c.rest = false := by
  cases h with
  | brace ds e hc => exact .inl ⟨ds, hc⟩
  | name _ hname => exact .inr (endsName_of_name hname)
  | value _ _ hname => exact .inr (endsName_of_name hname)

/-- An attribute with a name is a normal one or a directive. -/
theorem namedAttribute_cases (span : Span) (name : List Char) (value : AttributeValue) :
    namedAttribute span name value = .normal span (String.ofList name) value
      ∨ ∃ kind sub modifiers v, namedAttribute span name value = .directive span kind sub modifiers v := by
  unfold namedAttribute
  dsimp only
  split
  · exact .inl rfl
  · split
    · exact .inl rfl
    · exact .inr ⟨_, _, _, _, rfl⟩

/-- The name of a normal attribute is what was read first. -/
theorem Written.toList_name {span : Span} {name : String} {value : AttributeValue}
    (h : Written c (.normal span name value)) :
    (c.breakWhere endsName).1 ≠ [] ∧ name.toList = (c.breakWhere endsName).1 := by
  have of_name : ∀ {s : Span} {v : AttributeValue}, .normal span name value = namedAttribute s (c.breakWhere endsName).1 v →
      name.toList = (c.breakWhere endsName).1 := by
    intro s v ha
    rcases namedAttribute_cases s (c.breakWhere endsName).1 v with h | ⟨_, _, _, _, h⟩ <;> rw [h] at ha
    · cases ha
      exact String.toList_ofList
    · cases ha
  cases h with
  | brace ds e hc he ha =>
    unfold bracedAttribute at ha
    dsimp only at ha
    split at ha
    · cases ha
    · cases ha
    · split at ha <;> cases ha
  | name hc hname _ ha => exact ⟨hname, of_name ha⟩
  | value _ hc hname _ ha => exact ⟨hname, of_name ha⟩

/-- A normal attribute begins with its name. -/
theorem Written.of_normal {span : Span} {name : String} {value : AttributeValue}
    (h : Written c (.normal span name value)) :
    endsName c.rest = false ∧ name.toList.head? = c.rest.head? := by
  obtain ⟨hne, hname⟩ := h.toList_name
  refine ⟨endsName_of_name hne, ?_⟩
  rw [hname, (rest_of_breakWhere c endsName).1, List.head?_append_of_ne_nil _ hne]

theorem looksAtTwo_endsName : LooksAtTwo endsName := by
  intro d cs cs' h
  simp only [endsName, h]

theorem eat?_eq_none_iff {d : Char} : c.eat? [d] = none ↔ c.rest.head? ≠ some d := by
  rw [eat?, Option.map_eq_none_iff]
  cases c.rest with
  | nil => simp [strip?]
  | cons e ds => simp [strip?, eq_comm]

/-- Blanks end a name, and so does the equals sign. -/
theorem endsName_equals {blanks : List Char} (h : Blank blanks) (rest : List Char) :
    endsName (blanks ++ '=' :: rest) = true := by
  cases blanks with
  | nil => simp [endsName]
  | cons b blanks => simp [endsName, h b (List.mem_cons_self ..)]

theorem head?_ne_of_append {d : Char} (hc : c.rest = t ++ z) (ht : t ≠ [])
    (h : c'.rest = t ++ z') (hd : ∀ e ∈ c.rest.head?, e ≠ d) : ∀ e ∈ c'.rest.head?, e ≠ d := by
  cases t with
  | nil => exact absurd rfl ht
  | cons e t =>
    rw [hc] at hd
    rw [h]
    exact hd

/-- An attribute is read, apart from its place, and what is left is the given text. -/
def GivesAttribute (c : Cursor) (a : Attribute) (z : List Char) : Prop :=
  ∃ a', c.attribute?.1 = some a' ∧ a'.unplaced = a.unplaced ∧ c.attribute?.2.Sees z

/-- An attribute in braces is what its text says. -/
theorem Sees.gives_braced {raw : List Char} (hraw : Embedded.Closed raw)
    (ha : ∀ span o, ∃ a', bracedAttribute span (.ofRaw o raw) = some a' ∧ a'.unplaced = a.unplaced)
    (h : c.Sees ('{' :: (raw ++ '}' :: z))) : c.GivesAttribute a z := by
  have hmoved : (c.moved ['{'] (raw ++ '}' :: z)).Sees _ := ⟨rfl, h.faults⟩
  obtain ⟨hsome, hsees⟩ := hmoved.braced hraw
  obtain ⟨a', ha', hsame⟩ := ha _ _
  rw [GivesAttribute, attribute?_of_brace h.rest hsome ha']
  exact ⟨a', rfl, hsame, hsees⟩

/-- A name without a value, where no equals sign follows. -/
theorem Sees.gives_bare {name : List Char} (span : Span) (hname : Text.breakWhere endsName (name ++ z) = (name, z))
    (hne : name ≠ []) (hfirst : ∀ d ∈ c.rest.head?, d ≠ '{') (hunequal : (z.dropWhile isBlank).head? ≠ some '=')
    (h : c.Sees (name ++ z)) : c.GivesAttribute (namedAttribute span name .absent) z := by
  have hbreak := breakWhere_of_append h.rest hname
  have heat : (c.moved name z).skipBlanks.eat? ['='] = none := eat?_eq_none_iff.2 hunequal
  have hattribute := attribute?_of_name hfirst (by rw [hbreak]; exact hne) (by rw [hbreak]; exact heat)
  rw [hbreak] at hattribute
  rw [GivesAttribute, hattribute]
  exact ⟨_, rfl, unplaced_namedAttribute _ _ _ rfl, rfl, h.faults⟩

/-- A name with a value, where blanks may stand on both sides of the equals sign. -/
theorem Sees.gives_valued {name blanks more rest : List Char} {v : AttributeValue} (span : Span)
    (hname : Text.breakWhere endsName (name ++ (blanks ++ (['='] ++ (more ++ rest)))) =
      (name, blanks ++ (['='] ++ (more ++ rest))))
    (hne : name ≠ []) (hfirst : ∀ d ∈ c.rest.head?, d ≠ '{') (hblanks : Blank blanks) (hmore : Blank more)
    (hrest : ∀ d ∈ rest.head?, isBlank d = false) (h : c.Sees (name ++ (blanks ++ (['='] ++ (more ++ rest)))))
    (hvalue : ∀ c₁ : Cursor, c₁.Sees rest → c₁.value.1.unplaced = v.unplaced ∧ c₁.value.2.Sees z) :
    c.GivesAttribute (namedAttribute span name v) z := by
  have hbreak := breakWhere_of_append h.rest hname
  have hequal : (c.moved name (blanks ++ (['='] ++ (more ++ rest)))).Sees _ := ⟨rfl, h.faults⟩
  have hequal := hequal.skipBlanks hblanks (by simp [isBlank])
  have heat := eat?_of_append hequal.rest
  have hbehind : ((c.moved name (blanks ++ (['='] ++ (more ++ rest)))).skipBlanks.moved ['='] (more ++ rest)).Sees
      (more ++ rest) := ⟨rfl, hequal.faults⟩
  obtain ⟨hsame, hlast⟩ := hvalue _ (hbehind.skipBlanks hmore hrest)
  have hattribute := attribute?_of_value hfirst (by rw [hbreak]; exact hne) (by rw [hbreak]; exact heat)
  rw [hbreak] at hattribute
  rw [GivesAttribute, hattribute]
  exact ⟨_, rfl, unplaced_namedAttribute _ _ _ hsame, hlast⟩

/-- An attribute is read again. -/
theorem Sees.attribute? (hclean : c.attribute?.2.faults = []) (ha : c.attribute?.1 = some a)
    (hc : c.rest = t ++ z) (hz : c.attribute?.2.rest = z) (h : c'.Sees (t ++ z')) (hready : Ready z z') :
    c'.GivesAttribute a z' := by
  cases written_of_attribute? ha with
  | brace ds e hbrace he hbraced =>
    rw [attribute?_of_brace hbrace he hbraced] at hclean hz
    obtain ⟨raw, hraw, hrest, hexpression⟩ := rest_of_braced hclean
    obtain rfl : t = '{' :: raw ++ ['}'] := by
      refine read_eq (r := '}' :: z) ?_ rfl
      rw [← hc, hbrace, show ds = _ from hrest, hz]
      rfl
    refine Sees.gives_braced hraw (fun span o => ?_) (by simpa using h)
    obtain rfl := Option.some.inj (hexpression.symm.trans he)
    have hunplaced := unplaced_bracedAttribute ((c.moved ['{'] ds).braced.2.spanFrom c.offset) span
      (show (Expression.ofRaw o raw).text = (Expression.ofRaw (c.moved ['{'] ds).offset raw).text from rfl)
    rw [hbraced] at hunplaced
    exact Option.map_eq_some_iff.1 hunplaced
  | name hfirst hname heat ha' =>
    rw [attribute?_of_name hfirst hname heat] at hclean hz
    obtain ⟨hsplit, hbreak⟩ := rest_of_breakWhere c endsName
    rw [show (c.breakWhere endsName).2.rest = z from hz] at hsplit hbreak
    obtain rfl : t = (c.breakWhere endsName).1 := List.append_cancel_right (hc.symm.trans hsplit)
    have hends : endsName z = true := by
      rcases (breakWhere_append_iff.1 hbreak).1 with rfl | hends
      · rfl
      · exact hends
    obtain ⟨hends', hhead⟩ := hready.ends hends
    rw [ha']
    exact h.gives_bare _ (looksAtTwo_endsName.breakWhere hbreak hhead (.inr hends')) hname
      (head?_ne_of_append hc hname h.rest hfirst) hready.unequal
  | value r hfirst hname heat ha' =>
    rw [attribute?_of_value hfirst hname heat] at hclean hz
    obtain ⟨hsplit, hbreak⟩ := rest_of_breakWhere c endsName
    obtain ⟨blanks, hblanks, hbefore, -⟩ := rest_of_skipBlanks (c.breakWhere endsName).2
    obtain ⟨hequals, -⟩ := rest_of_eat? heat
    obtain ⟨more, hmore, hafter, hfirst'⟩ := rest_of_skipBlanks r
    obtain ⟨text, htext, -⟩ := reaches_value r.skipBlanks
    have hlt := length_value hclean
    rw [show r.skipBlanks.value.2.rest = z from hz] at htext hlt
    rw [hequals, hafter, htext] at hbefore
    obtain ⟨d, u, rfl⟩ : ∃ d u, text = d :: u := by
      refine List.exists_cons_of_ne_nil ?_
      rintro rfl
      rw [htext] at hlt
      exact Nat.lt_irrefl _ hlt
    rw [hbefore] at hsplit hbreak
    obtain rfl : t = (c.breakWhere endsName).1 ++ (blanks ++ (['='] ++ (more ++ d :: u))) := by
      refine List.append_cancel_right (hc.symm.trans (hsplit.trans ?_))
      simp only [List.append_assoc]
    simp only [List.append_assoc] at h
    have hhead : (blanks ++ (['='] ++ (more ++ (d :: u ++ z')))).head? =
        (blanks ++ (['='] ++ (more ++ (d :: u ++ z)))).head? := by
      cases blanks <;> rfl
    have hfirst₁ := head?_ne_of_append (hc.trans (List.append_assoc ..)) hname h.rest hfirst
    rw [htext] at hfirst'
    rw [ha']
    exact h.gives_valued _ (looksAtTwo_endsName.breakWhere hbreak hhead (.inr (endsName_equals hblanks _))) hname
      hfirst₁ hblanks hmore hfirst' fun c₁ hc₁ => hc₁.value hclean htext hz hready

/-- No attribute is read at the end of a tag. -/
theorem not_endsAttributes (ha : c.attribute?.1 = some a) : c.endsAttributes = false := by
  have hends := (written_of_attribute? ha).begins
  rw [← Bool.not_eq_true]
  intro h
  simp only [endsAttributes, atEnd, startsWith, Bool.or_eq_true, List.isEmpty_iff, startsWith_iff] at h
  rcases h with (hnil | hcloses) | hcloses
  · rw [hnil] at hends
    rcases hends with ⟨ds, hc⟩ | hends
    · cases hc
    · cases hends
  · obtain ⟨rest, hc⟩ := hcloses
    rw [← hc] at hends
    simp [endsName] at hends
  · obtain ⟨rest, hc⟩ := hcloses
    rw [← hc] at hends
    simp [endsName] at hends

theorem attributes_of_some (ha : c.skipBlanks.attribute?.1 = some a) :
    c.attributes = (a :: c.skipBlanks.attribute?.2.attributes.1, c.skipBlanks.attribute?.2.attributes.2) := by
  rw [attributes, dif_neg (by rw [not_endsAttributes ha]; exact Bool.false_ne_true)]
  dsimp only
  rw [ha]
  rfl

theorem attributes_of_ends (h : c.skipBlanks.endsAttributes = true) : c.attributes = ([], c.skipBlanks) := by
  rw [attributes, dif_pos h]

/-- Blanks before attributes do not matter. -/
theorem attributes_moved {blanks : List Char} (hblanks : Blank blanks) (hc : c.rest = blanks ++ z) :
    (c.moved blanks z).attributes = c.attributes := by
  have hskip : (c.moved blanks z).skipBlanks = c.skipBlanks := by
    have htake : c.rest.takeWhile isBlank = blanks ++ z.takeWhile isBlank := by
      rw [hc, List.takeWhile_append_of_pos hblanks]
    have hdrop : c.rest.dropWhile isBlank = z.dropWhile isBlank := by
      rw [hc, List.dropWhile_append_of_pos hblanks]
    simp only [skipBlanks, takeWhile, htake, hdrop, moved, width_append, Nat.add_assoc]
  rw [attributes, hskip]
  conv_rhs => rw [attributes]

end Attributes

end Cursor

end Restyle.Markup
