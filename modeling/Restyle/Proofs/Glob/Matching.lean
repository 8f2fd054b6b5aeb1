import Restyle.Glob.Match

/-! What a glob matches. The match marks positions of the text, one pass for each token, from the end of the pattern on.
Here the texts that each token stands for are told one by one, and a position is marked if and only if such a text leads
from it to a mark of what follows; so a glob matches a text if its tokens stand for the parts of the text in order. -/

namespace Restyle

namespace Glob

mutual

/-- The texts that a token stands for. -/
inductive Matches : GlobToken → Bytes → Prop where
  | literal (c : Char) : Matches (.literal c) (String.utf8EncodeChar c)
  | any (b : UInt8) : Matches .any [b]
  | star (bs : Bytes) : Matches .star bs
  | noDirectories : Matches .directories []
  | directories (bs : Bytes) : Matches .directories (bs ++ [slash])
  | descendants (bs : Bytes) : Matches .descendants (slash :: bs)
  | between {bs : Bytes} : Matches .directories bs → Matches .between (slash :: bs)
  | charClass {negated : Bool} {ranges : List (Char × Char)} {b : UInt8} :
    classHas negated ranges b = true → Matches (.charClass negated ranges) [b]
  /-- Alternatives that are all empty stand for nothing; beside others an empty one does not count. -/
  | void {branches : List (List GlobToken)} : allVoid branches = true → Matches (.alternatives branches) []
  | branch {branches : List (List GlobToken)} {tokens : List GlobToken} {bs : Bytes} :
    tokens ∈ branches → allVoidIn tokens = false → MatchesAll tokens bs → Matches (.alternatives branches) bs

/-- The texts that tokens stand for, one after the other. -/
inductive MatchesAll : List GlobToken → Bytes → Prop where
  | nil : MatchesAll [] []
  | cons {t : GlobToken} {ts : List GlobToken} {as bs : Bytes} :
    Matches t as → MatchesAll ts bs → MatchesAll (t :: ts) (as ++ bs)

end

section Marks

variable {bs : Bytes} {ms ms' : List Bool} {i : Nat} {P Q : Bytes → Prop}

/-- From a position a text leads to a mark. -/
def Leads (bs : Bytes) (ms : List Bool) (P : Bytes → Prop) (i : Nat) : Prop :=
  ∃ as, as <+: bs.drop i ∧ P as ∧ ms[i + as.length]? = some true

theorem Leads.congr (h : ∀ as, P as ↔ Q as) : Leads bs ms P i ↔ Leads bs ms Q i := by
  simp only [Leads, h]

theorem leads_or : Leads bs ms (fun as => P as ∨ Q as) i ↔ Leads bs ms P i ∨ Leads bs ms Q i := by
  constructor
  · rintro ⟨as, has, h | h, hm⟩
    · exact .inl ⟨as, has, h, hm⟩
    · exact .inr ⟨as, has, h, hm⟩
  · rintro (⟨as, has, h, hm⟩ | ⟨as, has, h, hm⟩)
    · exact ⟨as, has, .inl h, hm⟩
    · exact ⟨as, has, .inr h, hm⟩

theorem leads_nil (bs : Bytes) : Leads bs ms (· = []) i ↔ ms[i]? = some true := by
  constructor
  · rintro ⟨_, -, rfl, hm⟩
    exact hm
  · exact fun hm => ⟨[], List.nil_prefix, rfl, hm⟩

/-- A text leads to a position from which another one leads on. -/
theorem leads_append (h : ∀ i, ms'[i]? = some true ↔ Leads bs ms Q i) :
    Leads bs ms' P i ↔ Leads bs ms (fun as => ∃ first rest, as = first ++ rest ∧ P first ∧ Q rest) i := by
  constructor
  · rintro ⟨first, hfirst, hp, hm⟩
    obtain ⟨rest, hrest, hq, hm⟩ := (h _).1 hm
    refine ⟨first ++ rest, ?_, ⟨first, rest, rfl, hp, hq⟩, by simpa [Nat.add_assoc] using hm⟩
    obtain ⟨tail, htail⟩ := hfirst
    rw [← List.drop_drop, ← htail, List.drop_left] at hrest
    rw [← htail]
    exact (List.prefix_append_right_inj first).2 hrest
  · rintro ⟨_, has, ⟨first, rest, rfl, hp, hq⟩, hm⟩
    refine ⟨first, (List.prefix_append first rest).trans has, hp, (h _).2 ⟨rest, ?_, hq, ?_⟩⟩
    · obtain ⟨tail, htail⟩ := has
      rw [← List.drop_drop, ← htail, List.append_assoc, List.drop_left]
      exact List.prefix_append rest tail
    · simpa [Nat.add_assoc] using hm

/-! The four passes over the text. -/

@[simp] theorem length_endMark (bs : Bytes) : (endMark bs).length = bs.length + 1 := by
  induction bs <;> simp_all [endMark]

@[simp] theorem length_step (accepts : UInt8 → Bool) (bs : Bytes) (ms : List Bool) :
    (step accepts bs ms).length = bs.length + 1 := by
  induction bs generalizing ms <;> simp_all [step]

@[simp] theorem length_atOrBefore (ms : List Bool) : (atOrBefore ms).length = ms.length := by
  induction ms <;> simp_all [atOrBefore]

@[simp] theorem length_beforeSlash (bs : Bytes) (ms : List Bool) : (beforeSlash bs ms).length = bs.length + 1 := by
  induction bs generalizing ms <;> simp_all [beforeSlash]

theorem length_either (h : ms.length = ms'.length) : (either ms ms').length = ms'.length := by
  simp [either, h]

theorem getElem?_either (h : ms.length = ms'.length) :
    (either ms ms')[i]? = some true ↔ ms[i]? = some true ∨ ms'[i]? = some true := by
  have hsame : ms[i]? = none ↔ ms'[i]? = none := by rw [List.getElem?_eq_none_iff, List.getElem?_eq_none_iff, h]
  rw [either, List.getElem?_zipWith]
  cases hi : ms[i]? <;> cases hi' : ms'[i]? <;> simp_all

theorem singleton_prefix_drop {b : UInt8} : [b] <+: bs.drop i ↔ bs[i]? = some b := by
  rw [← List.head?_drop, List.singleton_prefix_iff_head?_eq_some]

theorem step_iff {accepts : UInt8 → Bool} :
    (step accepts bs ms)[i]? = some true ↔ Leads bs ms (fun as => ∃ b, as = [b] ∧ accepts b = true) i := by
  rw [getElem?_step]
  constructor
  · rintro ⟨b, hb, haccepts, hm⟩
    exact ⟨[b], singleton_prefix_drop.2 hb, ⟨b, rfl, haccepts⟩, hm⟩
  · rintro ⟨_, has, ⟨b, rfl, haccepts⟩, hm⟩
    exact ⟨b, singleton_prefix_drop.1 has, haccepts, hm⟩

/-- A text of a length that there is room for. -/
theorem exists_prefix_drop (hms : ms.length = bs.length + 1) {j : Nat} (hle : i ≤ j) (hj : ms[j]? = some true) :
    ∃ as, as <+: bs.drop i ∧ i + as.length = j := by
  have hlt := (List.getElem?_eq_some_iff.1 hj).1
  refine ⟨(bs.drop i).take (j - i), List.take_prefix _ _, ?_⟩
  rw [List.length_take, List.length_drop]
  omega

theorem atOrBefore_iff (hms : ms.length = bs.length + 1) :
    (atOrBefore ms)[i]? = some true ↔ Leads bs ms (fun _ => True) i := by
  rw [getElem?_atOrBefore]
  constructor
  · rintro ⟨j, hle, hm⟩
    obtain ⟨as, has, rfl⟩ := exists_prefix_drop hms hle hm
    exact ⟨as, has, trivial, hm⟩
  · rintro ⟨as, -, -, hm⟩
    exact ⟨_, Nat.le_add_right i as.length, hm⟩

theorem beforeSlash_iff (hms : ms.length = bs.length + 1) :
    (beforeSlash bs ms)[i]? = some true ↔ Leads bs ms (fun as => ∃ front, as = front ++ [slash]) i := by
  rw [getElem?_beforeSlash]
  constructor
  · rintro ⟨j, hle, hslash, hm⟩
    obtain ⟨as, has, hj⟩ := exists_prefix_drop hms (Nat.le_succ_of_le hle) hm
    obtain ⟨tail, htail⟩ := has
    have hlast : as.getLast? = some slash := by
      have hget : (bs.drop i)[j - i]? = some slash := by rw [List.getElem?_drop, Nat.add_sub_cancel' hle, hslash]
      rw [← htail, List.getElem?_append_left (by omega)] at hget
      rw [List.getLast?_eq_getElem?, show as.length - 1 = j - i by omega, hget]
    obtain ⟨front, rfl⟩ := List.getLast?_eq_some_iff.1 hlast
    exact ⟨front ++ [slash], ⟨tail, htail⟩, ⟨front, rfl⟩, hj ▸ hm⟩
  · rintro ⟨_, ⟨tail, htail⟩, ⟨front, rfl⟩, hm⟩
    refine ⟨i + front.length, Nat.le_add_right i _, ?_, by simpa [Nat.add_assoc] using hm⟩
    rw [← List.getElem?_drop, ← htail]
    simp

theorem literal_iff (as : Bytes) : (as.foldr (fun a ms => step (· == a) bs ms) ms)[i]? = some true ↔
    Leads bs ms (· = as) i := by
  induction as generalizing i with
  | nil => exact (leads_nil bs).symm
  | cons a as ih =>
    rw [List.foldr_cons, step_iff, leads_append fun _ => ih]
    refine Leads.congr fun text => ?_
    constructor
    · rintro ⟨_, _, rfl, ⟨b, rfl, hb⟩, rfl⟩
      rw [beq_iff_eq.1 hb]
      rfl
    · rintro rfl
      exact ⟨[a], as, rfl, ⟨a, rfl, beq_self_eq_true a⟩, rfl⟩

end Marks

/-! ### Tokens -/

section Tokens

variable {c : Char} {negated : Bool} {ranges : List (Char × Char)} {t : GlobToken} {ts : List GlobToken}
  {branches : List (List GlobToken)} {as : Bytes}

theorem matches_literal_iff : Matches (.literal c) as ↔ as = String.utf8EncodeChar c := by
  constructor
  · rintro ⟨⟩
    rfl
  · rintro rfl
    exact .literal c

theorem matches_any_iff : Matches .any as ↔ ∃ b, as = [b] := by
  constructor
  · rintro (_ | ⟨b⟩)
    exact ⟨b, rfl⟩
  · rintro ⟨b, rfl⟩
    exact .any b

theorem matches_directories_iff : Matches .directories as ↔ as = [] ∨ ∃ front, as = front ++ [slash] := by
  constructor
  · rintro (_ | _ | _ | _ | ⟨front⟩)
    · exact .inl rfl
    · exact .inr ⟨front, rfl⟩
  · rintro (rfl | ⟨front, rfl⟩)
    · exact .noDirectories
    · exact .directories front

/-- Any directories in front of a mark, or none. -/
theorem directoryMarks_iff {bs : Bytes} {ms : List Bool} (h : ms.length = bs.length + 1) (i : Nat) :
    (either ms (beforeSlash bs ms))[i]? = some true ↔ Leads bs ms (Matches .directories) i := by
  rw [getElem?_either (h.trans (length_beforeSlash bs ms).symm), ← leads_nil bs, beforeSlash_iff h, ← leads_or]
  exact Leads.congr fun _ => matches_directories_iff.symm

theorem matches_charClass_iff :
    Matches (.charClass negated ranges) as ↔ ∃ b, as = [b] ∧ classHas negated ranges b = true := by
  constructor
  · intro h
    cases h with
    | charClass h => exact ⟨_, rfl, h⟩
  · rintro ⟨b, rfl, h⟩
    exact .charClass h

theorem matchesAll_nil_iff : MatchesAll [] as ↔ as = [] := by
  constructor
  · rintro ⟨⟩
    rfl
  · rintro rfl
    exact .nil

theorem matchesAll_cons_iff :
    MatchesAll (t :: ts) as ↔ ∃ first rest, as = first ++ rest ∧ Matches t first ∧ MatchesAll ts rest := by
  constructor
  · intro h
    cases h with
    | cons hfirst hrest => exact ⟨_, _, rfl, hfirst, hrest⟩
  · rintro ⟨first, rest, rfl, hfirst, hrest⟩
    exact .cons hfirst hrest

theorem allVoid_iff : allVoid branches = true ↔ ∀ tokens ∈ branches, allVoidIn tokens = true := by
  induction branches with
  | nil => simp [allVoid]
  | cons tokens branches ih => simp [allVoid, ih]

theorem matches_alternatives_iff : Matches (.alternatives branches) as ↔ (allVoid branches = true ∧ as = []) ∨
    ∃ tokens ∈ branches, allVoidIn tokens = false ∧ MatchesAll tokens as := by
  constructor
  · intro h
    cases h with
    | void h => exact .inl ⟨h, rfl⟩
    | branch hmem hnot h => exact .inr ⟨_, hmem, hnot, h⟩
  · rintro (⟨h, rfl⟩ | ⟨tokens, hmem, hnot, h⟩)
    · exact .void h
    · exact .branch hmem hnot h

end Tokens

mutual

theorem length_tokenMarks (bs : Bytes) : ∀ (t : GlobToken) {ms : List Bool}, ms.length = bs.length + 1 →
    (tokenMarks bs t ms).length = bs.length + 1
  | .literal c, ms, h => by
    rw [tokenMarks]
    generalize String.utf8EncodeChar c = as
    induction as with
    | nil => exact h
    | cons a as _ => exact length_step ..
  | .any, _, _ | .descendants, _, _ | .between, _, _ | .charClass _ _, _, _ => by
    rw [tokenMarks]
    exact length_step ..
  | .star, ms, h => by rw [tokenMarks, length_atOrBefore, h]
  | .directories, ms, h => by rw [tokenMarks, length_either] <;> simp [h]
  | .alternatives branches, ms, h => by
    rw [tokenMarks]
    split
    · exact h
    · exact length_branchMarks bs branches h

theorem length_marks (bs : Bytes) : ∀ (ts : List GlobToken) {ms : List Bool}, ms.length = bs.length + 1 →
    (marks bs ts ms).length = bs.length + 1
  | [], _, h => h
  | t :: ts, _, h => length_tokenMarks bs t (length_marks bs ts h)

theorem length_branchMarks (bs : Bytes) : ∀ (branches : List (List GlobToken)) {ms : List Bool},
    ms.length = bs.length + 1 → (branchMarks bs branches ms).length = bs.length + 1
  | [], ms, h => by simpa [branchMarks] using h
  | tokens :: rest, ms, h => by
    have hmarks := length_marks bs tokens h
    have hrest := length_branchMarks bs rest h
    rw [branchMarks]
    split
    · exact hrest
    · rw [length_either (hmarks.trans hrest.symm), hrest]

end

mutual

/-- The marks of a token are the positions from which a text that it stands for leads to a mark. -/
theorem tokenMarks_iff (bs : Bytes) : ∀ (t : GlobToken) {ms : List Bool}, ms.length = bs.length + 1 → ∀ i : Nat,
    (tokenMarks bs t ms)[i]? = some true ↔ Leads bs ms (Matches t) i
  | .literal c, ms, _, i => by
    rw [tokenMarks, literal_iff]
    exact Leads.congr fun _ => matches_literal_iff.symm
  | .any, ms, _, i => by
    rw [tokenMarks, step_iff]
    exact Leads.congr fun _ => by simp [matches_any_iff]
  | .star, ms, h, i => by
    rw [tokenMarks, atOrBefore_iff h]
    exact Leads.congr fun as => ⟨fun _ => .star as, fun _ => trivial⟩
  | .directories, ms, h, i => directoryMarks_iff h i
  | .descendants, ms, h, i => by
    rw [tokenMarks, step_iff, leads_append fun _ => atOrBefore_iff h]
    refine Leads.congr fun as => ⟨?_, ?_⟩
    · rintro ⟨_, rest, rfl, ⟨b, rfl, hb⟩, -⟩
      rw [beq_iff_eq.1 hb]
      exact .descendants rest
    · rintro ⟨⟩
      exact ⟨[slash], _, rfl, ⟨slash, rfl, rfl⟩, trivial⟩
  | .between, ms, h, i => by
    rw [tokenMarks, step_iff, leads_append (directoryMarks_iff h)]
    refine Leads.congr fun as => ⟨?_, ?_⟩
    · rintro ⟨_, rest, rfl, ⟨b, rfl, hb⟩, hrest⟩
      rw [beq_iff_eq.1 hb]
      exact .between hrest
    · intro hbetween
      cases hbetween with
      | between hrest => exact ⟨[slash], _, rfl, ⟨slash, rfl, rfl⟩, hrest⟩
  | .charClass negated ranges, ms, _, i => by
    rw [tokenMarks, step_iff]
    exact Leads.congr fun _ => matches_charClass_iff.symm
  | .alternatives branches, ms, h, i => by
    rw [tokenMarks]
    split
    · next hvoid =>
      rw [← leads_nil bs]
      refine Leads.congr fun as => ?_
      rw [matches_alternatives_iff]
      refine ⟨fun has => .inl ⟨hvoid, has⟩, ?_⟩
      rintro (⟨-, has⟩ | ⟨tokens, hmem, hnot, -⟩)
      · exact has
      · rw [allVoid_iff.1 hvoid tokens hmem] at hnot
        cases hnot
    · next hvoid =>
      rw [branchMarks_iff bs branches h]
      refine Leads.congr fun as => ?_
      rw [matches_alternatives_iff]
      exact ⟨.inr, fun h => h.resolve_left fun hleft => hvoid hleft.1⟩

/-- The marks of tokens are the positions from which texts that they stand for lead to a mark. -/
theorem marks_iff (bs : Bytes) : ∀ (ts : List GlobToken) {ms : List Bool}, ms.length = bs.length + 1 → ∀ i : Nat,
    (marks bs ts ms)[i]? = some true ↔ Leads bs ms (MatchesAll ts) i
  | [], ms, _, i => by
    rw [marks, ← leads_nil bs]
    exact Leads.congr fun _ => matchesAll_nil_iff.symm
  | t :: ts, ms, h, i => by
    rw [marks, tokenMarks_iff bs t (length_marks bs ts h), leads_append (marks_iff bs ts h)]
    exact Leads.congr fun _ => matchesAll_cons_iff.symm

theorem branchMarks_iff (bs : Bytes) : ∀ (branches : List (List GlobToken)) {ms : List Bool},
    ms.length = bs.length + 1 → ∀ i : Nat, (branchMarks bs branches ms)[i]? = some true ↔
      Leads bs ms (fun as => ∃ tokens ∈ branches, allVoidIn tokens = false ∧ MatchesAll tokens as) i
  | [], ms, _, i => by simp [branchMarks, Leads, List.getElem?_replicate]
  | tokens :: rest, ms, h, i => by
    have hmarks := length_marks bs tokens h
    have hrest := length_branchMarks bs rest h
    rw [branchMarks]
    split
    · next hvoid =>
      rw [branchMarks_iff bs rest h]
      exact Leads.congr fun as => by simp [hvoid]
    · next hvoid =>
      rw [getElem?_either (hmarks.trans hrest.symm), marks_iff bs tokens h, branchMarks_iff bs rest h, ← leads_or]
      exact Leads.congr fun as => by simp [hvoid]

end

/-- A glob matches a text if and only if its tokens stand for the parts of the text in order. Two stars alone match
every text. -/
theorem isMatch_iff (g : Glob) (text : String) :
    g.isMatch text = true ↔ g.tokens = [.directories] ∨ MatchesAll g.tokens text.toUTF8.toList := by
  have hwhole : ∀ (bs : Bytes) (ts : List GlobToken),
      (marks bs ts (endMark bs)).headD false = true ↔ MatchesAll ts bs := by
    intro bs ts
    rw [headD_eq_true_iff, marks_iff bs ts (length_endMark bs)]
    constructor
    · rintro ⟨as, has, h, hm⟩
      rw [getElem?_endMark, Nat.zero_add] at hm
      obtain rfl : as = bs := has.eq_of_length hm
      exact h
    · exact fun h => ⟨bs, List.prefix_rfl, h, getElem?_endMark.2 (Nat.zero_add _)⟩
  unfold isMatch
  split
  · next htokens => simp [htokens]
  · next hnot => rw [hwhole, or_iff_right hnot]

end Glob

end Restyle
