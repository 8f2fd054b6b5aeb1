import Restyle.Proofs.Markup.Branches
import Restyle.Proofs.Markup.Contents
import Restyle.Proofs.Offsets.Bodies
import Restyle.Proofs.Text.Words

/-! The first branch of an await block. A header is cut at its blanks, and the first of its words but one that is
a keyword tells which branch begins. It is not asked what such a word stands in: one inside of a string, a
comment or brackets tells the branch as well. For headers without such words the branch is the one that is
announced behind the promise. -/

namespace Restyle.Markup

open Text

/-- The keywords of an await block. -/
def awaitKeywords : List String := ["then", "catch"]

/-! ### Words of a header -/

/-- A keyword stands between the blanks of a header, behind at least one word, and no other one does before it. -/
structure FirstKeyword (header : List Char) (keyword : String) (before after : List Char) : Prop where
  isWord : IsWord header before keyword.toList after
  promise : words before ≠ []
  first : ∀ w ∈ (words before).tail, ∀ k ∈ awaitKeywords, w ≠ k.toList

/-- Behind a promise, and not in a string, a template, a comment or a bracket of it, stands the keyword. -/
inductive Announces (header : List Char) (keyword : String) : Prop where
  | mk {promise rest : List Char} {last : Char} : header = promise ++ (keyword.toList ++ rest) →
    Embedded.Body '(' promise last → Announces header keyword

section Headers

variable {header : Expression} {kind : BranchKind} {keyword : String}

/-- A word is found behind the first one if and only if it stands there and none is found before it. -/
theorem find?_tail_words {cs w : List Char} {test : List Char → Bool} :
    (words cs).tail.find? test = some w ↔ test w = true ∧ ∃ before after, IsWord cs before w after ∧
      words before ≠ [] ∧ ∀ u ∈ (words before).tail, test u = false := by
  rw [List.find?_eq_some_iff_append]
  refine and_congr_right fun _ => ⟨?_, ?_⟩
  · rintro ⟨ws, ws', hwords, hnone⟩
    cases hcs : words cs with
    | nil => simp [hcs] at hwords
    | cons u us =>
      rw [hcs, List.tail_cons] at hwords
      rw [hwords, ← List.cons_append] at hcs
      obtain ⟨before, after, hword, hbefore, -⟩ := exists_isWord hcs
      refine ⟨before, after, hword, by simp [hbefore], ?_⟩
      rw [hbefore]
      simpa using hnone
  · rintro ⟨before, after, hword, hne, hnone⟩
    obtain ⟨u, ws, hws⟩ := List.exists_cons_of_ne_nil hne
    rw [hword.words, hws]
    rw [hws] at hnone
    exact ⟨ws, words after, rfl, by simpa using hnone⟩

theorem isKeyword_iff {w : List Char} :
    (w = "then".toList || w = "catch".toList) = true ↔ ∃ k ∈ awaitKeywords, w = k.toList := by
  simp only [awaitKeywords, Bool.or_eq_true, decide_eq_true_eq, List.exists_mem_cons_iff, List.not_mem_nil, false_and,
    exists_false, or_false]

/-- The keyword in a header that tells the first branch. -/
def Expression.keyword? (header : Expression) : Option (List Char) :=
  (words header.text.toList).tail.find? fun w => w = "then".toList || w = "catch".toList

theorem firstKind_eq (header : Expression) : firstKind header = match header.keyword? with
    | none => .pending
    | some w => if w = "then".toList then .resolved else .failed := by
  unfold firstKind firstSlot Expression.keyword?
  cases (words header.text.toList).tail.find? fun w => w = "then".toList || w = "catch".toList with
  | none => rfl
  | some w =>
    dsimp only
    split <;> rfl

theorem keyword?_eq_some_iff : header.keyword? = some keyword.toList ↔
    keyword ∈ awaitKeywords ∧ ∃ before after, FirstKeyword header.text.toList keyword before after := by
  rw [Expression.keyword?, find?_tail_words, isKeyword_iff]
  simp only [← Bool.not_eq_true, isKeyword_iff, not_exists, not_and, String.toList_inj, exists_eq_right']
  refine and_congr_right fun _ => exists₂_congr fun before after => ?_
  exact ⟨fun h => ⟨h.1, h.2.1, h.2.2⟩, fun h => ⟨h.isWord, h.promise, h.first⟩⟩

theorem firstKind_eq_pending_iff : firstKind header = .pending ↔
    ∀ w ∈ (words header.text.toList).tail, ∀ k ∈ awaitKeywords, w ≠ k.toList := by
  have hnone : firstKind header = .pending ↔ header.keyword? = none := by
    rw [firstKind_eq]
    cases header.keyword? with
    | none => simp
    | some w =>
      dsimp only
      split <;> simp
  rw [hnone, Expression.keyword?, List.find?_eq_none]
  simp only [isKeyword_iff, not_exists, not_and, ne_eq]

/-- A block begins with the branch of a keyword if and only if that is the first one in its header. -/
theorem firstKind_eq_iff (hkeyword : kind.keyword? = some keyword) (hawait : keyword ∈ awaitKeywords) :
    firstKind header = kind ↔ ∃ before after, FirstKeyword header.text.toList keyword before after := by
  have hfound : firstKind header = kind ↔ header.keyword? = some keyword.toList := by
    rw [firstKind_eq]
    cases hw : header.keyword? with
    | none =>
      refine ⟨fun hkind => ?_, fun h => by cases h⟩
      rw [← hkind] at hkeyword
      cases hkeyword
    | some w =>
      have hw' : w = "then".toList ∨ w = "catch".toList := by
        simpa only [Bool.or_eq_true, decide_eq_true_eq] using List.find?_some hw
      cases kind with
      | resolved =>
        cases hkeyword
        rcases hw' with rfl | rfl <;> decide
      | failed =>
        cases hkeyword
        rcases hw' with rfl | rfl <;> decide
      | otherwise =>
        cases hkeyword
        exact absurd hawait (by decide)
      | first => cases hkeyword
      | pending => cases hkeyword
  rw [hfound, keyword?_eq_some_iff]
  exact and_iff_right hawait

theorem mem_awaitKeywords_of_firstKind (h : (firstKind header).keyword? = some keyword) : keyword ∈ awaitKeywords := by
  rw [firstKind_eq] at h
  split at h
  · cases h
  · split at h <;> cases h <;> decide

end Headers

/-- What is before a keyword that is announced is split off as an expression of its own. -/
theorem Announces.exists_split? {header : List Char} {keyword : String} (h : Announces header keyword) :
    ∃ k ≤ header.length, keyword.toList <+: header.drop k ∧
      Embedded.split? (header.take k ++ ['\x7d']) = some (header.take k, []) := by
  obtain ⟨rfl, hbody⟩ := h
  rename_i promise rest last
  refine ⟨promise.length, by simp, ?_, ?_⟩
  · rw [List.drop_left]
    exact List.prefix_append ..
  · rw [List.take_left]
    exact hbody.split? []

/-! ### Await blocks -/

/-- Only the first branch of a block can be one that no tag goes on to. -/
theorem Node.Spelled.branch?_eq {cs : List Char} {n : Node} {head : Head} {first : Branch} {rest : List Branch}
    (h : n.Spelled cs head (first :: rest)) {kind : BranchKind} (hkind : kind.keyword? = none) :
    n.branch? kind = if first.kind = kind then some first.content else none := by
  obtain ⟨hrow, -, -⟩ := h
  rw [hrow.kept]
  cases hrow.begins with
  | mk _ _ hmore =>
    have hlast : ∀ b ∈ first :: rest, b.kind = kind → b = first := by
      intro b hb hbkind
      rcases List.mem_cons.1 hb with rfl | hb
      · rfl
      · rw [← hbkind] at hkind
        exact absurd hkind (hmore b hb).keyword?_ne_none
    cases hlatest : latest (first :: rest) kind with
    | none =>
      have hnot : kind ∉ (first :: rest).map Branch.kind := by
        rw [← isSome_latest, hlatest]
        exact Bool.false_ne_true
      rw [if_neg fun hfirst => hnot (by simp [hfirst])]
    | some f =>
      obtain ⟨b, hb, hbkind, rfl⟩ := exists_of_latest hlatest
      obtain rfl := hlast b hb hbkind
      rw [if_pos hbkind]

/-- How an await block begins: with the branch of the first keyword in its header, if there is one, and else with
what is shown while the promise is pending. That is kept whatever branches follow. -/
structure Node.Awaits (cs : List Char) (n : Node) (header : Expression) (first : Branch) (rest : List Branch) :
    Prop where
  spelled : n.Spelled cs ⟨'#', "await", first.kind, false⟩ (first :: rest)
  pending : first.kind = .pending ↔ ∀ w ∈ (words header.text.toList).tail, ∀ k ∈ awaitKeywords, w ≠ k.toList
  resolved : first.kind = .resolved ↔ ∃ before after, FirstKeyword header.text.toList "then" before after
  failed : first.kind = .failed ↔ ∃ before after, FirstKeyword header.text.toList "catch" before after
  kept : n.branch? .pending = if first.kind = .pending then some first.content else none
  /-- If no keyword is inside of something, the one that tells the branch is announced behind the promise. -/
  announces : (∀ before after, ∀ keyword ∈ awaitKeywords, IsWord header.text.toList before keyword.toList after →
    ∃ last, Embedded.Body '(' before last) → ∀ keyword ∈ first.kind.keyword?, Announces header.text.toList keyword

/-- Every await block of a text without faults begins so. -/
theorem exists_awaits_read (source : String) (h : (read source).faults = []) :
    ∀ span header pending resolved failed,
      .awaitBlock span header pending resolved failed ∈ subnodes (read source).document.fragment.nodes →
        ∃ first rest, (Node.awaitBlock span header pending resolved failed).Awaits source.toList header first rest := by
  intro span header pending resolved failed hn
  obtain ⟨branches, hspelled⟩ := forall_subnodes (written_read h) _ hn _ rfl
  obtain ⟨hrow, -, -⟩ := id hspelled
  cases hrow.begins with
  | @mk first rest hkind _ _ =>
    have hfirst : first.kind = firstKind header := hkind
    refine ⟨first, rest, ?_, ?_, ?_, ?_, hspelled.branch?_eq rfl, fun hplain keyword hkeyword => ?_⟩
    · rw [hfirst]
      exact hspelled
    · rw [hfirst]
      exact firstKind_eq_pending_iff
    · rw [hfirst]
      exact firstKind_eq_iff rfl (by decide)
    · rw [hfirst]
      exact firstKind_eq_iff rfl (by decide)
    · rw [hfirst] at hkeyword
      have hawait := mem_awaitKeywords_of_firstKind hkeyword
      obtain ⟨before, after, hword, -, -⟩ := (firstKind_eq_iff hkeyword hawait).1 rfl
      obtain ⟨last, hbody⟩ := hplain before after keyword hawait hword
      exact .mk hword.eq hbody

/-- A page with an await block whose promise has a string with a keyword in it. -/
def quotedPage : String := "\x7b#await f(\"a then b\")\x7d<i/>\x7b:then v\x7d<b/>\x7b/await\x7d"

/-- The word in the string makes a branch for a result of what is shown while the promise is pending, and the branch
for the result takes its place: there is no pending branch, and its element is not among those of the page. -/
theorem pending_lost_quotedPage : (read quotedPage).faults = [] ∧
    (read quotedPage).document.fragment.nodes.map (fun n => (n.expressions.map Expression.text,
      (n.branch? .pending).map Fragment.span, (n.branch? .resolved).map Fragment.span)) =
        [(["f(\"a then b\")"], none, some ⟨35, 39⟩)] ∧
    (∀ keyword ∈ awaitKeywords, ¬Announces "f(\"a then b\")".toList keyword) ∧
    (read quotedPage).document.fragment.elements.map ElementView.name = ["b"] := by
  refine ⟨by decide +kernel, by decide +kernel, fun keyword hkeyword hannounces => ?_, by decide +kernel⟩
  have hnone : ∀ keyword ∈ awaitKeywords, ∀ k ≤ 13, keyword.toList <+: "f(\"a then b\")".toList.drop k →
      Embedded.split? ("f(\"a then b\")".toList.take k ++ ['\x7d']) ≠ some ("f(\"a then b\")".toList.take k, []) := by
    decide +kernel
  obtain ⟨k, hk, hword, hsplit⟩ := hannounces.exists_split?
  exact hnone keyword hkeyword k hk hword hsplit

end Restyle.Markup
