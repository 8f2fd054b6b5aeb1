import Mathlib.Data.List.DropRight
import Restyle.Proofs.Source.Spans
import Restyle.Text.Blank

/-! Texts that stand in a source. A text stands at an offset if that many bytes come before it; then the span
from the offset on, of the width of the text, has it as its slice. What is trimmed off a text leaves the
rest standing further right. -/

namespace Restyle

open Text

variable {cs t u : List Char} {o : Nat}

namespace Text

/-- The second text stands in the first one at an offset. -/
def Stands (cs : List Char) (o : Nat) (t : List Char) : Prop :=
  ∃ before after, cs = before ++ (t ++ after) ∧ width before = o

namespace Stands

theorem left (h : Stands cs o (t ++ u)) : Stands cs o t := by
  obtain ⟨before, after, rfl, rfl⟩ := h
  exact ⟨before, u ++ after, by simp, rfl⟩

theorem right (h : Stands cs o (t ++ u)) : Stands cs (o + width t) u := by
  obtain ⟨before, after, rfl, rfl⟩ := h
  exact ⟨before ++ t, after, by simp, by simp⟩

/-- What stands in a part of a text stands in the text. -/
theorem trans {o' : Nat} (h : Stands cs o t) (h' : Stands t o' u) : Stands cs (o + o') u := by
  obtain ⟨before, after, rfl, rfl⟩ := h
  obtain ⟨before', after', rfl, rfl⟩ := h'
  exact ⟨before ++ before', after' ++ after, by simp, width_append ..⟩

theorem isBoundary (h : Stands cs o t) : isBoundary cs o = true := by
  obtain ⟨before, after, rfl, rfl⟩ := h
  exact isBoundary_width_append ..

theorem slice? (h : Stands cs o t) : Text.slice? cs o (o + width t) = some t := by
  obtain ⟨before, after, rfl, rfl⟩ := h
  have hafter : after? (before ++ (t ++ after)) (width before) = some (t ++ after) := by
    rw [after?_eq_map_cut?, cut?_width_append]
    rfl
  have hinside : width before + width t - width before = width t := by omega
  rw [Text.slice?, hafter]
  simp [cut?_width_append, hinside]

end Stands

variable {lo mid hi : Nat}

/-- A slice stands where it begins, and ends where its width says. -/
theorem slice?_eq_some_iff : Text.slice? cs lo hi = some t ↔ Stands cs lo t ∧ hi = lo + width t := by
  constructor
  · intro h
    rw [Text.slice?, after?_eq_map_cut?] at h
    cases hstart : cut? cs lo with
    | none => simp [hstart] at h
    | some parts =>
      obtain ⟨before, rest⟩ := parts
      obtain ⟨hcs, hbefore⟩ := eq_append_of_cut? hstart
      rw [hstart] at h
      by_cases hle : lo ≤ hi
      · cases hstop : cut? rest (hi - lo) with
        | none => simp [hle, hstop] at h
        | some parts =>
          obtain ⟨inside, after⟩ := parts
          obtain ⟨hrest, hwidth⟩ := eq_append_of_cut? hstop
          obtain rfl : inside = t := by simpa [hle, hstop] using h
          exact ⟨⟨before, after, by rw [hcs, hrest], hbefore⟩, by omega⟩
      · simp [hle] at h
  · rintro ⟨h, rfl⟩
    exact h.slice?

/-- Two slices that meet make one. -/
theorem slice?_append (h : Text.slice? cs lo mid = some t) (h' : Text.slice? cs mid hi = some u) :
    Text.slice? cs lo hi = some (t ++ u) := by
  obtain ⟨⟨before, after, rfl, rfl⟩, rfl⟩ := slice?_eq_some_iff.1 h
  obtain ⟨⟨before', after', hcs, hwidth⟩, rfl⟩ := slice?_eq_some_iff.1 h'
  rw [← List.append_assoc, ← width_append] at *
  obtain ⟨rfl, rfl⟩ := append_inj_of_width hcs hwidth.symm
  exact slice?_eq_some_iff.2 ⟨⟨before, after', by simp, rfl⟩, by simp; omega⟩

/-- A slice in two parts is two slices. -/
theorem slice?_append_iff : Text.slice? cs lo hi = some (t ++ u) ↔
    Text.slice? cs lo (lo + width t) = some t ∧ Text.slice? cs (lo + width t) hi = some u := by
  constructor
  · intro h
    obtain ⟨hstands, rfl⟩ := slice?_eq_some_iff.1 h
    exact ⟨hstands.left.slice?, slice?_eq_some_iff.2 ⟨hstands.right, by rw [width_append, Nat.add_assoc]⟩⟩
  · rintro ⟨h, h'⟩
    exact slice?_append h h'

theorem slice?_self (h : Text.isBoundary cs lo = true) : Text.slice? cs lo lo = some [] := by
  obtain ⟨before, rest, rfl, rfl⟩ := isBoundary_iff.1 h
  exact slice?_eq_some_iff.2 ⟨⟨before, rest, rfl, rfl⟩, by simp⟩

/-- There is a slice between two boundaries. -/
theorem exists_slice? (hlo : Text.isBoundary cs lo = true) (hhi : Text.isBoundary cs hi = true) (hle : lo ≤ hi) :
    ∃ t, Text.slice? cs lo hi = some t := by
  obtain ⟨before, rest, rfl, rfl⟩ := isBoundary_iff.1 hlo
  obtain ⟨t, after, rfl, hwidth⟩ := exists_middle rfl hhi hle
  exact ⟨t, slice?_eq_some_iff.2 ⟨⟨before, after, rfl, rfl⟩, by omega⟩⟩

/-! ### Trimming -/

theorem trimRight_eq (cs : List Char) : trimRight cs = cs.rdropWhile isSpace := rfl

/-- What is trimmed stands between spaces. -/
theorem exists_trim (cs : List Char) : ∃ spaces, cs = cs.takeWhile isSpace ++ (trim cs ++ spaces) := by
  obtain ⟨spaces, hspaces⟩ := List.rdropWhile_prefix isSpace (l := trimLeft cs)
  refine ⟨spaces, ?_⟩
  rw [trim, trimRight_eq, hspaces]
  exact List.takeWhile_append_dropWhile.symm

theorem trimLeft_eq_self_iff : trimLeft cs = cs ↔ ∀ c ∈ cs.head?, isSpace c = false := by
  cases cs with
  | nil => simp [trimLeft]
  | cons c cs =>
    rw [trimLeft, List.dropWhile_cons]
    cases hc : isSpace c with
    | false => simp [hc]
    | true =>
      have hlen := (List.dropWhile_sublist isSpace (l := cs)).length_le
      simp only [if_true, List.head?_cons, Option.mem_some_iff, forall_eq', hc, Bool.true_eq_false, iff_false]
      intro heq
      have := congrArg List.length heq
      simp only [List.length_cons] at this
      omega

theorem trimRight_eq_self_iff : trimRight cs = cs ↔ ∀ c ∈ cs.getLast?, isSpace c = false := by
  rw [trimRight_eq, List.rdropWhile_eq_self_iff]
  constructor
  · intro h c hc
    obtain ⟨hne, rfl⟩ := List.mem_getLast?_eq_getLast hc
    simpa using h hne
  · intro h hne
    simpa using h _ (List.getLast?_eq_some_getLast hne)

/-- A text is trimmed if it neither begins nor ends with a space. -/
theorem trim_eq_self_iff : trim cs = cs ↔
    (∀ c ∈ cs.head?, isSpace c = false) ∧ ∀ c ∈ cs.getLast?, isSpace c = false := by
  rw [← trimLeft_eq_self_iff, ← trimRight_eq_self_iff]
  constructor
  · intro h
    have hright := (List.rdropWhile_prefix isSpace (l := trimLeft cs)).length_le
    have hleft := (List.dropWhile_sublist isSpace (l := cs)).length_le
    rw [← trimRight_eq, show trimRight (trimLeft cs) = cs from h] at hright
    have hself : trimLeft cs = cs := (List.dropWhile_suffix isSpace).eq_of_length (by unfold trimLeft at hright; omega)
    exact ⟨hself, by rwa [trim, hself] at h⟩
  · rintro ⟨hleft, hright⟩
    rw [trim, hleft, hright]

theorem trim_cons {c : Char} (h : isSpace c = true) (cs : List Char) : trim (c :: cs) = trim cs := by
  rw [trim, trimLeft, List.dropWhile_cons_of_pos h]
  rfl

theorem trim_append_of_spaces {spaces : List Char} (h : ∀ c ∈ spaces, isSpace c = true) (cs : List Char) :
    trim (spaces ++ cs) = trim cs := by
  induction spaces with
  | nil => rfl
  | cons c spaces ih =>
    rw [List.cons_append, trim_cons (h c (List.mem_cons_self ..))]
    exact ih fun d hd => h d (List.mem_cons_of_mem c hd)

/-- A text before a trimmed text is part of it if no space stands at its ends. -/
theorem trim_append_of_trimmed (before : List Char) (h : trim cs = cs) (hbefore : before ≠ [])
    (hhead : ∀ c ∈ before.head?, isSpace c = false) (hlast : cs = [] → ∀ c ∈ before.getLast?, isSpace c = false) :
    trim (before ++ cs) = before ++ cs := by
  have hends := (trim_eq_self_iff.1 h).2
  refine trim_eq_self_iff.2 ⟨fun c hc => ?_, fun c hc => ?_⟩
  · obtain ⟨b, bs, rfl⟩ := List.exists_cons_of_ne_nil hbefore
    exact hhead c hc
  · cases cs with
    | nil =>
      rw [List.append_nil] at hc
      exact hlast rfl c hc
    | cons d cs =>
      rw [List.getLast?_append_of_ne_nil _ (by simp)] at hc
      exact hends c hc

/-- Trimming again trims nothing. -/
theorem trim_trim (cs : List Char) : trim (trim cs) = trim cs := by
  refine trim_eq_self_iff.2 ⟨fun c hc => ?_, trimRight_eq_self_iff.1 (List.rdropWhile_idempotent ..)⟩
  obtain ⟨ds, hcons⟩ := List.head?_eq_some_iff.1 hc
  obtain ⟨spaces, hspaces⟩ := List.rdropWhile_prefix isSpace (l := trimLeft cs)
  have hleft : cs.dropWhile isSpace = c :: (ds ++ spaces) := by
    rw [← List.cons_append, ← hcons]
    exact hspaces.symm
  have hnot := List.head?_dropWhile_not isSpace cs
  rw [hleft] at hnot
  simpa using hnot

end Text

theorem Span.cuts_of_stands {s : Span} (h : Stands cs s.start t) (hstop : s.stop = s.start + width t) :
    s.Cuts cs := by
  obtain ⟨before, after, rfl, hstart⟩ := h
  refine ⟨by omega, hstart ▸ isBoundary_width_append .., ?_⟩
  rw [hstop, ← hstart, ← width_append, ← List.append_assoc]
  exact isBoundary_width_append ..

theorem Span.slice?_of_stands {source : String} {s : Span} (h : Stands source.toList s.start t)
    (hstop : s.stop = s.start + width t) : s.slice? source = some (String.ofList t) := by
  rw [Span.slice?, hstop, h.slice?]
  rfl

/-- A slice stands in the source from the start of its span on. -/
theorem Span.stands_of_slice? {source text : String} {s : Span} (h : s.slice? source = some text) :
    Stands source.toList s.start text.toList ∧ s.stop = s.start + width text.toList := by
  obtain ⟨inside, hinside, rfl⟩ := Option.map_eq_some_iff.1 h
  rw [String.toList_ofList]
  exact slice?_eq_some_iff.1 hinside

end Restyle
