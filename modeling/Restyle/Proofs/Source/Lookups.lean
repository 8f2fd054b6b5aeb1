import Restyle.Proofs.Source.Rows
import Restyle.Proofs.Source.Spans
import Restyle.Source.Mapping

/-! Looking an offset up in mappings, which start one behind the other. The main statement is that the search finds
the one mapping that covers the offset, and none if the offset lies in a gap. -/

namespace Restyle.SourceMap

variable {ms : List Mapping} {g lo hi : Nat}

/-- Each mapping starts behind those before it. -/
def Ascending (ms : List Mapping) : Prop := ms.Pairwise (·.generated.start < ·.generated.start)

theorem ascending_of_inOrder (h : Span.InOrder lo (ms.map (·.generated)) hi) : Ascending ms := by
  have hnonempty : ∀ m ∈ ms, m.generated.start < m.generated.stop := fun m hm =>
    (h.of_mem (List.mem_map_of_mem hm)).2.1
  refine (List.pairwise_map.1 h.pairwise_le).imp_of_mem fun {m m'} hm hm' hle => ?_
  exact Nat.lt_of_lt_of_le (hnonempty m hm) hle

/-- Of mappings in order the search finds the one that covers the offset. -/
theorem mappingAt?_eq_find? (h : Span.InOrder lo (ms.map (·.generated)) hi) :
    (⟨ms⟩ : SourceMap).mappingAt? g = ms.find? (·.generated.contains g) := by
  rw [mappingAt?]
  cases hfind : ms.find? (·.generated.contains g) with
  | none =>
    rw [Option.filter_eq_none_iff]
    intro m hm
    obtain ⟨i, -, hi⟩ := Option.bind_eq_some_iff.1 hm
    rw [List.getElem?_toArray] at hi
    exact List.find?_eq_none.1 hfind m (List.mem_of_getElem? hi)
  | some m =>
    have hcontains := List.find?_some hfind
    obtain ⟨i, hi⟩ := List.getElem?_of_mem (List.mem_of_find?_eq_some hfind)
    obtain ⟨hle, hlt⟩ := Span.contains_iff.1 hcontains
    have hlast : ∀ j m', i < j → ms[j]? = some m' → g < m'.generated.start := by
      intro j m' hij hm'
      obtain ⟨hi', rfl⟩ := List.getElem?_eq_some_iff.1 hi
      obtain ⟨hj, rfl⟩ := List.getElem?_eq_some_iff.1 hm'
      have hafter := List.pairwise_iff_getElem.1 (List.pairwise_map.1 h.pairwise_le) i j hi' hj hij
      exact Nat.lt_of_lt_of_le hlt hafter
    rw [Row.last?_eq_some (ascending_of_inOrder h) hi hle hlast, Option.bind_some, List.getElem?_toArray, hi,
      Option.filter_some, if_pos hcontains]

end Restyle.SourceMap
