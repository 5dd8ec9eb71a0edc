/-
# Where a text is cut

A text with a separator is cut in two at the first one (`cutFirst`) or the last one (`cutLast`).  A
part without separators tells where: what stands before the first separator has none
(`cutFirst_append`), and what stands after the last one is the only stretch without any that the
text ends with (`afterLast_eq_iff`).
-/

import Mathlib.Data.List.TakeWhile
import ServerMarkup.Text.Pieces

namespace ServerMarkup

variable {sep : Char} {cs before last : List Char}

/-- A text without separators is not cut. -/
theorem cutFirst_of_notMem (h : sep ∉ cs) : cutFirst sep cs = none := by
  have all : cs.dropWhile (· != sep) = [] :=
    List.dropWhile_eq_nil_iff.2 fun c hc => bne_iff_ne.2 fun same => h (same ▸ hc)
  rw [cutFirst, all]

/-- What stands before the first separator has none. -/
theorem cutFirst_append (h : sep ∉ cs) (after : List Char) :
    cutFirst sep (cs ++ sep :: after) = some (cs, after) := by
  have other : ∀ c ∈ cs, (c != sep) = true := fun c hc => bne_iff_ne.2 fun same => h (same ▸ hc)
  rw [cutFirst, List.dropWhile_append_of_pos other, List.takeWhile_append_of_pos other]
  simp

/-- A text without separators is all behind the last one. -/
theorem afterLast_of_notMem (h : sep ∉ cs) : afterLast sep cs = cs := by
  rw [afterLast, cutLast, cutFirst_of_notMem (mt List.mem_reverse.1 h)]
  rfl

/-- What stands behind the last separator has none. -/
theorem afterLast_append (h : sep ∉ last) : afterLast sep (before ++ sep :: last) = last := by
  have cut := cutFirst_append (mt List.mem_reverse.1 h) before.reverse
  rw [afterLast, cutLast, List.reverse_append, List.reverse_cons, List.append_assoc,
    List.singleton_append, cut]
  exact List.reverse_reverse last

/-- Every text ends with a stretch without separators that begins with the text or behind a
separator. -/
theorem exists_last (sep : Char) (cs : List Char) :
    ∃ last, sep ∉ last ∧ (cs = last ∨ ∃ before, cs = before ++ sep :: last) := by
  induction cs with
  | nil => exact ⟨[], List.not_mem_nil, .inl rfl⟩
  | cons c cs ih =>
    obtain ⟨last, free, rfl | ⟨before, rfl⟩⟩ := ih
    · by_cases same : c = sep
      · exact ⟨cs, free, .inr ⟨[], same ▸ rfl⟩⟩
      · exact ⟨c :: cs, by simp [free, Ne.symm same], .inl rfl⟩
    · exact ⟨last, free, .inr ⟨c :: before, rfl⟩⟩

/-- What stands after the last separator is the stretch without any that the text ends with. -/
theorem afterLast_eq_iff : afterLast sep cs = last ↔
    sep ∉ last ∧ (cs = last ∨ ∃ before, cs = before ++ sep :: last) := by
  constructor
  · rintro rfl
    obtain ⟨last, free, rfl | ⟨before, rfl⟩⟩ := exists_last sep cs
    · rw [afterLast_of_notMem free]
      exact ⟨free, .inl rfl⟩
    · rw [afterLast_append free]
      exact ⟨free, .inr ⟨before, rfl⟩⟩
  · rintro ⟨free, rfl | ⟨before, rfl⟩⟩
    · exact afterLast_of_notMem free
    · exact afterLast_append free

end ServerMarkup
