/-
# Normal paths read again

A reference from the root is read in three steps: blanks at its ends and one mark of the root in
front are taken off, it is cut at its slashes, and of the segments those that are empty or dots fall
away (`toList_normalPath`).  A path that a reference leads to has none of the last kind, but it can
have blanks at its ends, since those of a reference are taken off before its dots, and its first
segment can be a `~`.  So it stands for itself exactly if it is *steady*
(`Confined.normalPath_eq_self_iff`).
-/

import ServerMarkup.Proofs.Include.Confined

namespace ServerMarkup

/-- The reference without a mark of the root in front. -/
def unmarked : List Char → List Char
  | '~' :: '/' :: cs => cs
  | '/' :: cs => cs
  | cs => cs

/-- The path has no blanks at its ends and no mark of the root in front. -/
def Steady (path : String) : Prop :=
  trim path.toList = path.toList ∧ ¬ ['~', '/'] <+: path.toList

instance (path : String) : Decidable (Steady path) :=
  inferInstanceAs (Decidable (_ ∧ _))

/-! ### What a reference from the root leads to -/

theorem normalSegments_empty (segments : List (List Char)) :
    normalSegments ([] :: segments) = normalSegments segments := rfl

/-- A reference from the root names what is behind its mark of the root. -/
theorem normalSegments_root (reference : List Char) :
    normalSegments (namedSegments [] reference) =
      normalSegments (pieces '/' (unmarked (slashed (trim reference)))) := by
  unfold namedSegments
  generalize slashed (trim reference) = cs
  split
  · rfl
  · rfl
  · next root slash =>
    rw [unmarked.eq_3 cs root slash]
    exact normalSegments_empty _

theorem toList_normalPath (path : String) : (normalPath path).toList =
    joined '/' (normalSegments (pieces '/' (unmarked (slashed (trim path.toList))))) := by
  rw [normalPath, resolveReference, String.toList_ofList, ← normalSegments_root]
  rfl

/-- Names are left as they are. -/
theorem normalSegments_of_names {names : List (List Char)} (h : ∀ s ∈ names, IsName s) :
    normalSegments names = names := by
  rw [normalSegments, foldl_addSegment h, List.append_nil, List.reverse_reverse]

/-! ### Lengths -/

theorem length_unmarked_le (cs : List Char) : (unmarked cs).length ≤ cs.length := by
  unfold unmarked
  split
  · exact (List.suffix_append ['~', '/'] _).length_le
  · exact (List.suffix_cons '/' _).length_le
  · exact Nat.le_refl _

theorem lengthOf_addSegment_le (path : List (List Char)) (s : List Char) :
    lengthOf (addSegment path s) ≤ lengthOf path + (s.length + 1) := by
  unfold addSegment
  split
  · exact Nat.le_add_right _ _
  · split
    · exact Nat.le_trans (lengthOf_le_of_suffix (List.tail_suffix path)) (Nat.le_add_right _ _)
    · rw [lengthOf, Nat.add_comm]

theorem lengthOf_foldl_addSegment_le (segments path : List (List Char)) :
    lengthOf (segments.foldl addSegment path) ≤ lengthOf path + lengthOf segments := by
  induction segments generalizing path with
  | nil => exact Nat.le_refl _
  | cons s segments ih =>
    have step := lengthOf_addSegment_le path s
    have rest := ih (addSegment path s)
    rw [List.foldl_cons, lengthOf]
    omega

/-- What is left of a path is not longer than the path. -/
theorem length_joined_normalSegments_le (cs : List Char) :
    (joined '/' (normalSegments (pieces '/' cs))).length ≤ cs.length := by
  have fewer := lengthOf_foldl_addSegment_le (pieces '/' cs) []
  have whole : (joined '/' (pieces '/' cs)).length + 1 = lengthOf (pieces '/' cs) :=
    length_joined (pieces_ne_nil '/' cs)
  rw [joined_pieces] at whole
  rw [← lengthOf_reverse, ← normalSegments] at fewer
  by_cases none : normalSegments (pieces '/' cs) = []
  · rw [none]
    exact Nat.zero_le _
  · have left : (joined '/' (normalSegments (pieces '/' cs))).length + 1 =
        lengthOf (normalSegments (pieces '/' cs)) := length_joined none
    have start : lengthOf [] = 0 := rfl
    omega

theorem length_normalPath_le (path : String) :
    (normalPath path).toList.length ≤ (unmarked (slashed (trim path.toList))).length := by
  rw [toList_normalPath]
  exact length_joined_normalSegments_le _

/-! ### Paths that stand for themselves -/

theorem unmarked_of_not_prefix {cs : List Char} (mark : ¬ ['~', '/'] <+: cs)
    (slash : cs.head? ≠ some '/') : unmarked cs = cs := by
  unfold unmarked
  split
  · exact absurd (List.prefix_append ['~', '/'] _) mark
  · exact absurd rfl slash
  · rfl

namespace Confined

variable {path : String}

theorem backslash_notMem (h : Confined path) : '\\' ∉ path.toList := by
  rcases h with rfl | ⟨names, -, rfl, all⟩
  · exact List.not_mem_nil
  · intro mem
    rw [String.toList_ofList] at mem
    rcases mem_joined mem with same | ⟨s, hs, mem⟩
    · cases same
    · exact (all s hs).backslash mem

/-- Nothing falls away from a confined path. -/
theorem joined_normalSegments (h : Confined path) :
    joined '/' (normalSegments (pieces '/' path.toList)) = path.toList := by
  rcases h with rfl | ⟨names, some, rfl, all⟩
  · rfl
  · rw [String.toList_ofList, pieces_joined some fun s hs => (all s hs).slash,
      normalSegments_of_names all]

/-- **A confined path stands for itself exactly if it is steady.** -/
theorem normalPath_eq_self_iff (h : Confined path) : normalPath path = path ↔ Steady path := by
  have free : '\\' ∉ trim path.toList := fun mem =>
    h.backslash_notMem ((infix_trim path.toList).subset mem)
  constructor
  · intro same
    -- Whatever is taken off makes the path shorter for good.
    have short := length_normalPath_le path
    have step := length_unmarked_le (slashed (trim path.toList))
    have cut := (infix_trim path.toList).length_le
    rw [same] at short
    rw [length_slashed] at step
    have whole : trim path.toList = path.toList :=
      (infix_trim path.toList).eq_of_length (by omega)
    refine ⟨whole, ?_⟩
    rintro ⟨rest, marked⟩
    rw [slashed_of_notMem free, whole, ← marked] at short
    change rest.length + 2 ≤ rest.length at short
    omega
  · rintro ⟨whole, mark⟩
    rw [← String.toList_inj, toList_normalPath, slashed_of_notMem free, whole,
      unmarked_of_not_prefix mark h.head?_ne_slash, h.joined_normalSegments]

end Confined

example : Steady "Shared/Header.inc" ∧ ¬ Steady "~/Header.inc" ∧ ¬ Steady "a /b " := by
  decide +kernel

/-- Every reference leads to a confined path. -/
theorem confined_reference (current reference : String) :
    Confined (resolveReference current reference) :=
  (exists_reference_iff current _).1 ⟨reference, rfl⟩

end ServerMarkup
