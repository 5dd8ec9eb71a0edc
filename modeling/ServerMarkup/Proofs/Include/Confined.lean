/-
# Paths that stay in the project

Wherever a reference stands and whatever it is made of, it leads to a *confined* path: nothing, or
names with one slash between any two (`confined_resolveReference`).  Such a path has no slash in
front and no `..` among its segments, so whoever follows it from a directory stays below that
directory.

That is all a path is held to: every confined path is what some reference means, in every file
(`exists_reference_iff`).
-/

import ServerMarkup.Proofs.Include.Paths

namespace ServerMarkup

/-- The path is empty, or made of names with one slash between any two. -/
def Confined (path : String) : Prop :=
  path = "" ∨
    ∃ names ≠ [], path = String.ofList (joined '/' names) ∧ ∀ s ∈ names, IsName s

theorem confined_joined {names : List (List Char)} (h : ∀ s ∈ names, IsName s) :
    Confined (String.ofList (joined '/' names)) := by
  cases names with
  | nil => exact .inl rfl
  | cons name names => exact .inr ⟨_, List.cons_ne_nil name names, rfl, h⟩

/-! ### Following a path -/

/-- Whatever is no parent leads further down. -/
theorem suffix_foldl_addSegment {ss : List (List Char)} (h : ∀ s ∈ ss, s ≠ ['.', '.'])
    (path : List (List Char)) : path <:+ ss.foldl addSegment path := by
  induction ss generalizing path with
  | nil => exact List.suffix_rfl
  | cons s ss ih =>
    obtain ⟨down, rest⟩ := List.forall_mem_cons.1 h
    have step : path <:+ addSegment path s := by
      rw [addSegment, if_neg down]
      split
      · exact List.suffix_rfl
      · exact List.suffix_cons s path
    exact step.trans (ih rest _)

namespace Confined

variable {path : String}

/-- The segments of a confined path are names, unless the path is empty. -/
theorem segment {s : List Char} (h : Confined path) (hs : s ∈ pieces '/' path.toList) :
    s = [] ∧ path = "" ∨ IsName s := by
  rcases h with rfl | ⟨names, some, rfl, all⟩
  · exact .inl ⟨List.mem_singleton.1 hs, rfl⟩
  · rw [String.toList_ofList, pieces_joined some fun s hs => (all s hs).slash] at hs
    exact .inr (all s hs)

/-- A confined path has no slash in front. -/
theorem head?_ne_slash (h : Confined path) : path.toList.head? ≠ some '/' := by
  intro slash
  obtain ⟨rest, hp⟩ : ∃ rest, path.toList = '/' :: rest := by
    cases hp : path.toList with
    | nil => simp [hp] at slash
    | cons c rest => exact ⟨rest, by simpa [hp] using slash⟩
  -- The segment before that slash would be empty.
  have first : [] ∈ pieces '/' path.toList := by simp [hp, pieces]
  rcases h.segment first with ⟨-, rfl⟩ | name
  · cases hp
  · exact name.some rfl

/-- No segment of a confined path is a parent. -/
theorem dots_notMem (h : Confined path) : ['.', '.'] ∉ pieces '/' path.toList := by
  intro mem
  rcases h.segment mem with empty | name
  · cases empty.1
  · exact name.dots rfl

/-- Whoever follows a confined path from a directory never leaves that directory. -/
theorem below (h : Confined path) (root : List (List Char)) (n : Nat) :
    root <:+ ((pieces '/' path.toList).take n).foldl addSegment root :=
  suffix_foldl_addSegment
    (fun _ hs same => h.dots_notMem (same ▸ List.mem_of_mem_take hs)) root

end Confined

/-! ### References -/

/-- What is left of the segments that a reference names are names. -/
theorem isName_of_mem_normalSegments {current reference s : List Char}
    (h : s ∈ normalSegments (namedSegments current reference)) : IsName s := by
  obtain ⟨hs, stays⟩ := mem_normalSegments h
  rcases mem_namedSegments hs with empty | hs | hs
  · exact absurd empty stays.1
  · exact isName_of_mem_pieces hs stays
  · exact isName_of_mem_pieces hs stays

/-- **No reference leaves the project.**  Whatever the file and the reference in it, the path is
empty or made of names with one slash between any two, each of them filled, no `.` and no `..`, and
without slashes and backslashes.  So it has no slash in front and no `..` as a segment, and on the
way along it from any directory one is always in that directory or below. -/
theorem confined_resolveReference (current reference : String) :
    (resolveReference current reference = "" ∨
      ∃ names ≠ [], resolveReference current reference = String.ofList (joined '/' names) ∧
        ∀ s ∈ names, s ≠ [] ∧ s ≠ ['.'] ∧ s ≠ ['.', '.'] ∧ '/' ∉ s ∧ '\\' ∉ s) ∧
    (resolveReference current reference).toList.head? ≠ some '/' ∧
    ['.', '.'] ∉ pieces '/' (resolveReference current reference).toList ∧
    ∀ (root : List (List Char)) (n : Nat),
      root <:+ ((pieces '/' (resolveReference current reference).toList).take n).foldl
        addSegment root := by
  have confined : Confined (resolveReference current reference) :=
    confined_joined fun _ hs => isName_of_mem_normalSegments hs
  refine ⟨?_, confined.head?_ne_slash, confined.dots_notMem, confined.below⟩
  refine confined.imp_right fun named => ?_
  obtain ⟨names, some, whole, all⟩ := named
  refine ⟨names, some, whole, fun s hs => ?_⟩
  have name := all s hs
  exact ⟨name.some, name.dot, name.dots, name.slash, name.backslash⟩

/-- A reference to the names from the root, with a dot at its end that keeps blanks before it. -/
def rootReference (names : List (List Char)) : String :=
  String.ofList (joined '/' (['~'] :: (names ++ [['.']])))

theorem resolveReference_rootReference {names : List (List Char)} (h : ∀ s ∈ names, IsName s)
    (current : String) :
    resolveReference current (rootReference names) = String.ofList (joined '/' names) := by
  have shape : joined '/' (['~'] :: (names ++ [['.']])) =
      '~' :: '/' :: joined '/' (names ++ [['.']]) := joined_cons (by simp) ['~']
  have trimmed : trim (joined '/' (['~'] :: (names ++ [['.']]))) =
      joined '/' (['~'] :: (names ++ [['.']])) := trim_joined ['~'] names ['.']
  have free : '\\' ∉ joined '/' (['~'] :: (names ++ [['.']])) := by
    intro mem
    rcases mem_joined mem with same | ⟨s, hs, mem⟩
    · cases same
    rcases List.mem_cons.1 hs with rfl | hs
    · revert mem; decide
    rcases List.mem_append.1 hs with hs | hs
    · exact (h s hs).backslash mem
    · obtain rfl := List.mem_singleton.1 hs
      revert mem; decide
  have named : namedSegments current.toList (rootReference names).toList = names ++ [['.']] := by
    rw [namedSegments, rootReference, String.toList_ofList, trimmed, slashed_of_notMem free, shape]
    refine pieces_joined (by simp) fun s hs => ?_
    rcases List.mem_append.1 hs with hs | hs
    · exact (h s hs).slash
    · obtain rfl := List.mem_singleton.1 hs
      decide
  rw [resolveReference, named, normalSegments, List.foldl_append, foldl_addSegment h]
  simp [addSegment]

/-- **The paths that references lead to are the confined ones**, whatever file they stand in. -/
theorem exists_reference_iff (current path : String) :
    (∃ reference, resolveReference current reference = path) ↔ Confined path := by
  constructor
  · rintro ⟨reference, rfl⟩
    exact confined_joined fun _ hs => isName_of_mem_normalSegments hs
  · rintro (rfl | ⟨names, -, rfl, all⟩)
    · have all : ∀ s ∈ ([] : List (List Char)), IsName s := by simp
      exact ⟨_, resolveReference_rootReference all current⟩
    · exact ⟨_, resolveReference_rootReference all current⟩

example : resolveReference "a/b.aspx" (rootReference ["c d ".toList]) = "c d " := by decide +kernel

end ServerMarkup
