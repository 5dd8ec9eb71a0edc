/-
# Marks of the root

A path can have several marks of the project root in front, each a slash or `~/`, and there are two
ways to take them off.  A key of views drops `~/` as often as it comes and then all slashes
(`rootless`); a reference loses one mark, its further slashes fall away as empty segments, and a
further `~` stays as a segment until something takes it along.  So what is left in the two ways
differs in segments `~` in front, which `rootless` drops as well: behind the marks it makes no
difference that they were there (`key_marked`).
-/

import ServerMarkup.Proofs.Lookup.NormalPaths
import ServerMarkup.Types.Catalog

namespace ServerMarkup

/-- A text that is made of marks of the root. -/
inductive RootMarks : List Char → Prop where
  | none : RootMarks []
  | slash {cs : List Char} (rest : RootMarks cs) : RootMarks ('/' :: cs)
  | home {cs : List Char} (rest : RootMarks cs) : RootMarks ('~' :: '/' :: cs)

/-- What is left of a path when it has been read as a reference and then made a key. -/
def keyOf (cs : List Char) : List Char :=
  rootless (joined '/' (normalSegments (pieces '/' cs)))

/-! ### Marks in front of a text -/

namespace RootMarks

variable {marks cs : List Char}

theorem replicate_slash (n : Nat) : RootMarks (List.replicate n '/') := by
  induction n with
  | zero => exact .none
  | succ n ih => exact ih.slash

theorem slashed_append (h : RootMarks marks) (cs : List Char) :
    slashed (marks ++ cs) = marks ++ slashed cs := by
  induction h with
  | none => rfl
  | slash _ ih => exact congrArg ('/' :: ·) ih
  | home _ ih => exact congrArg ('~' :: '/' :: ·) ih

theorem trimEnd_append (h : RootMarks marks) (cs : List Char) :
    trimEnd (marks ++ cs) = marks ++ trimEnd cs := by
  induction h with
  | none => rfl
  | slash _ ih => exact (trimEnd_append_slash [] _).trans (congrArg ('/' :: ·) ih)
  | home _ ih => exact (trimEnd_append_slash ['~'] _).trans (congrArg ('~' :: '/' :: ·) ih)

/-- Blanks in front are not taken off behind a mark. -/
theorem trim_append (h : RootMarks marks) (some : marks ≠ []) (cs : List Char) :
    trim (marks ++ cs) = marks ++ trimEnd cs := by
  have start : trimStart (marks ++ cs) = marks ++ cs := by
    cases h with
    | none => exact absurd rfl some
    | slash | home => rfl
  rw [trim, start, h.trimEnd_append]

/-- One mark is taken off. -/
theorem exists_unmarked_append (h : RootMarks marks) (some : marks ≠ []) (cs : List Char) :
    ∃ fewer, RootMarks fewer ∧ unmarked (marks ++ cs) = fewer ++ cs := by
  cases h with
  | none => exact absurd rfl some
  | slash rest | home rest => exact ⟨_, rest, rfl⟩

/-- The segments of marks are empty or `~`. -/
theorem exists_pieces_append (h : RootMarks marks) (cs : List Char) :
    ∃ lead, (∀ s ∈ lead, s = [] ∨ s = ['~']) ∧
      pieces '/' (marks ++ cs) = lead ++ pieces '/' cs := by
  induction h with
  | none => exact ⟨[], List.forall_mem_nil _, rfl⟩
  | slash _ ih =>
    obtain ⟨lead, all, whole⟩ := ih
    refine ⟨[] :: lead, List.forall_mem_cons.2 ⟨.inl rfl, all⟩, ?_⟩
    exact (pieces_append_sep [] _).trans (congrArg ([] :: ·) whole)
  | home _ ih =>
    obtain ⟨lead, all, whole⟩ := ih
    refine ⟨['~'] :: lead, List.forall_mem_cons.2 ⟨.inr rfl, all⟩, ?_⟩
    exact (pieces_append_sep ['~'] _).trans (congrArg (['~'] :: ·) whole)

end RootMarks

/-! ### Paths without marks -/

theorem exists_marks_rootless (cs : List Char) :
    ∃ marks, RootMarks marks ∧ cs = marks ++ rootless cs := by
  fun_induction rootless cs with
  | case1 cs ih =>
    obtain ⟨marks, h, whole⟩ := ih
    exact ⟨_, h.home, congrArg ('~' :: '/' :: ·) whole⟩
  | case2 cs _ =>
    have slashes : cs.takeWhile (· == '/') = List.replicate _ '/' :=
      List.eq_replicate_of_mem fun c hc => by simpa using List.mem_takeWhile_imp hc
    refine ⟨cs.takeWhile (· == '/'), ?_, List.takeWhile_append_dropWhile.symm⟩
    rw [slashes]
    exact RootMarks.replicate_slash _

theorem length_rootless_le (cs : List Char) : (rootless cs).length ≤ cs.length := by
  obtain ⟨marks, -, whole⟩ := exists_marks_rootless cs
  exact (List.suffix_append marks (rootless cs)).length_le.trans_eq (congrArg _ whole.symm)

theorem rootless_of_not_prefix {cs : List Char} (mark : ¬ ['~', '/'] <+: cs)
    (slash : cs.head? ≠ some '/') : rootless cs = cs := by
  rw [rootless.eq_2 cs fun rest (marked : cs = '~' :: '/' :: rest) =>
    mark (marked ▸ List.prefix_append ['~', '/'] rest)]
  cases cs with
  | nil => rfl
  | cons c cs =>
    have other : (c == '/') = false := by simpa using slash
    rw [List.dropWhile_cons, other]
    rfl

/-- Joined names do not begin with a slash. -/
theorem head?_joined_ne_slash {names : List (List Char)} (h : ∀ s ∈ names, IsName s) :
    (joined '/' names).head? ≠ some '/' := by
  have confined := (confined_joined h).head?_ne_slash
  rwa [String.toList_ofList] at confined

/-- A first segment that makes a mark with the slash behind it is `~`. -/
theorem eq_tilde_of_prefix {s cs : List Char} (name : IsName s)
    (mark : ['~', '/'] <+: s ++ '/' :: cs) : s = ['~'] := by
  rcases s with _ | ⟨c, _ | ⟨d, s⟩⟩
  · exact absurd rfl name.some
  · obtain ⟨rfl, -⟩ := List.cons_prefix_cons.1 mark
    rfl
  · obtain ⟨-, behind⟩ := List.cons_prefix_cons.1 mark
    obtain ⟨rfl, -⟩ := List.cons_prefix_cons.1 behind
    exact absurd (by simp) name.slash

/-- Of joined names, segments `~` in front are dropped, but not the last segment. -/
theorem exists_rootless_joined {names : List (List Char)} (h : ∀ s ∈ names, IsName s) :
    ∃ rest, rest <:+ names ∧ (names ≠ [] → rest ≠ []) ∧
      rootless (joined '/' names) = joined '/' rest ∧ ¬ ['~', '/'] <+: joined '/' rest := by
  induction names with
  | nil => exact ⟨[], List.suffix_rfl, (absurd rfl ·), rfl, by decide⟩
  | cons s names ih =>
    by_cases mark : ['~', '/'] <+: joined '/' (s :: names)
    · -- The first segment is `~` and another one follows it.
      have others : names ≠ [] := by
        rintro rfl
        exact (h s List.mem_cons_self).slash (mark.subset (by simp))
      obtain ⟨rest, suffix, some, left, unmarked⟩ := ih fun t ht => h t (List.mem_cons_of_mem s ht)
      rw [joined_cons others] at mark ⊢
      obtain rfl := eq_tilde_of_prefix (h s List.mem_cons_self) mark
      exact ⟨rest, suffix.trans (List.suffix_cons _ _), fun _ => some others, left, unmarked⟩
    · exact ⟨s :: names, List.suffix_rfl, id,
        rootless_of_not_prefix mark (head?_joined_ne_slash h), mark⟩

/-! ### Marks behind a reference -/

/-- What stands below some segments is left by what follows them, but for some at its top. -/
theorem exists_foldl_addSegment_append (segments top base : List (List Char)) :
    ∃ left, left <:+ base ∧
      segments.foldl addSegment (top ++ base) = segments.foldl addSegment top ++ left := by
  induction segments generalizing top base with
  | nil => exact ⟨base, List.suffix_rfl, rfl⟩
  | cons s segments ih =>
    rw [List.foldl_cons, List.foldl_cons]
    by_cases stays : s = [] ∨ s = ['.']
    · rw [addSegment, addSegment, if_pos stays, if_pos stays]
      exact ih top base
    by_cases up : s = ['.', '.']
    · rw [addSegment, addSegment, if_neg stays, if_neg stays, if_pos up, if_pos up]
      cases top with
      | nil =>
        obtain ⟨left, suffix, same⟩ := ih [] base.tail
        exact ⟨left, suffix.trans (List.tail_suffix base), same⟩
      | cons t top => exact ih top base
    · rw [addSegment, addSegment, if_neg stays, if_neg stays, if_neg up, if_neg up]
      exact ih (s :: top) base

/-- Marks in front of a path leave some segments `~` in front of what is left of it. -/
theorem RootMarks.exists_normalSegments_append {marks : List Char} (h : RootMarks marks)
    (cs : List Char) : ∃ tildes, (∀ s ∈ tildes, s = ['~']) ∧
      normalSegments (pieces '/' (marks ++ cs)) = tildes ++ normalSegments (pieces '/' cs) := by
  obtain ⟨lead, all, whole⟩ := h.exists_pieces_append cs
  obtain ⟨left, suffix, same⟩ :=
    exists_foldl_addSegment_append (pieces '/' cs) [] (lead.foldl addSegment [])
  refine ⟨left.reverse, fun s hs => ?_, ?_⟩
  · have below := (mem_foldl_addSegment (suffix.subset (List.mem_reverse.1 hs))).resolve_left
      List.not_mem_nil
    exact (all s below.1).resolve_left below.2.1
  · rw [whole, normalSegments, List.foldl_append]
    exact (congrArg List.reverse same).trans List.reverse_append

theorem rootless_joined_tildes {tildes names : List (List Char)} (h : ∀ s ∈ tildes, s = ['~']) :
    rootless (joined '/' (tildes ++ names)) = rootless (joined '/' names) ∨
      names = [] ∧ rootless (joined '/' (tildes ++ names)) = ['~'] := by
  induction tildes with
  | nil => exact .inl rfl
  | cons t tildes ih =>
    obtain ⟨rfl, all⟩ := List.forall_mem_cons.1 h
    by_cases none : tildes ++ names = []
    · obtain ⟨rfl, rfl⟩ := List.append_eq_nil_iff.1 none
      exact .inr ⟨rfl, by decide⟩
    · rw [List.cons_append, joined_cons none]
      exact ih all

/-- **Marks make no difference to a key**, unless nothing is left behind them: then one `~` can
stay. -/
theorem key_marked {marks : List Char} (h : RootMarks marks) (cs : List Char) :
    keyOf (marks ++ cs) = keyOf cs ∨
      normalSegments (pieces '/' cs) = [] ∧ keyOf (marks ++ cs) = ['~'] := by
  obtain ⟨tildes, all, whole⟩ := h.exists_normalSegments_append cs
  rw [keyOf, whole]
  exact rootless_joined_tildes all

theorem length_keyOf_le (cs : List Char) : (keyOf cs).length ≤ cs.length :=
  (length_rootless_le _).trans (length_joined_normalSegments_le cs)

/-- A path of names is its own key, if it has no mark in front. -/
theorem keyOf_of_names {cs : List Char} (names : ∀ s ∈ pieces '/' cs, IsName s)
    (mark : ¬ ['~', '/'] <+: cs) : keyOf cs = cs := by
  have slash := head?_joined_ne_slash names
  rw [joined_pieces] at slash
  rw [keyOf, normalSegments_of_names names, joined_pieces, rootless_of_not_prefix mark slash]

end ServerMarkup
