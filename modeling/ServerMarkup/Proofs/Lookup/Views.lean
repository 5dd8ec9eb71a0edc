/-
# Views that are found again

A view is entered under a key that is made of its path as it is written, and looked for under the
key of the path that a reference leads to.  The key takes marks of the root off and does without
letter case and the two kinds of slashes, but it keeps blanks at the ends, empty segments and dots,
and a mark that is written with a backslash: none of these is in the path that the reference leads
to, so a view whose path has one of them is not found under that very path.  `view_found_iff` says
that these are all the views that get lost: a view is found again exactly if its path is *plainly
spelled*.
-/

import ServerMarkup.Proofs.Lookup.RootMarks
import ServerMarkup.Proofs.Source.LetterCase

namespace ServerMarkup

/-- What a key keeps of a path, before letter case is dropped. -/
def keyPart (path : List Char) : List Char :=
  slashed (rootless path)

/-- The path has no blanks at its ends, behind the marks of the root it is made of names, and these
have no mark of the root in front, such as one that is written with a backslash. -/
structure PlainlySpelled (path : List Char) : Prop where
  ends : trim path = path
  names : ∀ s ∈ pieces '/' (keyPart path), IsName s
  mark : ¬ ['~', '/'] <+: keyPart path

instance (s : List Char) : Decidable (IsName s) :=
  decidable_of_iff (s ≠ [] ∧ s ≠ ['.'] ∧ s ≠ ['.', '.'] ∧ '/' ∉ s ∧ '\\' ∉ s)
    ⟨fun ⟨a, b, c, d, e⟩ => ⟨a, b, c, d, e⟩, fun ⟨a, b, c, d, e⟩ => ⟨a, b, c, d, e⟩⟩

instance (path : List Char) : Decidable (PlainlySpelled path) :=
  decidable_of_iff (trim path = path ∧ (∀ s ∈ pieces '/' (keyPart path), IsName s) ∧
      ¬ ['~', '/'] <+: keyPart path)
    ⟨fun ⟨a, b, c⟩ => ⟨a, b, c⟩, fun ⟨a, b, c⟩ => ⟨a, b, c⟩⟩

/-! ### Letter case of paths -/

section
variable {cs word : List Char}

/-- What is no letter comes from itself alone. -/
theorem map_toLower_eq_iff (other : word.any Char.isAlpha = false) :
    cs.map Char.toLower = word ↔ cs = word := by
  induction word generalizing cs with
  | nil => exact List.map_eq_nil_iff
  | cons w word ih =>
    obtain ⟨hw, rest⟩ := Bool.or_eq_false_iff.1 other
    cases cs with
    | nil => simp
    | cons c cs => rw [List.map_cons, List.cons.injEq, List.cons.injEq, toLower_eq_iff hw, ih rest]

theorem prefix_map_toLower_iff (other : word.any Char.isAlpha = false) :
    word <+: cs.map Char.toLower ↔ word <+: cs := by
  rw [List.prefix_iff_eq_take, List.prefix_iff_eq_take, ← List.map_take, eq_comm,
    map_toLower_eq_iff other, eq_comm]

theorem pieces_map_toLower (cs : List Char) :
    pieces '/' (cs.map Char.toLower) = (pieces '/' cs).map (List.map Char.toLower) := by
  induction cs with
  | nil => rfl
  | cons c cs ih =>
    have same : c.toLower = '/' ↔ c = '/' := toLower_eq_iff rfl
    rw [List.map_cons, pieces, pieces, ih]
    by_cases slash : c = '/'
    · rw [if_pos slash, if_pos (same.2 slash)]
      rfl
    · rw [if_neg slash, if_neg (mt same.1 slash)]
      cases pieces '/' cs <;> rfl

end

/-! ### Keys -/

theorem viewKey_eq_iff {path path' : String} : viewKey path = viewKey path' ↔
    (keyPart path.toList).map Char.toLower = (keyPart path'.toList).map Char.toLower := by
  rw [viewKey, viewKey, lowered, lowered, String.ofList_inj, String.toList_ofList,
    String.toList_ofList]
  rfl

theorem length_keyPart (path : List Char) : (keyPart path).length = (rootless path).length :=
  length_slashed _

/-- The key of a path that a reference leads to has a path of names without a mark in front. -/
theorem keyPart_normalPath (path : String) :
    keyPart (normalPath path).toList = keyOf (unmarked (slashed (trim path.toList))) := by
  have confined := confined_reference "" path
  obtain ⟨marks, -, whole⟩ := exists_marks_rootless (normalPath path).toList
  have free : '\\' ∉ rootless (normalPath path).toList := fun mem =>
    confined.backslash_notMem (whole ▸ List.mem_append_right marks mem)
  rw [keyPart, slashed_of_notMem free, toList_normalPath]
  rfl

/-- The names that the key of a normal path is made of. -/
theorem exists_names_keyPart (path : String) : ∃ names, (∀ s ∈ names, IsName s) ∧
    keyPart (normalPath path).toList = joined '/' names ∧
    ¬ ['~', '/'] <+: joined '/' names ∧ (names = [] → normalPath path = "") := by
  have all := fun s (hs : s ∈ normalSegments (namedSegments [] path.toList)) =>
    isName_of_mem_normalSegments hs
  rw [normalSegments_root] at all
  obtain ⟨names, suffix, some, left, mark⟩ := exists_rootless_joined all
  refine ⟨names, fun s hs => all s (suffix.subset hs), ?_, mark, fun none => ?_⟩
  · rw [keyPart_normalPath, keyOf, left]
  · have nothing := of_not_not (mt some (not_not.2 none))
    rw [← String.toList_inj, toList_normalPath, nothing]
    rfl

/-! ### Plainly spelled paths -/

/-- A plainly spelled path has the same key as the path it leads to. -/
theorem PlainlySpelled.keyPart_normalPath {path : String} (h : PlainlySpelled path.toList) :
    keyPart (normalPath path).toList = keyPart path.toList := by
  obtain ⟨marks, made, whole⟩ := exists_marks_rootless path.toList
  have own : keyOf (keyPart path.toList) = keyPart path.toList := keyOf_of_names h.names h.mark
  have parts : slashed path.toList = marks ++ keyPart path.toList := by
    rw [whole, made.slashed_append, ← whole]
    rfl
  rw [ServerMarkup.keyPart_normalPath, h.ends, parts]
  by_cases none : marks = []
  · have slash := head?_joined_ne_slash h.names
    rw [joined_pieces] at slash
    rw [none, List.nil_append, unmarked_of_not_prefix h.mark slash, own]
  · obtain ⟨fewer, left, unmarked⟩ := made.exists_unmarked_append none (keyPart path.toList)
    rw [unmarked]
    rcases key_marked left (keyPart path.toList) with same | ⟨nothing, -⟩
    · rw [same, own]
    · rw [normalSegments_of_names h.names] at nothing
      exact absurd nothing (pieces_ne_nil _ _)

/-- Behind marks of the root, a path that keeps its key has no blanks at its end. -/
theorem trimEnd_of_key {marks cs : List Char} (made : RootMarks marks)
    (same : (slashed cs).map Char.toLower =
      (keyOf (marks ++ slashed (trimEnd cs))).map Char.toLower) : trimEnd cs = cs := by
  rcases key_marked made (slashed (trimEnd cs)) with key | ⟨-, key⟩
  · have length := congrArg List.length same
    have cut := length_keyOf_le (slashed (trimEnd cs))
    rw [key, List.length_map, List.length_map, length_slashed] at length
    rw [length_slashed, ← length] at cut
    exact (infix_trimEnd cs).eq_of_length (Nat.le_antisymm (infix_trimEnd cs).length_le cut)
  · -- Nothing but a `~` is left of the path, and that is no blank.
    rw [key] at same
    obtain ⟨c, rfl, tilde⟩ := List.map_eq_singleton_iff.1 ((map_toLower_eq_iff rfl).1 same)
    split at tilde
    · cases tilde
    · rw [tilde]
      decide

/-- A path that keeps its key has no blanks at its ends. -/
theorem trim_of_key {path : String} (same : (keyPart path.toList).map Char.toLower =
    (keyPart (normalPath path).toList).map Char.toLower) : trim path.toList = path.toList := by
  obtain ⟨marks, made, whole⟩ := exists_marks_rootless path.toList
  rw [keyPart_normalPath] at same
  by_cases none : marks = []
  · -- Without a mark in front each step makes the path shorter.
    rw [none, List.nil_append] at whole
    have length := congrArg List.length same
    have cut := length_keyOf_le (unmarked (slashed (trim path.toList)))
    have step := length_unmarked_le (slashed (trim path.toList))
    rw [List.length_map, List.length_map, length_keyPart, ← whole] at length
    rw [length_slashed] at step
    exact (infix_trim path.toList).eq_of_length
      (Nat.le_antisymm (infix_trim path.toList).length_le (by omega))
  · have trimmed := made.trim_append none (rootless path.toList)
    rw [← whole] at trimmed
    obtain ⟨fewer, left, unmarked⟩ :=
      made.exists_unmarked_append none (slashed (trimEnd (rootless path.toList)))
    rw [trimmed, made.slashed_append, unmarked] at same
    rw [trimmed, trimEnd_of_key left same, ← whole]

/-- A segment that is the same as a name without letter case is a name, if it is one of a path. -/
theorem isName_of_map_toLower {path s name : List Char} (hs : s ∈ pieces '/' (slashed path))
    (h : IsName name) (same : s.map Char.toLower = name.map Char.toLower) : IsName s := by
  have other {word : List Char} (plain : word.any Char.isAlpha = false) (ne : name ≠ word) :
      s ≠ word := by
    rintro rfl
    rw [(map_toLower_eq_iff plain).2 rfl, eq_comm, map_toLower_eq_iff plain] at same
    exact ne same
  exact isName_of_mem_pieces hs
    ⟨other rfl h.some, other rfl h.dot, other rfl h.dots⟩

/-- **A path keeps its key exactly if it is plainly spelled**, or if nothing is left of it either
way. -/
theorem viewKey_normalPath_iff (path : String) : viewKey (normalPath path) = viewKey path ↔
    PlainlySpelled path.toList ∨ normalPath path = "" ∧ viewKey path = "" := by
  constructor
  · intro same
    have letters := (viewKey_eq_iff.1 same).symm
    obtain ⟨names, all, left, mark, nothing⟩ := exists_names_keyPart path
    by_cases none : names = []
    · have empty := nothing none
      rw [empty] at same
      exact .inr ⟨empty, same.symm⟩
    refine .inl ⟨trim_of_key letters, fun s hs => ?_, fun marked => ?_⟩
    · rw [left] at letters
      have segments := congrArg (pieces '/') letters
      rw [pieces_map_toLower, pieces_map_toLower, pieces_joined none fun s hs => (all s hs).slash]
        at segments
      obtain ⟨name, hn, same⟩ := List.mem_map.1 (segments ▸ List.mem_map_of_mem hs)
      exact isName_of_map_toLower hs (all name hn) same.symm
    · rw [← prefix_map_toLower_iff rfl, letters, left, prefix_map_toLower_iff rfl] at marked
      exact mark marked
  · rintro (plain | ⟨empty, own⟩)
    · rw [viewKey_eq_iff, plain.keyPart_normalPath]
    · rw [empty, own]
      decide +kernel

/-- Of a confined path without a mark of the root in front, a key keeps everything. -/
theorem Confined.keyPart_eq {path : String} (h : Confined path)
    (mark : ¬ ['~', '/'] <+: path.toList) : keyPart path.toList = path.toList := by
  rw [keyPart, rootless_of_not_prefix mark h.head?_ne_slash, slashed_of_notMem h.backslash_notMem]

/-- The key of a plainly spelled path is the path it leads to, without letter case. -/
theorem PlainlySpelled.viewKey_eq {path : String} (h : PlainlySpelled path.toList)
    (mark : ¬ ['~', '/'] <+: (normalPath path).toList) :
    viewKey path = lowered (normalPath path) := by
  have own : keyPart (normalPath path).toList = (normalPath path).toList :=
    (confined_reference "" path).keyPart_eq mark
  have same := h.keyPart_normalPath.symm.trans own
  rw [viewKey, ← keyPart, same, String.ofList_toList]

/-! ### Looking for views -/

theorem resolveView_addView (c : Catalog) (path path' : String) (type : TypeRef) :
    (c.addView path type).resolveView path' =
      if viewKey path = viewKey path' then some type else c.resolveView path' := by
  unfold Catalog.resolveView Catalog.addView
  by_cases same : viewKey path = viewKey path' <;> simp [same]

/-- In a file of the root a reference leads where it leads from the root. -/
theorem resolveReference_of_root {file : String} (h : '/' ∉ slashed file.toList)
    (reference : String) : resolveReference file reference = normalPath reference := by
  have none : cutLast '/' (slashed file.toList) = none := by
    cases cut : cutLast '/' (slashed file.toList) with
    | none => rfl
    | some parts => exact absurd (by rw [eq_of_cutLast cut]; simp) h
  have directory : directoryOf (slashed file.toList) = [] := by rw [directoryOf, none]; rfl
  rw [normalPath, resolveReference, resolveReference, namedSegments, directory]
  rfl

/-- **Which views are found again.**  Whatever is in a catalog, a view that is added to it is found
under the path that its own path, as a reference, leads to from the root of the project, exactly if
its path is plainly spelled (or means the root either way).  A page in the root looks under that
very path.  Two plainly spelled paths have the same key exactly if they lead to the same path in
some letter case, where this has no mark of the root in front. -/
theorem view_found_iff (path : String) :
    ((∀ (c : Catalog) (type : TypeRef),
        (c.addView path type).resolveView (normalPath path) = some type) ↔
      PlainlySpelled path.toList ∨ normalPath path = "" ∧ viewKey path = "") ∧
    (∀ file : String, '/' ∉ slashed file.toList →
      resolveReference file path = normalPath path) ∧
    ∀ path' : String, PlainlySpelled path.toList → PlainlySpelled path'.toList →
      ¬ ['~', '/'] <+: (normalPath path).toList → ¬ ['~', '/'] <+: (normalPath path').toList →
        (viewKey path = viewKey path' ↔ sameName (normalPath path) (normalPath path') = true) := by
  refine ⟨?_, fun file root => resolveReference_of_root root path, ?_⟩
  · rw [← viewKey_normalPath_iff]
    constructor
    · intro found
      have own := found .empty (.plain "" "")
      rw [resolveView_addView] at own
      by_contra other
      rw [if_neg (Ne.symm other)] at own
      cases own
    · intro same c type
      rw [resolveView_addView, if_pos same.symm]
  · intro path' plain plain' mark mark'
    rw [plain.viewKey_eq mark, plain'.viewKey_eq mark', sameName_iff]

/-- A view whose path has slashes of both kinds behind its mark of the root is found by a page in
the root, and has the key of its path in other letter case. -/
theorem view_found_mixed : PlainlySpelled "~/Controls\\Header.ascx".toList ∧
    (Catalog.empty.addView "~/Controls\\Header.ascx" (.plain "Site" "Header")).resolveView
      (resolveReference "page.aspx" "~/Controls\\Header.ascx") = some (.plain "Site" "Header") ∧
    viewKey "~/Controls\\Header.ascx" = viewKey "/controls/HEADER.ascx" := by
  have plain : PlainlySpelled "~/Controls\\Header.ascx".toList := by decide +kernel
  have other : PlainlySpelled "/controls/HEADER.ascx".toList := by decide +kernel
  obtain ⟨found, root, keys⟩ := view_found_iff "~/Controls\\Header.ascx"
  rw [root "page.aspx" (by decide)]
  exact ⟨plain, found.2 (.inl plain) .empty (.plain "Site" "Header"),
    (keys _ plain other (by decide +kernel) (by decide +kernel)).2 (by decide +kernel)⟩

/-- A view whose mark of the root has a backslash is not found under its own path. -/
theorem view_lost :
    normalPath "~\\Controls\\Header.ascx" = "Controls/Header.ascx" ∧
      (Catalog.empty.addView "~\\Controls\\Header.ascx" (.plain "Site" "Header")).resolveView
        (normalPath "~\\Controls\\Header.ascx") = none := by
  decide +kernel

end ServerMarkup
