/-
# Stored files

A store of files keeps each text under the normal path of the path it is given, and looks for a file
under the normal path of the path it is asked for.  So at a path there is the text that was stored
last under a path with the same normal path (`Files.read_storing_eq_ok_iff`), and a file is missing
only if there is none (`Files.read_storing_eq_error_iff`).

A path that a reference leads to is normal already, but it need not be its own normal path, and then
the store looks elsewhere.  `resolved_steady_iff` says for which paths it does not: those that are
steady.
-/

import Mathlib.Data.List.Induction
import ServerMarkup.Proofs.Lookup.NormalPaths

namespace ServerMarkup

/-- Of the texts that have been stored under their paths, the text is the last one whose path means
`path`. -/
def LastUnder (stored : List (String × String)) (path text : String) : Prop :=
  ∃ before spelled after, stored = before ++ (spelled, text) :: after ∧ normalPath spelled = path ∧
    ∀ e ∈ after, normalPath e.1 ≠ path

namespace Files

/-- The files that are there when texts have been stored, one after the other. -/
def storing (stored : List (String × String)) : Files :=
  stored.foldl (fun fs e => fs.insert e.1 e.2) empty

/-- At the path there is the text that has been stored last under a path that means it, and none
only if there is none such. -/
structure Serves (stored : List (String × String)) (path : String) : Prop where
  text : ∀ text, (storing stored).read path = .ok text ↔ LastUnder stored path text
  missing : (storing stored).read path = .error (.notFound path) ↔
    ∀ e ∈ stored, normalPath e.1 ≠ path

/-! ### One text more -/

section
variable {stored : List (String × String)} {path text : String}

theorem storing_append (stored : List (String × String)) (e : String × String) :
    storing (stored ++ [e]) = (storing stored).insert e.1 e.2 := by
  rw [storing, List.foldl_append]
  rfl

/-- A text is found under the paths that mean the same as its own, and hides no other one. -/
theorem text?_insert_eq (fs : Files) (spelled text path : String) :
    (fs.insert spelled text).text? path =
      if normalPath spelled = normalPath path then some text else fs.text? path := by
  split
  · next same => exact text?_insert same.symm
  · next other => simp [insert, text?, other]

theorem lastUnder_append {e : String × String} : LastUnder (stored ++ [e]) path text ↔
    normalPath e.1 = path ∧ e.2 = text ∨ normalPath e.1 ≠ path ∧ LastUnder stored path text := by
  constructor
  · rintro ⟨before, spelled, after, whole, means, later⟩
    rcases after.eq_nil_or_concat with rfl | ⟨after, last, rfl⟩
    · obtain ⟨rfl, own⟩ := List.append_inj' whole rfl
      cases own
      exact .inl ⟨means, rfl⟩
    · rw [List.concat_eq_append, ← List.cons_append, ← List.append_assoc] at whole
      obtain ⟨rfl, own⟩ := List.append_inj' whole rfl
      cases own
      exact .inr ⟨later e (by simp), before, spelled, after, rfl, means,
        fun e he => later e (by simp [he])⟩
  · rintro (⟨means, rfl⟩ | ⟨other, before, spelled, after, rfl, means, later⟩)
    · exact ⟨stored, e.1, [], rfl, means, List.forall_mem_nil _⟩
    · refine ⟨before, spelled, after ++ [e], by simp, means, fun x hx => ?_⟩
      rcases List.mem_append.1 hx with hx | hx
      · exact later x hx
      · rwa [List.mem_singleton.1 hx]

/-! ### All texts -/

/-- What is found is the text that has been stored last under a path with the same meaning. -/
theorem text?_storing_eq_some_iff :
    (storing stored).text? path = some text ↔ LastUnder stored (normalPath path) text := by
  induction stored using List.reverseRecOn with
  | nil =>
    refine iff_of_false (fun found => Option.some_ne_none text found.symm) ?_
    rintro ⟨before, spelled, after, whole, -⟩
    simp at whole
  | append_singleton stored e ih =>
    rw [storing_append, text?_insert_eq, lastUnder_append, ← ih]
    split
    · next same => simp [same]
    · next other => simp [other]

/-- Nothing is found if nothing has been stored under a path with the same meaning. -/
theorem text?_storing_eq_none_iff :
    (storing stored).text? path = none ↔ ∀ e ∈ stored, normalPath e.1 ≠ normalPath path := by
  induction stored using List.reverseRecOn with
  | nil => exact iff_of_true rfl (List.forall_mem_nil _)
  | append_singleton stored e ih =>
    rw [storing_append, text?_insert_eq, List.forall_mem_append, List.forall_mem_singleton, ← ih]
    split
    · next same => simp [same]
    · next other => simp [other]

theorem unreadable_storing (stored : List (String × String)) :
    (storing stored).unreadable = [] := by
  induction stored using List.reverseRecOn with
  | nil => rfl
  | append_singleton stored e ih =>
    rw [storing_append]
    exact ih

theorem read_storing (stored : List (String × String)) (path : String) :
    (storing stored).read path = match (storing stored).text? path with
      | some text => .ok text
      | none => .error (.notFound path) := by
  rw [read, unreadable_storing]
  rfl

theorem read_storing_eq_ok_iff :
    (storing stored).read path = .ok text ↔ LastUnder stored (normalPath path) text := by
  rw [read_storing, ← text?_storing_eq_some_iff]
  cases (storing stored).text? path <;> simp

theorem read_storing_eq_error_iff : (storing stored).read path = .error (.notFound path) ↔
    ∀ e ∈ stored, normalPath e.1 ≠ normalPath path := by
  rw [read_storing, ← text?_storing_eq_none_iff]
  cases (storing stored).text? path <;> simp

end

/-! ### Paths of references -/

/-- A path that stands for itself is served. -/
theorem serves_of_normalPath {path : String} (same : normalPath path = path)
    (stored : List (String × String)) : Serves stored path where
  text text := by rw [read_storing_eq_ok_iff, same]
  missing := by rw [read_storing_eq_error_iff, same]

/-- A path that is served whatever has been stored stands for itself, if some path means it. -/
theorem normalPath_of_serves {path spelled : String} (means : normalPath spelled = path)
    (h : ∀ stored, Serves stored path) : normalPath path = path := by
  have own : LastUnder [(spelled, "")] path "" :=
    ⟨[], spelled, [], rfl, means, List.forall_mem_nil _⟩
  have found := ((h [(spelled, "")]).text "").2 own
  by_contra other
  have missing : (storing [(spelled, "")]).read path = .error (.notFound path) :=
    read_storing_eq_error_iff.2 (by simpa [means] using Ne.symm other)
  rw [missing] at found
  cases found

end Files

/-- **Which paths are found again.**  Let a reference lead from some file to a path.  Reading this
path as a reference from the root gives it back exactly if it is steady, and exactly then does a
store of files keep to it: whatever has been stored, the text at the path is the last one stored
under a path that means it, and the path is missing only if there is none.  In any case the store
answers as it does for the normal path of the path. -/
theorem resolved_steady_iff (current reference : String) :
    (normalPath (resolveReference current reference) = resolveReference current reference ↔
      Steady (resolveReference current reference)) ∧
    ((∀ stored, Files.Serves stored (resolveReference current reference)) ↔
      Steady (resolveReference current reference)) ∧
    ∀ stored text, (Files.storing stored).read (resolveReference current reference) = .ok text ↔
      LastUnder stored (normalPath (resolveReference current reference)) text := by
  have confined := confined_reference current reference
  have steady := confined.normalPath_eq_self_iff
  refine ⟨steady, ?_, fun stored text => Files.read_storing_eq_ok_iff⟩
  rw [← steady]
  constructor
  · obtain ⟨spelled, means⟩ := (exists_reference_iff "" _).2 confined
    exact Files.normalPath_of_serves means
  · exact Files.serves_of_normalPath

/-- A directory with the name `~` in the root is taken for the root, and the file that has been
stored in it is not found. -/
theorem resolved_unserved :
    normalPath (resolveReference "page.aspx" "/~/Header.inc") ≠
        resolveReference "page.aspx" "/~/Header.inc" ∧
      ¬ Files.Serves [("/~/Header.inc", "Welcome")]
        (resolveReference "page.aspx" "/~/Header.inc") := by
  have path : resolveReference "page.aspx" "/~/Header.inc" = "~/Header.inc" := by decide +kernel
  have stored : normalPath "/~/Header.inc" = "~/Header.inc" := by decide +kernel
  have again : normalPath "~/Header.inc" = "Header.inc" := by decide +kernel
  rw [path, again]
  refine ⟨by decide, fun serves => ?_⟩
  have missing := serves.missing.1 (Files.read_storing_eq_error_iff.2 (by simp [stored, again]))
  exact missing _ List.mem_cons_self stored

end ServerMarkup
