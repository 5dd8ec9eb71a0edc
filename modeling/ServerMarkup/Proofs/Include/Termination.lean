/-
# Including files ends

Each file that a chain goes on to has a path that is new on the chain, and there are finitely many,
so no chain goes on for ever (`acc_of_reached`).  A parse that is given as many levels as there are
such paths therefore never comes to its last one: whatever would be done there, and on a chain whose
paths are not lawful, the result is the same (`parseWithin_eq`).
-/

import ServerMarkup.Proofs.Include.Calls
import ServerMarkup.Types.Catalog

namespace ServerMarkup

/-- Parses a file as `parseFile` does, but calls `beyond` for files that are nested more than
`depth` deep and where the paths of the files being parsed are not lawful. -/
def parseWithin (p : Project) (beyond : Nested) : (depth : Nat) → (parsing : List String) → Nested
  | 0, _, path, text, var, outer => beyond path text var outer
  | depth + 1, parsing, path, text, var, outer =>
    if Lawful p (path :: parsing) then
      let tokens := tokenize path text
      let stop := (tokens.getLast?.map (·.span.stop)).getD .first
      buildItems p (path :: parsing) (parseWithin p beyond depth (path :: parsing))
        (.start path var outer) (itemsOf tokens) stop
    else beyond path text var outer

section
variable {p : Project} {root f : Parsing}

/-- No chain goes on for ever. -/
theorem acc_of_reached (h : Reached p root f) : Acc (fun g f => Includes p f g) f := by
  generalize left : p.chainBound root - f.paths.length = n
  induction n generalizing f with
  | zero =>
    refine ⟨f, fun g step => ?_⟩
    have le := (h.includes step).length_paths_le
    have longer := step.length_paths
    omega
  | succ n ih =>
    refine ⟨f, fun g step => ih (h.includes step) ?_⟩
    have longer := step.length_paths
    omega

/-- With levels for all paths that can still come, none is missed. -/
theorem parseWithin_eq (beyond : Nested) (h : Reached p root f) (lawful : Lawful p f.paths)
    {depth depth' : Nat} (enough : p.chainBound root < depth + f.paths.length)
    (le : depth ≤ depth') : parseWithin p beyond depth' f.around f.file f.text =
      parseFile p depth f.around f.file f.text := by
  induction depth generalizing f depth' with
  | zero =>
    have bound := h.length_paths_le
    omega
  | succ depth ih =>
    obtain ⟨depth', rfl⟩ : ∃ n, depth' = n + 1 := ⟨depth' - 1, by omega⟩
    funext var outer
    rw [parseWithin, parseFile, if_pos (show Lawful p (f.file :: f.around) from lawful)]
    refine buildItems_congr _ fun item mem reference names fresh text readable => ?_
    have step : Includes p f ⟨_, text, f.paths⟩ := .comment mem names rfl fresh readable
    refine ih (h.includes step) (lawful.includes step) ?_ (Nat.le_of_succ_le_succ le)
    have longer := step.length_paths
    omega

theorem chainBound_lt_includeDepth (path text : String) :
    p.chainBound ⟨path, text, []⟩ < includeDepth p path text + 1 := by
  have more : Nat.pow (textSize p path text + 2) (4 * textSize p path text + 3) <
      includeDepth p path text :=
    Nat.pow_lt_pow_right (Nat.succ_lt_succ (Nat.succ_pos _)) (Nat.add_lt_add_left (by decide) _)
  rw [Project.chainBound, Nat.add_comm]
  exact Nat.add_lt_add_right more 1

/-- **Including files ends.**  From any file, no chain of files that include one another goes on
for ever, and on each the paths of the files being parsed differ, ignoring case, and each above the
first names a file.  A parse comes neither to its last level nor to paths that are not lawful, for
the result is the same with more levels and whatever is done there. -/
theorem includes_end (p : Project) (path text : String) :
    Acc (fun g f => Includes p f g) ⟨path, text, []⟩ ∧
      (∀ f, Relation.ReflTransGen (Includes p) ⟨path, text, []⟩ f → Lawful p f.paths) ∧
      ∀ beyond more, parseWithin p beyond (includeDepth p path text + more) [] path text =
        parseFile p (includeDepth p path text) [] path text := by
  have single : Lawful p [path] := ⟨List.pairwise_singleton _ _, List.forall_mem_nil _⟩
  refine ⟨acc_of_reached (reached_refl p _), fun f chain => ?_, fun beyond more => ?_⟩
  · induction chain with
    | refl => exact single
    | tail _ step ih => exact ih.includes step
  · exact parseWithin_eq beyond (reached_refl p ⟨path, text, []⟩) single
      (chainBound_lt_includeDepth path text) (Nat.le_add_right _ _)

end

/-- A project with a file that includes itself under another spelling of its name. -/
def Project.looped : Project :=
  ⟨Catalog.empty.resolver, Files.empty.insert "a.inc" "<%--#include file=./A.inc--%>", .standard⟩

/-- A page that includes the file has it above itself. -/
theorem includes_end_looped : ∃ f, f.paths = ["a.inc", "page.aspx"] ∧
    Includes .looped ⟨"page.aspx", "<%--#include file=a.inc--%>", []⟩ f ∧
    Lawful .looped f.paths := by
  have names : (itemsOf (tokenize "page.aspx" "<%--#include file=a.inc--%>")).map
      (·.form.reference?) = [some "a.inc"] := by decide +kernel
  obtain ⟨item, only, names⟩ := List.map_eq_singleton_iff.1 names
  have mem : item ∈ itemsOf (tokenize "page.aspx" "<%--#include file=a.inc--%>") := by
    rw [only]
    exact List.mem_singleton.2 rfl
  have resolved : resolveReference "page.aspx" "a.inc" = "a.inc" := by decide +kernel
  have fresh : nameIn ["page.aspx"] "a.inc" = false := by decide +kernel
  have stored : Project.looped.files.text? "a.inc" = some "<%--#include file=./A.inc--%>" := by
    decide +kernel
  have readable : Project.looped.files.read "a.inc" = .ok "<%--#include file=./A.inc--%>" := by
    rw [Files.read, stored]
    rfl
  have step : Includes .looped ⟨"page.aspx", "<%--#include file=a.inc--%>", []⟩
      ⟨"a.inc", "<%--#include file=./A.inc--%>", ["page.aspx"]⟩ :=
    .comment mem names resolved fresh readable
  exact ⟨_, rfl, step, (includes_end .looped "page.aspx" "<%--#include file=a.inc--%>").2.1 _
    (.single step)⟩

end ServerMarkup
