/-
# Chains of included files

A file that is being parsed goes on to one that it includes (`Includes`), under a path that no file
around it has.  The paths stay different in that way, and each but the first is that of a file
(`Lawful.includes`).  All that a chain of files comes by stands in the first file or is stored: the
paths are made of names over these letters, and each has a stored normal path, so it is bounded
(`Reached.includes`).  There are finitely many such paths, and no chain is longer than their number
(`Reached.length_paths_le`).
-/

import Mathlib.Logic.Relation
import ServerMarkup.Proofs.Include.Paths

namespace ServerMarkup

/-! ### Words -/

/-- The words over the letters that are not longer than `n`. -/
def wordsOver (letters : List Char) : (n : Nat) → List (List Char)
  | 0 => [[]]
  | n + 1 => [] :: letters.flatMap fun c => (wordsOver letters n).map (c :: ·)

theorem mem_wordsOver {letters w : List Char} {n : Nat} (chars : ∀ c ∈ w, c ∈ letters)
    (short : w.length ≤ n) : w ∈ wordsOver letters n := by
  induction n generalizing w with
  | zero =>
    obtain rfl := List.length_eq_zero_iff.1 (Nat.le_zero.1 short)
    exact List.mem_cons_self
  | succ n ih =>
    cases w with
    | nil => exact List.mem_cons_self
    | cons c w =>
      obtain ⟨hc, hw⟩ := List.forall_mem_cons.1 chars
      exact List.mem_cons_of_mem _ (List.mem_flatMap.2
        ⟨c, hc, List.mem_map_of_mem (ih hw (Nat.le_of_succ_le_succ short))⟩)

theorem length_wordsOver_le (letters : List Char) (n : Nat) :
    (wordsOver letters n).length ≤ (letters.length + 1).pow n := by
  induction n with
  | zero => exact Nat.le_refl 1
  | succ n ih =>
    have count : (letters.flatMap fun c => (wordsOver letters n).map (c :: ·)).length =
        letters.length * (wordsOver letters n).length := by
      simp [List.length_flatMap, List.map_const']
    have pos : 1 ≤ (letters.length + 1).pow n := Nat.one_le_pow _ _ (Nat.succ_pos _)
    have le := Nat.mul_le_mul_left letters.length ih
    have next : (letters.length + 1).pow (n + 1) =
        (letters.length + 1).pow n * (letters.length + 1) := rfl
    rw [wordsOver, List.length_cons, count, next, Nat.mul_succ, Nat.mul_comm _ letters.length]
    omega

/-! ### Letters -/

/-- The characters of a file and of all that is stored. -/
def Project.letters (p : Project) (path text : String) : List Char :=
  path.toList ++ text.toList ++ p.files.texts.flatMap fun f => f.1.toList ++ f.2.toList

section
variable {p : Project} {path text : String}

theorem Project.length_letters : (p.letters path text).length = textSize p path text := by
  have sum (fs : List (String × String)) (n : Nat) :
      fs.foldl (fun n f => n + f.1.length + f.2.length) n =
        n + (fs.flatMap fun f => f.1.toList ++ f.2.toList).length := by
    induction fs generalizing n with
    | nil => rfl
    | cons f fs ih =>
      rw [List.foldl_cons, ih, List.flatMap_cons, List.length_append, List.length_append]
      simp only [String.length_toList]
      omega
  rw [letters, textSize, sum, List.length_append, List.length_append, String.length_toList,
    String.length_toList]

/-- What is stored stands in the letters. -/
theorem Project.infix_stored {f : String × String} (h : f ∈ p.files.texts) :
    f.1.toList <:+: p.letters path text ∧ f.2.toList <:+: p.letters path text := by
  have all : f.1.toList ++ f.2.toList <:+: p.letters path text := by
    obtain ⟨before, after, same⟩ := List.append_of_mem h
    rw [letters, same, List.flatMap_append, List.flatMap_cons, ← List.append_assoc]
    exact ⟨_, _, List.append_assoc _ _ _⟩
  exact ⟨(List.prefix_append _ _).isInfix.trans all, (List.suffix_append _ _).isInfix.trans all⟩

end

/-! ### Chains -/

/-- Files that are being parsed: the path and the text of the innermost one, and the paths of those
around it. -/
structure Parsing where
  file : String
  text : String
  around : List String

/-- The paths of the files, innermost first. -/
def Parsing.paths (f : Parsing) : List String :=
  f.file :: f.around

/-- A comment of the innermost file includes a file, which becomes the innermost one. -/
inductive Includes (p : Project) (f : Parsing) : Parsing → Prop where
  | comment {item : Item} {reference path text : String}
    (mem : item ∈ itemsOf (tokenize f.file f.text))
    (names : item.form.reference? = some reference)
    (resolved : resolveReference f.file reference = path)
    (fresh : nameIn f.paths path = false)
    (readable : p.files.read path = .ok text) : Includes p f ⟨path, text, f.paths⟩

theorem Includes.length_paths {p : Project} {f g : Parsing} (h : Includes p f g) :
    g.paths.length = f.paths.length + 1 := by
  cases h
  rfl

/-- The paths differ, ignoring case, and each but that of the outermost file names a file. -/
structure Lawful (p : Project) (paths : List String) : Prop where
  different : paths.Pairwise fun a b => sameName a b = false
  files : ∀ path ∈ paths.dropLast, p.files.isFile path = true

instance (p : Project) (paths : List String) : Decidable (Lawful p paths) :=
  decidable_of_iff (paths.Pairwise (fun a b => sameName a b = false) ∧
    ∀ path ∈ paths.dropLast, p.files.isFile path = true)
    ⟨fun ⟨h, h'⟩ => ⟨h, h'⟩, fun ⟨h, h'⟩ => ⟨h, h'⟩⟩

section
variable {p : Project} {root f g : Parsing}

theorem nameIn_eq_false {names : List String} {name : String} :
    nameIn names name = false ↔ ∀ other ∈ names, sameName other name = false := by
  simp [nameIn]

theorem notMem_of_nameIn {names : List String} {name : String} (h : nameIn names name = false) :
    name ∉ names := fun known => by
  simpa using nameIn_eq_false.1 h name known

/-- The paths stay lawful. -/
theorem Lawful.includes (h : Lawful p f.paths) (step : Includes p f g) : Lawful p g.paths := by
  obtain ⟨-, -, rfl, fresh, readable⟩ := step
  refine ⟨List.pairwise_cons.2 ⟨fun other ho => ?_, h.different⟩, ?_⟩
  · rw [sameName_comm]
    exact nameIn_eq_false.1 fresh other ho
  · exact List.forall_mem_cons.2 ⟨Files.isFile_of_read readable, h.files⟩

/-- A path that is made of names over what stands in the file or is stored, and is that of a stored
file. -/
structure Bounded (p : Project) (root : Parsing) (path : String) : Prop where
  names : OfNames (textSize p root.file root.text) ('/' :: p.letters root.file root.text) path
  stored : (p.files.text? path).isSome

/-- What stands in the letters is short and over the letters. -/
theorem within_of_stretch {path text : String} {cs : List Char} (h : cs <:+: p.letters path text) :
    Within (textSize p path text) ('/' :: p.letters path text) cs := by
  refine within_of_length ?_ fun c hc => List.mem_cons_of_mem _ (h.subset hc)
  rw [← p.length_letters]
  exact h.length_le

theorem Bounded.mem_wordsOver {path : String} (h : Bounded p root path) :
    path.toList ∈ wordsOver ('/' :: p.letters root.file root.text)
      (4 * textSize p root.file root.text + 3) := by
  refine ServerMarkup.mem_wordsOver (h.names.within List.mem_cons_self).chars ?_
  obtain ⟨text, stored⟩ := Option.isSome_iff_exists.1 h.stored
  have key : (normalPath path).toList <:+: p.letters root.file root.text :=
    (p.infix_stored (Files.mem_of_text? stored)).1
  have short := key.length_le
  have le := h.names.length_le
  rw [p.length_letters, String.length_toList] at short
  omega

/-- What a chain from `root` has come to: the paths of files included on the way are bounded, and
so is what the innermost file may include. -/
structure Reached (p : Project) (root f : Parsing) : Prop where
  paths : ∃ inner, f.paths = inner ++ root.paths ∧ inner.Nodup ∧
    ∀ path ∈ inner, Bounded p root path
  file : Within (textSize p root.file root.text) ('/' :: p.letters root.file root.text)
    f.file.toList
  text : f.text.toList <:+: p.letters root.file root.text

theorem reached_refl (p : Project) (root : Parsing) : Reached p root root := by
  have file : root.file.toList <:+: p.letters root.file root.text :=
    ((List.prefix_append _ _).trans (List.prefix_append _ _)).isInfix
  have text : root.text.toList <:+: p.letters root.file root.text :=
    (List.suffix_append _ _).isInfix.trans (List.prefix_append _ _).isInfix
  exact ⟨⟨[], rfl, List.nodup_nil, List.forall_mem_nil _⟩, within_of_stretch file, text⟩

/-- A file is included under a bounded path: the reference stands in the file around it, and its
text is a stored one. -/
theorem Reached.includes (h : Reached p root f) (step : Includes p f g) : Reached p root g := by
  obtain ⟨mem, names, rfl, fresh, readable⟩ := step
  obtain ⟨inner, paths, nodup, bounded⟩ := h.paths
  have reference := (infix_trim _).trans ((infix_of_reference? mem names).trans h.text)
  have path := names_resolveReference h.file (within_of_stretch reference)
  have stored := Files.text?_of_read readable
  refine ⟨⟨_ :: inner, congrArg (List.cons _) paths, List.nodup_cons.2 ⟨fun known => ?_, nodup⟩,
    List.forall_mem_cons.2 ⟨⟨path, by rw [stored]; rfl⟩, bounded⟩⟩,
    path.within List.mem_cons_self, (p.infix_stored (Files.mem_of_text? stored)).2⟩
  -- a path that is on the chain already would not have been new
  refine notMem_of_nameIn fresh ?_
  rw [paths]
  exact List.mem_append_left _ known

/-- The number of words that bounded paths can be, and of the paths the chain begins with. -/
def Project.chainBound (p : Project) (root : Parsing) : Nat :=
  root.paths.length +
    Nat.pow (textSize p root.file root.text + 2) (4 * textSize p root.file root.text + 3)

/-- No chain is longer than there are bounded paths. -/
theorem Reached.length_paths_le (h : Reached p root f) : f.paths.length ≤ p.chainBound root := by
  obtain ⟨inner, paths, nodup, bounded⟩ := h.paths
  have count := length_wordsOver_le ('/' :: p.letters root.file root.text)
    (4 * textSize p root.file root.text + 3)
  have words : inner.map String.toList ⊆ wordsOver ('/' :: p.letters root.file root.text)
      (4 * textSize p root.file root.text + 3) := by
    intro w hw
    obtain ⟨path, hp, rfl⟩ := List.mem_map.1 hw
    exact (bounded path hp).mem_wordsOver
  have different : (inner.map String.toList).Nodup :=
    List.Pairwise.map _ (fun _ _ other same => other (String.toList_injective same)) nodup
  have le := different.length_le_of_subset words
  rw [List.length_map] at le
  rw [List.length_cons, p.length_letters] at count
  rw [paths, List.length_append, Nat.add_comm, Project.chainBound]
  exact Nat.add_le_add_left (Nat.le_trans le count) _

end

end ServerMarkup
