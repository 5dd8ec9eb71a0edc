/-
# What a message says of its arguments

A message is the template of its code with the arguments filled in one after the other, so what has
been filled in for one argument is searched for the places of the later ones.  `Diagnostic.verbatim`
is the template with all places filled at once: an argument that itself reads like a place is quoted
as it is.

No character of a place stands in the rest of a template, so nothing that is replaced goes beyond
the text of one argument: a message is its template with each argument *carried* in, that is with
the later arguments filled into it (`message_eq`).  Between two arguments there is a quotation mark,
which filling in never takes away; counting these marks tells the arguments of a message apart, and
a message quotes all its arguments exactly if carrying changes none (`message_eq_verbatim_iff`).
-/

import Mathlib.Data.List.Infix
import ServerMarkup.Diagnostic
import ServerMarkup.Proofs.Source.Cuts

namespace ServerMarkup

/-! ### Replacing words of a table -/

/-- The first entry of the table whose word the text begins with. -/
def entryAt? (table : List (List Char × List Char)) (text : List Char) :
    Option (List Char × List Char) :=
  table.find? fun entry => entry.1.isPrefixOf text

/-- The text with each word of the table replaced; the first `skip` characters belong to a word that
has been replaced already. -/
def replaceEachFrom (table : List (List Char × List Char)) : Nat → List Char → List Char
  | _, [] => []
  | skip + 1, _ :: cs => replaceEachFrom table skip cs
  | 0, c :: cs =>
    match entryAt? table (c :: cs) with
    | some (word, new) => new ++ replaceEachFrom table (word.length - 1) cs
    | none => c :: replaceEachFrom table 0 cs

/-- The text with each word of the table replaced, in one pass from the left; what has been written
is not searched again. -/
def replaceEach (table : List (List Char × List Char)) (text : List Char) : List Char :=
  replaceEachFrom table 0 text

section
variable {table : List (List Char × List Char)} {word new t u : List Char} {c : Char}

theorem prefix_of_entryAt? (h : entryAt? table t = some (word, new)) : word <+: t := by
  have here := List.find?_some (p := fun entry : List Char × List Char => entry.1.isPrefixOf t) h
  exact List.isPrefixOf_iff_prefix.1 here

/-- A text with no word of the table stays as it is. -/
theorem replaceEach_of_not_infix (h : ∀ entry ∈ table, ¬ entry.1 <:+: t) :
    replaceEach table t = t := by
  unfold replaceEach
  induction t with
  | nil => rfl
  | cons c t ih =>
    have none : entryAt? table (c :: t) = none := by
      rw [entryAt?, List.find?_eq_none]
      exact fun entry mem here => h entry mem (List.isPrefixOf_iff_prefix.1 here).isInfix
    have rest := ih fun entry mem inside =>
      h entry mem (inside.trans (List.suffix_cons c t).isInfix)
    simp only [replaceEachFrom, none, rest]

/-- What has no character of a word stays in front of a text. -/
theorem replaceEach_lead (words : ∀ entry ∈ table, entry.1 ≠ [])
    (apart : ∀ entry ∈ table, ∀ c ∈ t, c ∉ entry.1) :
    replaceEach table (t ++ u) = t ++ replaceEach table u := by
  induction t with
  | nil => rfl
  | cons c t ih =>
    have none : entryAt? table (c :: (t ++ u)) = none := by
      rw [entryAt?, List.find?_eq_none]
      intro entry mem here
      obtain ⟨x, word, hx⟩ := List.exists_cons_of_ne_nil (words entry mem)
      rw [List.isPrefixOf_iff_prefix, hx, List.cons_prefix_cons] at here
      exact apart entry mem c List.mem_cons_self (hx ▸ here.1 ▸ List.mem_cons_self)
    have rest := ih fun entry mem d hd => apart entry mem d (List.mem_cons_of_mem c hd)
    unfold replaceEach at rest ⊢
    simp only [List.cons_append, replaceEachFrom, none, rest]

/-- A text that is a word of the table is replaced. -/
theorem replaceEach_of_entryAt? (h : entryAt? table t = some (t, new)) (more : t ≠ []) :
    replaceEach table t = new := by
  obtain ⟨c, cs, rfl⟩ := List.exists_cons_of_ne_nil more
  have nothing (cs : List Char) : replaceEachFrom table cs.length cs = [] := by
    induction cs with
    | nil => rfl
    | cons c cs ih => exact ih
  simp only [replaceEach, replaceEachFrom, h, List.length_cons, Nat.add_sub_cancel, nothing,
    List.append_nil]

/-- A word goes on into what stands behind a text only if it has the first character there. -/
theorem prefix_append_iff (apart : ∀ x ∈ u.head?, x ∉ word) : word <+: t ++ u ↔ word <+: t := by
  refine ⟨fun h => ?_, fun h => h.trans (List.prefix_append t u)⟩
  rcases Nat.le_total word.length t.length with short | long
  · exact List.prefix_of_prefix_length_le h (List.prefix_append t u) short
  · obtain ⟨inner, rfl⟩ := List.prefix_of_prefix_length_le (List.prefix_append t u) h long
    rw [List.prefix_append_right_inj] at h
    cases inner with
    | nil => simp
    | cons x inner =>
      obtain ⟨rest, rfl⟩ := h
      exact absurd (List.mem_append_right t List.mem_cons_self) (apart x rfl)

theorem entryAt?_append (apart : ∀ entry ∈ table, ∀ x ∈ u.head?, x ∉ entry.1) :
    entryAt? table (t ++ u) = entryAt? table t := by
  induction table with
  | nil => rfl
  | cons entry table ih =>
    have same : entry.1.isPrefixOf (t ++ u) = entry.1.isPrefixOf t := by
      rw [Bool.eq_iff_iff, List.isPrefixOf_iff_prefix, List.isPrefixOf_iff_prefix]
      exact prefix_append_iff (apart entry List.mem_cons_self)
    have rest := ih fun entry mem => apart entry (List.mem_cons_of_mem _ mem)
    unfold entryAt? at rest ⊢
    rw [List.find?_cons, List.find?_cons, same, rest]

/-- Two texts are replaced in apart if the second one begins with a character of no word. -/
theorem replaceEach_append (apart : ∀ entry ∈ table, ∀ x ∈ u.head?, x ∉ entry.1) :
    replaceEach table (t ++ u) = replaceEach table t ++ replaceEach table u := by
  have all (skip : Nat) (within : skip ≤ t.length) : replaceEachFrom table skip (t ++ u) =
      replaceEachFrom table skip t ++ replaceEachFrom table 0 u := by
    induction t generalizing skip with
    | nil =>
      obtain rfl := Nat.le_zero.1 within
      rfl
    | cons c t ih =>
      cases skip with
      | succ skip => exact ih skip (Nat.le_of_succ_le_succ within)
      | zero =>
        have same : entryAt? table (c :: (t ++ u)) = entryAt? table (c :: t) :=
          entryAt?_append (t := c :: t) apart
        simp only [List.cons_append, replaceEachFrom, same]
        split
        · next word new found =>
          have inside := (prefix_of_entryAt? found).length_le
          rw [List.length_cons] at inside
          rw [ih _ (by omega), List.append_assoc]
        · rw [ih 0 (Nat.zero_le _), List.cons_append]
  exact all 0 (Nat.zero_le _)

/-- A character of no word is never taken away. -/
theorem count_replaceEach (words : ∀ entry ∈ table, entry.1 ≠ [])
    (apart : ∀ entry ∈ table, c ∉ entry.1) (t : List Char) :
    t.count c ≤ (replaceEach table t).count c := by
  have all (skip : Nat) : (t.drop skip).count c ≤ (replaceEachFrom table skip t).count c := by
    fun_induction replaceEachFrom table skip t with
    | case1 => simp
    | case2 skip d cs ih => exact ih
    | case3 d cs word new found ih =>
      have mem := List.mem_of_find?_eq_some found
      have none : word.count c = 0 := List.count_eq_zero.2 (apart _ mem)
      obtain ⟨x, word, rfl⟩ := List.exists_cons_of_ne_nil (words _ mem)
      obtain ⟨rest, whole⟩ := prefix_of_entryAt? found
      rw [List.cons_append] at whole
      obtain ⟨rfl, rfl⟩ := List.cons.inj whole
      rw [List.length_cons, Nat.add_sub_cancel, List.drop_left] at ih
      rw [List.drop_zero, ← List.cons_append, List.count_append, none, List.count_append,
        List.length_cons, Nat.add_sub_cancel]
      omega
    | case4 d cs none ih =>
      rw [List.drop_zero] at ih ⊢
      rw [List.count_cons, List.count_cons]
      omega
  exact all 0

/-- Replacing one word is replacing those of a table with this word only. -/
theorem replaceAll_eq (word new text : List Char) :
    replaceAll word new text = replaceEach [(word, new)] text := by
  have all (skip : Nat) : replaceFrom word new skip text =
      replaceEachFrom [(word, new)] skip text := by
    fun_induction replaceFrom word new skip text with
    | case1 => rfl
    | case2 skip c cs ih => exact ih
    | case3 c cs here ih => simp [replaceEachFrom, entryAt?, here, ih]
    | case4 c cs away ih => simp [replaceEachFrom, entryAt?, away, ih]
  exact all 0

end

namespace DiagnosticCode

/-- How many places for arguments the template of the code has. -/
def places (code : DiagnosticCode) : Nat :=
  code.template.toList.count '\x7b'

/-- What stands before the first place of the template, and behind each place up to the next one. -/
def stretches (code : DiagnosticCode) : List Char × List (List Char) :=
  match pieces '\x7b' code.template.toList with
  | [] => ([], [])
  | lead :: rest => (lead, rest.map fun p => (p.dropWhile (· != '\x7d')).drop 1)

end DiagnosticCode

namespace Diagnostic

/-- The places `i`, `i + 1`, and so on as `slot` has them, each with the stretch behind it. -/
def laid (slot : Nat → List Char) (i : Nat) : List (List Char) → List Char
  | [] => []
  | l :: ls => slot i ++ (l ++ laid slot (i + 1) ls)

/-- The template of the code with the places as `slot` has them. -/
def arranged (code : DiagnosticCode) (slot : Nat → List Char) : List Char :=
  code.stretches.1 ++ laid slot 0 code.stretches.2

/-- The places of the arguments and what belongs there. -/
def table (args : List String) : List (List Char × List Char) :=
  args.zipIdx.map fun (arg, i) => (placeholder i, arg.toList)

/-- The template with all the places that have an argument filled at once. -/
def verbatim (d : Diagnostic) : String :=
  String.ofList (replaceEach (table d.args) d.code.template.toList)

/-- The argument of the place `i`, or the place itself if it has none. -/
def given (args : List String) (i : Nat) : List Char :=
  (args[i]?.map String.toList).getD (placeholder i)

/-- The argument of the place `i` with the later ones filled into it, or the place itself. -/
def carried (args : List String) (i : Nat) : List Char :=
  (args[i]?.map fun arg => fill (i + 1) arg.toList (args.drop (i + 1))).getD (placeholder i)

/-- Whether the character may stand in a place. -/
def isPlaceChar (c : Char) : Bool :=
  c == '\x7b' || c == '\x7d' || c.isDigit

/-- The stretches between the places of a template: none has a character of a place, and but for the
last one they begin with a quotation mark. -/
structure Parting (stretches : List Char × List (List Char)) : Prop where
  lead : ∀ c ∈ stretches.1, isPlaceChar c = false
  plain : ∀ l ∈ stretches.2, ∀ c ∈ l, isPlaceChar c = false
  quoted : ∀ l ∈ stretches.2.dropLast, l.head? = some '\x27'

instance (stretches : List Char × List (List Char)) : Decidable (Parting stretches) :=
  -- Checked character by character of the stretches.
  decidable_of_iff (stretches.1.all (!isPlaceChar ·) = true ∧
      stretches.2.all (·.all (!isPlaceChar ·)) = true ∧
      stretches.2.dropLast.all (·.head? == some '\x27') = true) <| by
    simp only [List.all_eq_true, Bool.not_eq_true', beq_iff_eq]
    exact ⟨fun h => ⟨h.1, h.2.1, h.2.2⟩, fun h => ⟨h.lead, h.plain, h.quoted⟩⟩

variable {args : List String} {i j : Nat} {text t u : List Char}

/-! ### Templates -/

theorem parting_stretches (code : DiagnosticCode) : Parting code.stretches := by
  cases code <;> decide +kernel

/-- The places of a template are those of the first arguments, in their order. -/
theorem template_eq (code : DiagnosticCode) :
    code.template.toList = arranged code placeholder := by
  cases code <;> decide +kernel

/-! ### Places -/

theorem isPlaceChar_of_mem {c : Char} (h : c ∈ placeholder i) : isPlaceChar c = true := by
  rw [placeholder, List.mem_cons, List.mem_append, List.mem_singleton] at h
  obtain rfl | digit | rfl := h
  · rfl
  · simp [isPlaceChar, Nat.isDigit_of_mem_toDigits (by omega) le_rfl digit]
  · rfl

/-- A place tells the number of its argument. -/
theorem eq_of_prefix (h : placeholder i <+: placeholder j ++ t) : i = j := by
  obtain ⟨rest, h⟩ := h
  have free (n : Nat) : '\x7d' ∉ Nat.toDigits 10 n := fun mem =>
    absurd (Nat.isDigit_of_mem_toDigits (by omega) le_rfl mem) (by decide)
  have same : Nat.toDigits 10 i ++ '\x7d' :: rest = Nat.toDigits 10 j ++ '\x7d' :: t := by
    simpa [placeholder] using h
  have cut := congrArg (cutFirst '\x7d') same
  rw [cutFirst_append (free i), cutFirst_append (free j), Option.some.injEq, Prod.mk.injEq] at cut
  have digits := congrArg (Nat.ofDigitChars 10 · 0) cut.1
  simpa using digits

/-- A place has no other one in it. -/
theorem eq_of_infix (h : placeholder i <:+: placeholder j) : i = j := by
  obtain ⟨before, after, h⟩ := h
  cases before with
  | nil => exact eq_of_prefix (t := []) ⟨after, by simpa using h⟩
  | cons c before =>
    have inner : '\x7b' ∈ Nat.toDigits 10 j ++ ['\x7d'] := by
      have := (List.cons.inj h).2
      rw [← this]
      simp [placeholder]
    rw [List.mem_append, List.mem_singleton] at inner
    rcases inner with digit | brace
    · exact absurd (Nat.isDigit_of_mem_toDigits (by omega) le_rfl digit) (by decide)
    · cases brace

theorem count_placeholder (i : Nat) : (placeholder i).count '\x7b' = 1 := by
  have digits : (Nat.toDigits 10 i).count '\x7b' = 0 := List.count_eq_zero.2 fun mem =>
    absurd (Nat.isDigit_of_mem_toDigits (by omega) le_rfl mem) (by decide)
  simp [placeholder, digits]

theorem count_of_plain (plain : ∀ c ∈ t, isPlaceChar c = false) : t.count '\x7b' = 0 :=
  List.count_eq_zero.2 fun mem => absurd (plain _ mem) (by decide)

/-- As many places are laid out as there are stretches behind them. -/
theorem count_laid {ls : List (List Char)} (plain : ∀ l ∈ ls, ∀ c ∈ l, isPlaceChar c = false) :
    (laid placeholder i ls).count '\x7b' = ls.length := by
  induction ls generalizing i with
  | nil => rfl
  | cons l ls ih =>
    obtain ⟨own, others⟩ := List.forall_mem_cons.1 plain
    rw [laid, List.count_append, List.count_append, count_placeholder, count_of_plain own,
      ih others, List.length_cons]
    omega

theorem length_stretches (code : DiagnosticCode) : code.stretches.2.length = code.places := by
  have parting := parting_stretches code
  rw [DiagnosticCode.places, template_eq, arranged, List.count_append,
    count_of_plain parting.lead, count_laid parting.plain, Nat.zero_add]

/-! ### Filling in goes on inside the arguments -/

theorem mem_dropLast_cons {l m : List Char} {ls : List (List Char)} (h : m ∈ ls.dropLast) :
    m ∈ (l :: ls).dropLast := by
  cases ls with
  | nil => cases h
  | cons _ _ => exact List.mem_cons_of_mem l h

/-- A change of a text that leaves what stands between places as it is: it changes two texts apart
where no place goes from one into the other, and takes no quotation mark away. -/
structure Local (change : List Char → List Char) : Prop where
  nil : change [] = []
  lead : ∀ l t, (∀ c ∈ l, isPlaceChar c = false) → change (l ++ t) = l ++ change t
  append : ∀ t u, (∀ c ∈ u.head?, isPlaceChar c = false) → change (t ++ u) = change t ++ change u
  keeps : ∀ t, t.count '\x27' ≤ (change t).count '\x27'

namespace Local

variable {change next : List Char → List Char}

theorem of_words {table : List (List Char × List Char)} (words : ∀ entry ∈ table, entry.1 ≠ [])
    (made : ∀ entry ∈ table, ∀ c ∈ entry.1, isPlaceChar c = true) : Local (replaceEach table) := by
  have apart {c : Char} (plain : isPlaceChar c = false) : ∀ entry ∈ table, c ∉ entry.1 :=
    fun entry mem inside => by simp [made entry mem c inside] at plain
  refine ⟨rfl, fun l t plain => ?_, fun t u plain => ?_, count_replaceEach words (apart rfl)⟩
  · exact replaceEach_lead words fun entry mem c hc => apart (plain c hc) entry mem
  · exact replaceEach_append fun entry mem c hc => apart (plain c hc) entry mem

theorem comp (first : Local change) (second : Local next) : Local fun t => next (change t) := by
  refine ⟨?_, fun l t plain => ?_, fun t u plain => ?_, fun t => ?_⟩
  · rw [first.nil, second.nil]
  · rw [first.lead l t plain, second.lead l _ plain]
  · rw [first.append t u plain, second.append]
    -- The second text begins as before: it is empty, or its first character stays.
    cases u with
    | nil => rwa [first.nil]
    | cons c u =>
      have stays := first.lead [c] u (by simpa using plain c rfl)
      rw [List.singleton_append, List.singleton_append] at stays
      rwa [stays]
  · exact Nat.le_trans (first.keeps t) (second.keeps _)

/-- What changes a text between places only, changes laid out places one by one. -/
theorem laid (h : Local change) (slot : Nat → List Char) {i : Nat} {ls : List (List Char)}
    (plain : ∀ l ∈ ls, ∀ c ∈ l, isPlaceChar c = false)
    (quoted : ∀ l ∈ ls.dropLast, l.head? = some '\x27') :
    change (laid slot i ls) = Diagnostic.laid (fun k => change (slot k)) i ls := by
  induction ls generalizing i with
  | nil => exact h.nil
  | cons l ls ih =>
    have own := plain l List.mem_cons_self
    have begins : ∀ c ∈ (l ++ Diagnostic.laid slot (i + 1) ls).head?, isPlaceChar c = false := by
      intro c hc
      cases ls with
      | nil =>
        rw [Diagnostic.laid, List.append_nil] at hc
        exact own c (List.mem_of_mem_head? hc)
      | cons m ls =>
        rw [List.head?_append, quoted l (by simp)] at hc
        obtain rfl := Option.some.inj hc
        rfl
    have rest := ih (i := i + 1) (fun m hm => plain m (List.mem_cons_of_mem l hm)) fun m hm =>
      quoted m (mem_dropLast_cons hm)
    rw [Diagnostic.laid, h.append _ _ begins, h.lead _ _ own, rest, Diagnostic.laid]

theorem arranged (h : Local change) (code : DiagnosticCode) (slot : Nat → List Char) :
    change (arranged code slot) = Diagnostic.arranged code fun k => change (slot k) := by
  have parting := parting_stretches code
  rw [Diagnostic.arranged, h.lead _ _ parting.lead, h.laid slot parting.plain parting.quoted,
    Diagnostic.arranged]

end Local

theorem placeholder_ne_nil (i : Nat) : placeholder i ≠ [] :=
  List.cons_ne_nil _ _

theorem mem_table {entry : List Char × List Char} : entry ∈ table args ↔
    ∃ i arg, args[i]? = some arg ∧ entry = (placeholder i, arg.toList) := by
  rw [table, List.mem_map]
  constructor
  · rintro ⟨⟨arg, i⟩, mem, rfl⟩
    exact ⟨i, arg, List.mem_zipIdx_iff_getElem?.1 mem, rfl⟩
  · rintro ⟨i, arg, at_, rfl⟩
    exact ⟨(arg, i), List.mem_zipIdx_iff_getElem?.2 at_, rfl⟩

theorem local_table (args : List String) : Local (replaceEach (table args)) := by
  refine .of_words (fun entry mem => ?_) fun entry mem c hc => ?_
  · obtain ⟨i, arg, -, rfl⟩ := mem_table.1 mem
    exact placeholder_ne_nil i
  · obtain ⟨i, arg, -, rfl⟩ := mem_table.1 mem
    exact isPlaceChar_of_mem hc

theorem local_fill (i : Nat) (args : List String) : Local fun t => fill i t args := by
  induction args generalizing i with
  | nil => exact ⟨rfl, fun _ _ _ => rfl, fun _ _ _ => rfl, fun _ => Nat.le_refl _⟩
  | cons arg args ih =>
    have first : Local (replaceAll (placeholder i) arg.toList) := by
      rw [funext (replaceAll_eq (placeholder i) arg.toList)]
      refine .of_words (fun entry mem => ?_) fun entry mem c hc => ?_
      · obtain rfl := List.mem_singleton.1 mem
        exact placeholder_ne_nil i
      · obtain rfl := List.mem_singleton.1 mem
        exact isPlaceChar_of_mem hc
    exact first.comp (ih (i + 1))

/-! ### One place -/

theorem fill_of_not_infix (h : ∀ k < args.length, ¬ placeholder (i + k) <:+: t) :
    fill i t args = t := by
  induction args generalizing i with
  | nil => rfl
  | cons arg args ih =>
    have first : ¬ placeholder i <:+: t := h 0 (Nat.zero_lt_succ _)
    rw [fill, replaceAll_of_not_infix first]
    refine ih fun k hk => ?_
    rw [Nat.add_right_comm]
    exact h (k + 1) (Nat.succ_lt_succ hk)

/-- A place takes its argument, into which the later ones are filled. -/
theorem fill_placeholder (args : List String) (j : Nat) :
    fill 0 (placeholder j) args = carried args j := by
  have all (i k : Nat) (args : List String) : fill i (placeholder (i + k)) args =
      (args[k]?.map fun arg => fill (i + k + 1) arg.toList (args.drop (k + 1))).getD
        (placeholder (i + k)) := by
    induction args generalizing i k with
    | nil => rfl
    | cons arg args ih =>
      cases k with
      | zero =>
        have whole : replaceAll (placeholder i) arg.toList (placeholder i) = arg.toList := by
          rw [replaceAll_eq]
          refine replaceEach_of_entryAt? ?_ (placeholder_ne_nil i)
          simp [entryAt?]
        simp [fill, whole]
      | succ k =>
        have other : ¬ placeholder i <:+: placeholder (i + (k + 1)) := fun inside => by
          have := eq_of_infix inside
          omega
        rw [fill, replaceAll_of_not_infix other, ← Nat.add_assoc, Nat.add_right_comm, ih]
        rfl
  have := all 0 j args
  rwa [Nat.zero_add] at this

theorem replaceEach_placeholder (args : List String) (j : Nat) :
    replaceEach (table args) (placeholder j) = given args j := by
  cases found : entryAt? (table args) (placeholder j) with
  | none =>
    have free : ∀ entry ∈ table args, ¬ entry.1 <+: placeholder j := fun entry mem here =>
      absurd (List.isPrefixOf_iff_prefix.2 here) (List.find?_eq_none.1 found entry mem)
    have none : args[j]? = none := by
      by_contra some
      obtain ⟨arg, some⟩ := Option.ne_none_iff_exists'.1 some
      exact free _ (mem_table.2 ⟨j, arg, some, rfl⟩) List.prefix_rfl
    rw [given, none, Option.map_none, Option.getD_none]
    refine replaceEach_of_not_infix fun entry mem inside => ?_
    obtain ⟨i, arg, some, rfl⟩ := mem_table.1 mem
    obtain rfl := eq_of_infix inside
    simp [none] at some
  | some entry =>
    obtain ⟨i, arg, some, rfl⟩ := mem_table.1 (List.mem_of_find?_eq_some found)
    obtain rfl := eq_of_infix (prefix_of_entryAt? found).isInfix
    rw [replaceEach_of_entryAt? found (placeholder_ne_nil _), given, some]
    rfl

/-- **A message is its template with each argument carried into its place.** -/
theorem message_eq (d : Diagnostic) :
    d.message = String.ofList (arranged d.code (carried d.args)) := by
  rw [message, template_eq, (local_fill 0 d.args).arranged, funext (fill_placeholder d.args)]

theorem verbatim_eq (d : Diagnostic) :
    d.verbatim = String.ofList (arranged d.code (given d.args)) := by
  rw [verbatim, template_eq, (local_table d.args).arranged, funext (replaceEach_placeholder d.args)]

/-! ### Telling the arguments of a message apart -/

/-- What stands before a mark is told by the number of marks in it. -/
theorem eq_of_append_cons {q : Char} {a b u v : List Char} (h : a ++ q :: u = b ++ q :: v)
    (count : a.count q = b.count q) : a = b := by
  have none {w c d : List Char} (split : q :: c = w ++ d) (free : w.count q = 0) : w = [] := by
    cases w with
    | nil => rfl
    | cons x w =>
      obtain ⟨rfl, -⟩ := List.cons.inj split
      simp at free
  obtain ⟨w, rfl, split⟩ | ⟨w, rfl, split⟩ := List.append_eq_append_iff.1 h
  · rw [List.count_append] at count
    rw [none split (by omega), List.append_nil]
  · rw [List.count_append] at count
    rw [none split (by omega), List.append_nil]

section
variable {f g : Nat → List Char} {ls : List (List Char)}

theorem count_laid_le (keeps : ∀ k, (g k).count '\x27' ≤ (f k).count '\x27') (i : Nat) :
    (laid g i ls).count '\x27' ≤ (laid f i ls).count '\x27' := by
  induction ls generalizing i with
  | nil => exact Nat.le_refl _
  | cons l ls ih =>
    have here := keeps i
    have rest := ih (i + 1)
    simp only [laid, List.count_append]
    omega

/-- Texts that are laid out to the same have the same texts in each place, where the marks of one
are among those of the other. -/
theorem eq_of_laid_eq (keeps : ∀ k, (g k).count '\x27' ≤ (f k).count '\x27') {i : Nat}
    (quoted : ∀ l ∈ ls.dropLast, l.head? = some '\x27') (h : laid f i ls = laid g i ls) {k : Nat}
    (hk : k < ls.length) : f (i + k) = g (i + k) := by
  induction ls generalizing i k with
  | nil => cases hk
  | cons l ls ih =>
    have here := keeps i
    have rest := @count_laid_le f g ls keeps (i + 1)
    have counts := congrArg (List.count '\x27') h
    simp only [laid, List.count_append] at counts
    simp only [laid] at h
    have first : f i = g i := by
      cases ls with
      | nil => exact List.append_cancel_right h
      | cons m ls =>
        obtain ⟨l, rfl⟩ := List.head?_eq_some_iff.1 (quoted l (by simp))
        exact eq_of_append_cons h (by omega)
    cases k with
    | zero => exact first
    | succ k =>
      rw [first, List.append_right_inj, List.append_right_inj] at h
      have later := ih (i := i + 1) (k := k) (fun m hm => quoted m (mem_dropLast_cons hm)) h
        (Nat.lt_of_succ_lt_succ hk)
      rwa [Nat.add_right_comm] at later

theorem laid_congr (same : ∀ k < ls.length, f (i + k) = g (i + k)) :
    laid f i ls = laid g i ls := by
  induction ls generalizing i with
  | nil => rfl
  | cons l ls ih =>
    have first : f i = g i := same 0 (Nat.zero_lt_succ _)
    have rest := ih (i := i + 1) fun k hk => by
      rw [Nat.add_right_comm]
      exact same (k + 1) (Nat.succ_lt_succ hk)
    rw [laid, laid, first, rest]

end

theorem carried_eq_given_iff : carried args i = given args i ↔
    ∀ arg ∈ args[i]?, fill (i + 1) arg.toList (args.drop (i + 1)) = arg.toList := by
  unfold carried given
  cases args[i]? with
  | none => simp
  | some arg => simp

theorem count_given_le (args : List String) (i : Nat) :
    (given args i).count '\x27' ≤ (carried args i).count '\x27' := by
  unfold carried given
  cases args[i]? with
  | none => exact Nat.le_refl _
  | some arg => exact (local_fill _ _).keeps _

/-- **A message quotes its arguments if the later ones change nothing in them.**  It is the template
with all the places filled at once exactly if each argument that has a place stays as it is when the
later arguments are filled into it, one after the other; so it is whenever no argument holds the
place of a later one. -/
theorem message_eq_verbatim_iff (d : Diagnostic) :
    (d.message = d.verbatim ↔ ∀ i < d.code.places, ∀ arg ∈ d.args[i]?,
      fill (i + 1) arg.toList (d.args.drop (i + 1)) = arg.toList) ∧
    ((∀ j < d.args.length, ∀ i < j, ∀ arg ∈ d.args[i]?, ¬ placeholder j <:+: arg.toList) →
      d.message = d.verbatim) := by
  have quoted := (parting_stretches d.code).quoted
  have whole : d.message = d.verbatim ↔ ∀ i < d.code.places, ∀ arg ∈ d.args[i]?,
      fill (i + 1) arg.toList (d.args.drop (i + 1)) = arg.toList := by
    simp only [← carried_eq_given_iff]
    rw [message_eq, verbatim_eq, String.ofList_inj, arranged, arranged, List.append_right_inj,
      ← length_stretches]
    constructor
    · intro same i hi
      simpa using eq_of_laid_eq (count_given_le d.args) quoted same hi
    · intro same
      exact laid_congr (by simpa using same)
  refine ⟨whole, fun free => whole.2 fun i _ arg mem => fill_of_not_infix fun k hk => ?_⟩
  rw [List.length_drop] at hk
  exact free (i + 1 + k) (by omega) i (by omega) arg mem

/-- A tag that is registered for two types, whose prefix reads like a place. -/
def doubled (tagPrefix : String) : Diagnostic :=
  ⟨.duplicateControlRegister, ⟨"page.aspx", ⟨56, 1, 57⟩, ⟨112, 1, 113⟩⟩,
    [tagPrefix ++ ":b", "Site.A", "Site.B"]⟩

/-- One with the place of the tag itself and one that no argument has. -/
def harmless : Diagnostic :=
  doubled "\x7b0\x7d\x7b3\x7d"

/-- Places that no later argument has are quoted. -/
theorem message_eq_verbatim_harmless :
    (∀ i < harmless.code.places, ∀ arg ∈ harmless.args[i]?,
        fill (i + 1) arg.toList (harmless.args.drop (i + 1)) = arg.toList) ∧
      harmless.message = harmless.verbatim := by
  have stays : ∀ i < harmless.code.places, ∀ arg ∈ harmless.args[i]?,
      fill (i + 1) arg.toList (harmless.args.drop (i + 1)) = arg.toList := by decide +kernel
  exact ⟨stays, (message_eq_verbatim_iff harmless).1.2 stays⟩

/-- The place of the first type gives way to it. -/
theorem message_ne_verbatim :
    (doubled "\x7b1\x7d").message =
        "Tag 'Site.A:b' is already registered as 'Site.A' and cannot be registered as 'Site.B'" ∧
      (doubled "\x7b1\x7d").verbatim =
        "Tag '\x7b1\x7d:b' is already registered as 'Site.A' and cannot be registered as 'Site.B'" ∧
      (doubled "\x7b1\x7d").message ≠ (doubled "\x7b1\x7d").verbatim := by
  decide +kernel

end Diagnostic
end ServerMarkup
