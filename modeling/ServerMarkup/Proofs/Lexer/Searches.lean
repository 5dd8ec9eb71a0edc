/-
# What a search with a memory answers

A search is answered at once where an earlier one has been in vain, so its answer is as good as what
has been noted.  `Missing.Sound` says that no mark occurs from the offset on that is noted for it.
Then a search finds the first occurrence, wherever it begins, and what is noted after it is true
again (`Missing.Sound.search`).  A memory is sound if that holds of it and of every search that it
has on record.

`Scan.Returns` carries this through a computation: from every sound memory it returns, with all
numbers of turns from some on (`Ends`).  The result does not depend on the memory, and the memory is
sound again.
-/

import ServerMarkup.Lexer.Searching

namespace ServerMarkup

theorem not_prefix_of_distanceFrom? {mark : List Char} (filled : mark ≠ []) {i j : Nat}
    {cs : List Char} (h : ∀ n, distanceFrom? mark i cs = some n → i + j < n) :
    ¬ mark <+: cs.drop j := by
  induction cs generalizing i j with
  | nil => simpa using filled
  | cons c cs ih =>
    unfold distanceFrom? at h
    split at h
    · have := h i rfl
      omega
    · next away =>
      cases j with
      | zero => rwa [← List.isPrefixOf_iff_prefix]
      | succ j =>
        refine ih (i := i + 1) fun n found => ?_
        have := h n found
        omega

/-- Before the place where a mark is found it does not occur, and nowhere if it is not found. -/
theorem not_prefix_of_distance? {mark : List Char} (filled : mark ≠ []) {j : Nat} {cs : List Char}
    (h : ∀ n, distance? mark cs = some n → j < n) : ¬ mark <+: cs.drop j :=
  not_prefix_of_distanceFrom? filled fun n found => by
    rw [Nat.zero_add]
    exact h n found

theorem EndMark.chars_ne_nil (m : EndMark) : m.chars ≠ [] := by
  cases m <;> exact List.cons_ne_nil _ _

namespace Source

/-- The mark occurs in the text at the index `i`. -/
def Has (s : Source) (m : EndMark) (i : Nat) : Prop :=
  m.chars <+: s.text.drop i

/-- The first index from `start` on where the mark occurs, or nothing if it occurs at none. -/
def First (s : Source) (m : EndMark) (start : Nat) : Option Nat → Prop
  | some i => start ≤ i ∧ s.Has m i ∧ ∀ j, start ≤ j → j < i → ¬ s.Has m j
  | none => ∀ j, start ≤ j → ¬ s.Has m j

variable {s : Source} {m : EndMark} {start : Nat}

/-- Going through the text finds the first occurrence. -/
theorem first_first? (s : Source) (m : EndMark) (start : Nat) :
    s.First m start (s.first? m start) := by
  have before {j : Nat} (hj : start ≤ j)
      (h : ∀ n, distance? m.chars (s.text.drop start) = some n → j < start + n) :
      ¬ s.Has m j := by
    obtain ⟨k, rfl⟩ := Nat.exists_eq_add_of_le hj
    rw [Has, ← List.drop_drop]
    exact not_prefix_of_distance? m.chars_ne_nil fun n found => by
      have := h n found
      omega
  unfold first?
  cases found : distance? m.chars (s.text.drop start) with
  | none =>
    intro j hj
    exact before hj fun n found' => by simp [found] at found'
  | some n =>
    refine ⟨Nat.le_add_right start n, ?_, fun j hj less => before hj fun n' found' => ?_⟩
    · have here := prefix_drop_of_distance? found
      rwa [List.drop_drop] at here
    · obtain rfl := Option.some.inj (found.symm.trans found')
      exact less

theorem First.unique {a b : Option Nat} (ha : s.First m start a) (hb : s.First m start b) :
    a = b := by
  cases a with
  | none =>
    cases b with
    | none => rfl
    | some j => exact absurd hb.2.1 (ha j hb.1)
  | some i =>
    cases b with
    | none => exact absurd ha.2.1 (hb i ha.1)
    | some j =>
      rcases Nat.lt_trichotomy i j with less | same | more
      · exact absurd ha.2.1 (hb.2.2 i ha.1 less)
      · rw [same]
      · exact absurd hb.2.1 (ha.2.2 j hb.1 more)

end Source

section
variable {s : Source} {m : EndMark} {start : Nat} {missing : Missing} {mem : Memory}

namespace Missing

/-- No mark occurs from the offset on that is noted for it. -/
def Sound (s : Source) (missing : Missing) : Prop :=
  ∀ entry ∈ missing, ∀ i, entry.2 ≤ i → ¬ s.Has entry.1 i

/-- One more search in vain is noted for its mark, and for the others all stays. -/
theorem of_mem_noted {entry : EndMark × Nat} (mem : entry ∈ missing.noted m start) :
    entry ∈ missing ∨ entry.1 = m ∧ (entry.2 = start ∨ (m, entry.2) ∈ missing) := by
  unfold noted at mem
  split at mem
  · obtain ⟨old, hold, rfl⟩ := List.mem_map.1 mem
    split
    · next same =>
      right
      refine ⟨rfl, ?_⟩
      rcases Nat.le_total old.2 start with le | le
      · right
        rw [Nat.min_eq_left le, ← same]
        exact hold
      · left
        exact Nat.min_eq_right le
    · left
      exact hold
  · rcases List.mem_append.1 mem with old | new
    · left
      exact old
    · obtain rfl := List.mem_singleton.1 new
      right
      exact ⟨rfl, .inl rfl⟩

theorem Sound.noted (h : missing.Sound s) (vain : s.First m start none) :
    (missing.noted m start).Sound s := by
  intro entry hentry i hi
  obtain old | ⟨same, new | old⟩ := of_mem_noted hentry
  · exact h entry old i hi
  · rw [same]
    exact vain i (new ▸ hi)
  · rw [same]
    exact h _ old i hi

/-- **A search finds the first occurrence**, and what it notes is true, if what has been noted
before it is. -/
theorem Sound.search (h : missing.Sound s) (m : EndMark) (start : Nat) :
    s.First m start (missing.search s m start).1 ∧ (missing.search s m start).2.Sound s := by
  unfold Missing.search
  split
  · next settled =>
    obtain ⟨n, noted, le⟩ := (Option.any_eq_true _ _).1 settled
    have entry : (m, n) ∈ missing := by
      obtain ⟨front, back, split, -⟩ := List.lookup_eq_some_iff.1 noted
      rw [split]
      simp
    exact ⟨fun j hj => h _ entry j (Nat.le_trans (of_decide_eq_true le) hj), h⟩
  · have found := s.first_first? m start
    cases answer : s.first? m start with
    | some i =>
      rw [answer] at found
      exact ⟨found, h⟩
    | none =>
      rw [answer] at found
      exact ⟨found, h.noted found⟩

end Missing

namespace Memory

/-- What is remembered is true of the source, and so was all that has been remembered before. -/
structure Sound (s : Source) (mem : Memory) : Prop where
  missing : mem.missing.Sound s
  searches : ∀ q ∈ mem.searches, s.First q.mark q.start q.found ∧ q.missing.Sound s

theorem sound_empty (s : Source) : empty.Sound s :=
  ⟨fun _ mem => absurd mem List.not_mem_nil, fun _ mem => absurd mem List.not_mem_nil⟩

/-- A search with a sound memory finds the first occurrence. -/
theorem Sound.first_search (h : mem.Sound s) (m : EndMark) (start : Nat) :
    s.First m start (mem.search s m start).1 :=
  (h.missing.search m start).1

/-- A search leaves a sound memory. -/
theorem Sound.search (h : mem.Sound s) (m : EndMark) (start : Nat) :
    (mem.search s m start).2.Sound s := by
  have made := h.missing.search m start
  refine ⟨made.2, fun q hq => ?_⟩
  rcases List.mem_cons.1 hq with rfl | old
  · exact made
  · exact h.searches q old

end Memory
end

/-! ### Computations -/

/-- With enough turns the result is `a`, and with more it stays. -/
def Ends {α : Type} (x : Nat → Option α) (a : α) : Prop :=
  ∃ enough, ∀ turns, enough ≤ turns → x turns = some a

namespace Ends

variable {α β : Type} {x : Nat → Option α} {f : Nat → α → Option β} {a : α} {b : β}

theorem const (a : α) : Ends (fun _ => some a) a :=
  ⟨0, fun _ _ => rfl⟩

theorem bind (h : Ends x a) (hf : Ends (f · a) b) : Ends (fun turns => x turns >>= f turns) b := by
  obtain ⟨m, first⟩ := h
  obtain ⟨n, rest⟩ := hf
  refine ⟨max m n, fun turns le => ?_⟩
  dsimp only
  rw [first turns (Nat.le_trans (Nat.le_max_left m n) le)]
  exact rest turns (Nat.le_trans (Nat.le_max_right m n) le)

theorem map (f : α → β) (h : Ends x a) : Ends (fun turns => (x turns).map f) (f a) := by
  obtain ⟨m, ends⟩ := h
  exact ⟨m, fun turns le => by simp only [ends turns le, Option.map_some]⟩

theorem of_succ (h : Ends (fun turns => x (turns + 1)) a) : Ends x a := by
  obtain ⟨m, ends⟩ := h
  refine ⟨m + 1, fun turns le => ?_⟩
  obtain ⟨n, rfl⟩ := Nat.exists_eq_add_of_le' (Nat.le_trans (Nat.le_add_left 1 m) le)
  exact ends n (Nat.le_of_succ_le_succ le)

end Ends

namespace Scan

/-- From every memory that is sound for the source the computation returns `a`, with a sound
memory. -/
def Returns (s : Source) {α : Type} (x : Nat → Scan α) (a : α) : Prop :=
  ∀ mem : Memory, mem.Sound s → ∃ mem' : Memory,
    Ends (fun turns => (x turns).run mem) (a, mem') ∧ mem'.Sound s

variable {s : Source} {α β : Type} {x : Nat → Scan α} {f : Nat → α → Scan β} {a : α} {b : β}

theorem returns_pure (a : α) : Returns s (fun _ => pure a) a :=
  fun mem sound => ⟨mem, .const _, sound⟩

theorem Returns.bind (h : Returns s x a) (hf : Returns s (f · a) b) :
    Returns s (fun turns => x turns >>= f turns) b := by
  intro mem sound
  obtain ⟨mem₁, first, sound₁⟩ := h mem sound
  obtain ⟨mem₂, rest, sound₂⟩ := hf mem₁ sound₁
  exact ⟨mem₂, first.bind rest, sound₂⟩

theorem Returns.ite_pos {p : Prop} [Decidable p] {y : Nat → Scan α} (hp : p) (h : Returns s x a) :
    Returns s (fun turns => if p then x turns else y turns) a := by
  simpa only [if_pos hp] using h

theorem Returns.ite_neg {p : Prop} [Decidable p] {y : Nat → Scan α} (hp : ¬ p)
    (h : Returns s y a) : Returns s (fun turns => if p then x turns else y turns) a := by
  simpa only [if_neg hp] using h

theorem Returns.of_succ (h : Returns s (fun turns => x (turns + 1)) a) : Returns s x a := by
  intro mem sound
  obtain ⟨mem', ends, sound'⟩ := h mem sound
  exact ⟨mem', .of_succ ends, sound'⟩

end Scan

/-- A search answers as one that goes through the text. -/
theorem returns_find (s : Source) (m : EndMark) (start : Nat) :
    Scan.Returns s (fun _ => find s m start) (s.first? m start) := by
  intro mem sound
  have same : (mem.search s m start).1 = s.first? m start :=
    (sound.first_search m start).unique (s.first_first? m start)
  refine ⟨(mem.search s m start).2, ?_, sound.search m start⟩
  rw [← same]
  exact .const _

end ServerMarkup
