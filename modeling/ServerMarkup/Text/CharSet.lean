/-
# Sets of characters as sorted ranges

A character class of the Unicode standard is a set of code points, given as closed ranges in
increasing order with a gap between any two.  `CharSet.contains` walks the ranges and stops at
the first one that lies above the code point, so an ASCII character is answered by the first few
ranges of a table of any length; `contains_eq_any` says that nothing is lost by stopping.
-/

namespace ServerMarkup

/-- Closed ranges of code points, in increasing order. -/
abbrev CharSet := List (Nat × Nat)

namespace CharSet

/-- No range begins below `n`, each runs upwards, and the next begins after a gap. -/
def sortedFrom (n : Nat) : CharSet → Bool
  | [] => true
  | (lo, hi) :: s => n ≤ lo && lo ≤ hi && sortedFrom (hi + 2) s

/-- Whether `n` lies in one of the ranges; the search ends at the first range above `n`. -/
def contains : CharSet → Nat → Bool
  | [], _ => false
  | (lo, hi) :: s, n => if n < lo then false else if n ≤ hi then true else contains s n

/-- How many code points the ranges hold. -/
def count (s : CharSet) : Nat :=
  s.foldl (fun n r => n + (r.2 + 1 - r.1)) 0

/-- Below the first range of a sorted set there is nothing. -/
theorem any_eq_false_of_lt {s : CharSet} {m n : Nat} (h : sortedFrom m s = true) (hn : n < m) :
    (s.any fun r => r.1 ≤ n && n ≤ r.2) = false := by
  induction s generalizing m with
  | nil => rfl
  | cons r s ih =>
    obtain ⟨lo, hi⟩ := r
    simp only [sortedFrom, Bool.and_eq_true, decide_eq_true_eq] at h
    simp only [List.any_cons, ih h.2 (by omega), Bool.or_false, Bool.and_eq_false_imp,
      decide_eq_true_eq, decide_eq_false_iff_not]
    omega

/-- In a sorted set the early end of the search loses nothing. -/
theorem contains_eq_any {s : CharSet} {m : Nat} (h : sortedFrom m s = true) (n : Nat) :
    s.contains n = s.any fun r => r.1 ≤ n && n ≤ r.2 := by
  induction s generalizing m with
  | nil => rfl
  | cons r s ih =>
    obtain ⟨lo, hi⟩ := r
    simp only [sortedFrom, Bool.and_eq_true, decide_eq_true_eq] at h
    simp only [contains, List.any_cons]
    by_cases h1 : n < lo
    · rw [if_pos h1, decide_eq_false (show ¬ lo ≤ n by omega), Bool.false_and, Bool.false_or,
        any_eq_false_of_lt h.2 (by omega)]
    · by_cases h2 : n ≤ hi
      · have h3 : lo ≤ n := by omega
        simp [h1, h2, h3]
      · simp [h1, h2, ih h.2]

end CharSet

end ServerMarkup
