/-
# The parts of a variable

A variable is joined from parts by underscores, and one extends another if it begins with all the
parts of that one.  As long as parts have no underscores of their own, a variable that extends
another one has a next part (`nextPart_eq`), so it does not extend two variables that differ in
their last parts only (`part_unique`).
-/

import Mathlib.Data.List.Infix
import ServerMarkup.Proofs.Tree.Stages

namespace ServerMarkup

/-- The variable is `v`, or goes on after `v` with an underscore. -/
def Extends (v w : String) : Prop :=
  w = v ∨ (v ++ "_").toList <+: w.toList

instance (v w : String) : Decidable (Extends v w) :=
  inferInstanceAs (Decidable (_ ∨ _))

namespace Extends

variable {u v w : String}

theorem refl (v : String) : Extends v v :=
  .inl rfl

theorem isPrefix (h : Extends v w) : v.toList <+: w.toList := by
  obtain rfl | h := h
  · exact List.prefix_rfl
  · rw [String.toList_append] at h
    exact (List.prefix_append _ _).trans h

theorem trans (h : Extends u v) (k : Extends v w) : Extends u w := by
  obtain rfl | h := h
  · exact k
  · exact .inr (h.trans k.isPrefix)

theorem part (v p : String) : Extends v (v ++ "_" ++ p) := by
  refine .inr ?_
  rw [String.toList_append (s := v ++ "_")]
  exact List.prefix_append _ _

/-- A variable does not extend one of more parts. -/
theorem not_part (v p : String) : ¬ Extends (v ++ "_" ++ p) v := by
  intro h
  have size := h.isPrefix.length_le
  simp only [String.toList_append, List.length_append] at size
  have one : "_".toList.length = 1 := rfl
  omega

end Extends

/-- The part of `w` after those of `v`. -/
def nextPart (v w : String) : List Char :=
  (w.toList.drop (v.toList.length + 1)).takeWhile (· != '_')

section
variable {v w p q : String}

theorem nextPart_eq (name : '_' ∉ p.toList) (h : Extends (v ++ "_" ++ p) w) :
    nextPart v w = p.toList := by
  have own : ∀ c ∈ p.toList, (c != '_') = true := by
    intro c mem
    rw [bne_iff_ne]
    rintro rfl
    exact name mem
  have split (rest : List Char) (e : w.toList = v.toList ++ '_' :: (p.toList ++ rest)) :
      nextPart v w = p.toList ++ rest.takeWhile (· != '_') := by
    rw [nextPart, e, ← List.drop_drop, List.drop_left, List.drop_one, List.tail_cons,
      List.takeWhile_append_of_pos own]
  obtain rfl | ⟨rest, e⟩ := h
  · rw [split [] (by simp), List.takeWhile_nil, List.append_nil]
  · rw [split ('_' :: rest) (by rw [← e]; simp), List.takeWhile_cons_of_neg (by simp),
      List.append_nil]

/-- **A variable extends at most one of the variables with one more part.** -/
theorem part_unique (hp : '_' ∉ p.toList) (hq : '_' ∉ q.toList) (h : Extends (v ++ "_" ++ p) w)
    (k : Extends (v ++ "_" ++ q) w) : p = q := by
  rw [← String.toList_inj, ← nextPart_eq hp h, nextPart_eq hq k]

end

/-- A number is a part. -/
theorem underscore_notMem_toString (n : Nat) : '_' ∉ (toString n).toList := by
  rw [Nat.toString_eq_repr, Nat.toList_repr]
  intro mem
  exact absurd (Nat.isDigit_of_mem_toDigits (by omega) le_rfl mem) (by decide)

/-- A variable extends at most one numbered variable. -/
theorem number_unique {v w : String} {m n : Nat} (h : Extends (v ++ "_" ++ toString m) w)
    (k : Extends (v ++ "_" ++ toString n) w) : m = n := by
  have same := part_unique (underscore_notMem_toString m) (underscore_notMem_toString n) h k
  have digits := congrArg (fun s : String => Nat.ofDigitChars 10 s.toList 0) same
  simpa [Nat.toString_eq_repr] using digits

end ServerMarkup
