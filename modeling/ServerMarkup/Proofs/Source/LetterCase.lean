/-
# Letter case

Only the case of ASCII letters is of no account to names.  `small` writes the characters of a name
with small letters, and two names are the same if they come out alike (`sameName_iff_small`).  A
character that is no ASCII letter comes from itself alone (`toLower_eq_iff`), so names differ in
ASCII letters only.
-/

import ServerMarkup.Text.Alphabetic
import ServerMarkup.Text.Name
import ServerMarkup.Text.Pieces

namespace ServerMarkup

/-- Making a character small makes another of a letter only, and that is a letter too. -/
theorem toLower_eq_or_isAlpha (c : Char) :
    c.toLower = c ∨ c.isAlpha = true ∧ c.toLower.isAlpha = true := by
  unfold Char.toLower
  split
  · next range =>
    right
    have low : 65 ≤ c.val.toNat := range.1
    have high : c.val.toNat ≤ 90 := range.2
    have moved : (c.val + 32).toNat = c.val.toNat + 32 := by
      rw [UInt32.toNat_add, show (32 : UInt32).toNat = 32 from rfl]
      omega
    have small : 97 ≤ (c.val + 32).toNat ∧ (c.val + 32).toNat ≤ 122 := by omega
    unfold Char.isAlpha Char.isUpper Char.isLower
    simp only [Bool.or_eq_true, Bool.and_eq_true, decide_eq_true_eq]
    exact ⟨.inl range, .inr small⟩
  · exact .inl rfl

/-- A character that is no letter comes from itself alone. -/
theorem toLower_eq_iff {c x : Char} (other : x.isAlpha = false) : c.toLower = x ↔ c = x := by
  constructor
  · rintro rfl
    rcases toLower_eq_or_isAlpha c with same | ⟨-, letter⟩
    · exact same.symm
    · cases other.symm.trans letter
  · rintro rfl
    rcases toLower_eq_or_isAlpha c with same | ⟨letter, -⟩
    · exact same
    · cases other.symm.trans letter

/-- What is the same for all letters does not depend on letter case. -/
theorem congr_toLower {α : Type} {p : Char → α} {a : α} (letters : ∀ c, c.isAlpha = true → p c = a)
    (c : Char) : p c.toLower = p c := by
  rcases toLower_eq_or_isAlpha c with same | ⟨letter, small⟩
  · rw [same]
  · rw [letters _ small, letters c letter]

theorem beq_toLower {x : Char} (other : x.isAlpha = false) (c : Char) :
    (c.toLower == x) = (c == x) := by
  rw [Bool.eq_iff_iff, beq_iff_eq, beq_iff_eq, toLower_eq_iff other]

theorem contains_of_isAlpha {set : CharSet} {b : Bool}
    (capital : ∀ n < 91, 65 ≤ n → set.contains n = b)
    (small : ∀ n < 123, 97 ≤ n → set.contains n = b) (c : Char) (letter : c.isAlpha = true) :
    set.contains c.toNat = b := by
  unfold Char.isAlpha Char.isUpper Char.isLower at letter
  simp only [Bool.or_eq_true, Bool.and_eq_true, decide_eq_true_eq] at letter
  rcases letter with ⟨low, high⟩ | ⟨low, high⟩
  · exact capital c.toNat (Nat.lt_succ_of_le high) low
  · exact small c.toNat (Nat.lt_succ_of_le high) low

@[simp] theorem isBlank_toLower (c : Char) : isBlank c.toLower = isBlank c :=
  congr_toLower (a := false) (contains_of_isAlpha (by decide) (by decide)) c

theorem isLetter_of_isAlpha (c : Char) (letter : c.isAlpha = true) : isLetter c = true :=
  contains_of_isAlpha (by decide +kernel) (by decide +kernel) c letter

@[simp] theorem isLetter_toLower (c : Char) : isLetter c.toLower = isLetter c :=
  congr_toLower isLetter_of_isAlpha c

/-- A small letter stays as it is. -/
@[simp] theorem toLower_toLower (c : Char) : c.toLower.toLower = c.toLower := by
  by_cases range : c.val ≥ 'A'.val ∧ c.val ≤ 'Z'.val
  · have low : 65 ≤ c.val.toNat := range.1
    have high : c.val.toNat ≤ 90 := range.2
    have moved : c.toLower.val.toNat = c.val.toNat + 32 := by
      unfold Char.toLower
      rw [dif_pos range, UInt32.toNat_add, show ('a'.val - 'A'.val).toNat = 32 from rfl]
      omega
    have beyond : ¬ (c.toLower.val ≥ 'A'.val ∧ c.toLower.val ≤ 'Z'.val) := by
      rintro ⟨-, le⟩
      have : c.toLower.val.toNat ≤ 90 := le
      omega
    exact dif_neg beyond
  · have same : c.toLower = c := dif_neg range
    rw [same, same]

/-! ### Names -/

@[simp] theorem lowered_lowered (a : String) : lowered (lowered a) = lowered a := by
  simp [lowered, Function.comp_def]

/-- The characters of a name with small letters. -/
def small (a : String) : List Char :=
  a.toList.map Char.toLower

theorem sameName_iff_small {a b : String} : sameName a b = true ↔ small a = small b := by
  rw [sameName_iff, lowered, lowered, String.ofList_inj]
  rfl

theorem nameIn_eq_of_sameName {names : List String} {a b : String} (h : sameName a b = true) :
    nameIn names a = nameIn names b := by
  unfold nameIn
  refine congrArg names.any (funext ?_)
  intro n
  rw [sameName, sameName, sameName_iff.1 h]

end ServerMarkup
