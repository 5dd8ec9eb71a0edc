/-
# Names without letter case

Tags, attributes, types, prefixes and paths are compared without regard to the case of ASCII
letters, and of these alone: `É` and `é` are different letters of a name.  `lowered` writes a name
with small letters, `sameName` compares two of them, and `namedAt` looks for a word at the start
of a text.
-/

namespace ServerMarkup

/-- The name with its ASCII capitals made small. -/
def lowered (s : String) : String :=
  String.ofList (s.toList.map Char.toLower)

/-- Two names are the same if they differ at most in the case of ASCII letters. -/
def sameName (a b : String) : Bool :=
  lowered a == lowered b

theorem sameName_iff {a b : String} : sameName a b = true ↔ lowered a = lowered b := by
  simp [sameName]

@[simp] theorem sameName_refl (a : String) : sameName a a = true := by
  simp [sameName]

theorem sameName_comm (a b : String) : sameName a b = sameName b a := by
  rw [Bool.eq_iff_iff, sameName_iff, sameName_iff]
  exact eq_comm

theorem sameName_trans {a b c : String} (h : sameName a b = true) (k : sameName b c = true) :
    sameName a c = true := by
  rw [sameName_iff] at *
  exact h.trans k

/-- Whether some name of the list is the same as `name`. -/
def nameIn (names : List String) (name : String) : Bool :=
  names.any (sameName · name)

/-- Whether the text begins with the small-letter word `word`, in any letter case. -/
def namedAt : (word : List Char) → (text : List Char) → Bool
  | [], _ => true
  | _ :: _, [] => false
  | w :: ws, c :: cs => c.toLower == w && namedAt ws cs

example : namedAt ['r', 'u', 'n'] ['R', 'u', 'N', ' '] = true := by decide

example : sameName "AsP" "aSp" = true ∧ sameName "É" "é" = false := by decide +kernel

end ServerMarkup
