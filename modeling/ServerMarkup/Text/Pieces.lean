/-
# Trimming, splitting and joining

What is cut off a text at its ends, and where a text falls apart: `trim` takes the blanks off both
ends, `pieces` cuts at every occurrence of a separator, `cutFirst` and `cutLast` at the first and
at the last one.  `joined_pieces` says that cutting and joining at one separator gives the text
back, so `pieces` loses nothing.

A blank is a character with the Unicode property `White_Space`: the ASCII space, tab, line feed,
vertical tab, form feed and carriage return, the next-line control, the no-break space and the
spaces and separators of the general punctuation block.  The zero-width space and the byte order
mark are none.
-/

import ServerMarkup.Text.CharSet

namespace ServerMarkup

/-- The code points with the property `White_Space`. -/
def blanks : CharSet := [
  (0x9, 0xD), (0x20, 0x20), (0x85, 0x85), (0xA0, 0xA0), (0x1680, 0x1680), (0x2000, 0x200A),
  (0x2028, 0x2029), (0x202F, 0x202F), (0x205F, 0x205F), (0x3000, 0x3000)
]

example : CharSet.sortedFrom 0 blanks ∧ blanks.count = 25 := by decide

/-- Whether a character is a blank. -/
def isBlank (c : Char) : Bool :=
  blanks.contains c.toNat

example : isBlank ' ' ∧ isBlank '\u00a0' ∧ isBlank '\u3000' := by decide

example : ¬ isBlank '\u200b' ∧ ¬ isBlank '\ufeff' ∧ ¬ isBlank '\x1c' := by decide

/-- The text without the blanks it begins with. -/
def trimStart (cs : List Char) : List Char :=
  cs.dropWhile isBlank

/-- The text without the blanks it ends with. -/
def trimEnd (cs : List Char) : List Char :=
  (cs.reverse.dropWhile isBlank).reverse

/-- The text without blanks at either end. -/
def trim (cs : List Char) : List Char :=
  trimEnd (trimStart cs)

/-- A string without blanks at either end. -/
def trimmed (s : String) : String :=
  String.ofList (trim s.toList)

/-- The stretches between the separators; a text without one is a single piece. -/
def pieces (sep : Char) : List Char → List (List Char)
  | [] => [[]]
  | c :: cs =>
    if c = sep then [] :: pieces sep cs
    else match pieces sep cs with
      | [] => [[c]]
      | p :: ps => (c :: p) :: ps

/-- The pieces with one separator between any two. -/
def joined (sep : Char) : List (List Char) → List Char
  | [] => []
  | [p] => p
  | p :: q :: ps => p ++ sep :: joined sep (q :: ps)

/-- What stands before and after the first separator, if there is one. -/
def cutFirst (sep : Char) (cs : List Char) : Option (List Char × List Char) :=
  match cs.dropWhile (· != sep) with
  | [] => none
  | _ :: rest => some (cs.takeWhile (· != sep), rest)

/-- What stands before and after the last separator, if there is one. -/
def cutLast (sep : Char) (cs : List Char) : Option (List Char × List Char) :=
  (cutFirst sep cs.reverse).map fun (after, before) => (before.reverse, after.reverse)

/-- What stands after the last separator, or the whole text if there is none. -/
def afterLast (sep : Char) (cs : List Char) : List Char :=
  ((cutLast sep cs).map Prod.snd).getD cs

theorem pieces_ne_nil (sep : Char) (cs : List Char) : pieces sep cs ≠ [] := by
  cases cs with
  | nil => simp [pieces]
  | cons c cs =>
    unfold pieces
    split
    · simp
    · split <;> simp

/-- Joining the pieces at the separator they were cut at gives the text back. -/
theorem joined_pieces (sep : Char) (cs : List Char) : joined sep (pieces sep cs) = cs := by
  induction cs with
  | nil => rfl
  | cons c cs ih =>
    unfold pieces
    split
    · next h =>
      cases hp : pieces sep cs with
      | nil => exact absurd hp (pieces_ne_nil sep cs)
      | cons p ps => simp [joined, ← hp, ih, h]
    · split
      · next hp => exact absurd hp (pieces_ne_nil sep cs)
      · next p ps hp =>
        rw [hp] at ih
        cases ps with
        | nil => simpa [joined] using ih
        | cons q qs => simpa [joined] using ih

/-- No piece holds the separator. -/
theorem not_mem_of_mem_pieces {sep : Char} {cs p : List Char} (h : p ∈ pieces sep cs) :
    sep ∉ p := by
  induction cs generalizing p with
  | nil => simp_all [pieces]
  | cons c cs ih =>
    unfold pieces at h
    split at h
    · rcases List.mem_cons.1 h with rfl | h
      · simp
      · exact ih h
    · next hc =>
      split at h
      · next hp => exact absurd hp (pieces_ne_nil sep cs)
      · next q qs hp =>
        rcases List.mem_cons.1 h with rfl | h
        · have := ih (p := q) (by simp [hp])
          simp [this, Ne.symm hc]
        · exact ih (by simp [hp, h])

example : pieces '/' "a//b".toList = ["a".toList, [], "b".toList] := by decide +kernel

example : cutLast '.' "a.b.c".toList = some ("a.b".toList, "c".toList) := by decide +kernel

end ServerMarkup
