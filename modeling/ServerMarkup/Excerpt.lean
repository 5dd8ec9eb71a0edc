/-
# Excerpts of source text

An excerpt is a string together with the span it was read from.  Cutting an excerpt cuts the span
with it: the positions of the parts are counted from the start of the whole over the characters of
the whole, so a cut between a carriage return and its line feed sees the line feed.
-/

import ServerMarkup.Span
import ServerMarkup.Text.Name
import ServerMarkup.Text.Pieces

namespace ServerMarkup

/-- A string and the span that holds it. -/
structure Excerpt where
  value : String
  span : Span
deriving DecidableEq, Repr

namespace Excerpt

/-- The characters of the excerpt. -/
def chars (e : Excerpt) : List Char :=
  e.value.toList

/-- The number of characters of the excerpt. -/
def length (e : Excerpt) : Nat :=
  e.chars.length

/-- Whether the excerpt is the name `name`, in any letter case. -/
def isNamed (e : Excerpt) (name : String) : Bool :=
  sameName e.value name

/-- The position of the character with index `i`, or the end if there is none. -/
def positionAt (e : Excerpt) (i : Nat) : Position :=
  e.span.start.into i e.chars

/-- The characters from index `a` up to `b`; an index past the end means the end, and nothing is
left if `a` is not below `b`. -/
def slice (e : Excerpt) (a b : Nat) : Excerpt :=
  let b := min b e.length
  let a := min a b
  ⟨String.ofList ((e.chars.take b).drop a), ⟨e.span.file, e.positionAt a, e.positionAt b⟩⟩

/-- The parts before and from the character with index `i`. -/
def splitAt (e : Excerpt) (i : Nat) : Excerpt × Excerpt :=
  (e.slice 0 i, e.slice i e.length)

/-- The excerpt without the blanks at its ends. -/
def trim (e : Excerpt) : Excerpt :=
  let leading := (e.chars.takeWhile isBlank).length
  let trailing := (e.chars.reverse.takeWhile isBlank).length
  e.slice leading (max leading (e.length - trailing))

@[simp] theorem chars_slice (e : Excerpt) (a b : Nat) :
    (e.slice a b).chars = (e.chars.take b).drop a := by
  simp only [slice, chars, String.toList_ofList, length]
  rcases Nat.le_total b e.value.toList.length with hb | hb
  · rw [Nat.min_eq_left hb]
    rcases Nat.le_total a b with ha | ha
    · rw [Nat.min_eq_left ha]
    · rw [Nat.min_eq_right ha, List.drop_of_length_le, List.drop_of_length_le]
      all_goals
        rw [List.length_take]
        omega
  · rw [Nat.min_eq_right hb, List.take_of_length_le (Nat.le_refl _), List.take_of_length_le hb]
    rcases Nat.le_total a e.value.toList.length with ha | ha
    · rw [Nat.min_eq_left ha]
    · rw [Nat.min_eq_right ha, List.drop_of_length_le (Nat.le_refl _), List.drop_of_length_le ha]

/-- The two parts of a split meet at one position. -/
theorem splitAt_meet (e : Excerpt) (i : Nat) :
    (e.splitAt i).1.span.stop = (e.splitAt i).2.span.start := by
  simp [splitAt, slice]

/-- The two parts of a split hold the characters of the whole. -/
theorem chars_splitAt (e : Excerpt) (i : Nat) :
    (e.splitAt i).1.chars ++ (e.splitAt i).2.chars = e.chars := by
  simp [splitAt, length]

end Excerpt

end ServerMarkup
