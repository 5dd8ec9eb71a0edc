/-
# Replacing a word in a text

`replaceAll word new text` writes `new` for every occurrence of `word`, taken from the left and
without overlaps; what has been written is not searched again.
-/

namespace ServerMarkup

/-- The text with `new` for each occurrence of `word`; the first `skip` characters belong to an
occurrence that has been replaced already. -/
def replaceFrom (word new : List Char) : Nat → List Char → List Char
  | _, [] => []
  | skip + 1, _ :: cs => replaceFrom word new skip cs
  | 0, c :: cs =>
    if word.isPrefixOf (c :: cs) then new ++ replaceFrom word new (word.length - 1) cs
    else c :: replaceFrom word new 0 cs

/-- The text with `new` for each occurrence of the word, from the left and without overlaps. -/
def replaceAll (word new text : List Char) : List Char :=
  replaceFrom word new 0 text

/-- A text in which the word does not occur stays as it is. -/
theorem replaceAll_of_not_infix {word new text : List Char} (h : ¬ word <:+: text) :
    replaceAll word new text = text := by
  unfold replaceAll
  induction text with
  | nil => rfl
  | cons c cs ih =>
    have h1 : word.isPrefixOf (c :: cs) = false := by
      rw [Bool.eq_false_iff, ne_eq, List.isPrefixOf_iff_prefix]
      exact fun hp => h hp.isInfix
    have h2 : ¬ word <:+: cs := fun hi => h (hi.trans (List.suffix_cons c cs).isInfix)
    simp [replaceFrom, h1, ih h2]

example : replaceAll ['a', 'a'] ['b'] ['a', 'a', 'a', 'c'] = ['b', 'a', 'c'] := by decide

end ServerMarkup
