/-
# Places in a source

A cursor of the lexer has come to its place by single steps, each of which has seen the character
that really follows.  `Position.counted` is the position that counting the characters of the whole
text gives, and `Cursor.On` says that a cursor agrees with it: moving forward keeps that
(`On.skip`), so no reader has to count anew.
-/

import ServerMarkup.Cursor

namespace ServerMarkup

namespace Position

/-- The characters of a text, each with the one that follows it. -/
def withNext : List Char → List (Char × Option Char)
  | [] => []
  | c :: cs => (c, cs.head?) :: withNext cs

/-- The position of index `n` in a text: the characters before it are stepped over one by one, from
the first place on, each seeing the one that follows it in the text. -/
def counted (cs : List Char) (n : Nat) : Position :=
  ((withNext cs).take n).foldl (fun p x => p.advance x.1 x.2) first

theorem into_eq_foldl (p : Position) (n : Nat) (cs : List Char) :
    p.into n cs = ((withNext cs).take n).foldl (fun p x => p.advance x.1 x.2) p := by
  induction n generalizing p cs with
  | zero => simp
  | succ n ih =>
    cases cs with
    | nil => simp [withNext]
    | cons c cs => simpa [into, withNext] using ih (p.advance c cs.head?) cs

theorem counted_eq_into (cs : List Char) (n : Nat) : counted cs n = first.into n cs :=
  (into_eq_foldl first n cs).symm

theorem counted_of_length_le {cs : List Char} {n : Nat} (h : cs.length ≤ n) :
    counted cs n = counted cs cs.length := by
  rw [counted_eq_into, counted_eq_into, into_of_length_le _ h, across]

/-- Going on from a counted position counts on. -/
theorem counted_into (cs : List Char) (m n : Nat) :
    (counted cs m).into n (cs.drop m) = counted cs (m + n) := by
  rw [counted_eq_into, counted_eq_into, into_add]

/-- Going one character further sees that character and the next one. -/
theorem into_succ (p : Position) {i : Nat} {cs : List Char} {c : Char} (h : cs[i]? = some c) :
    p.into (i + 1) cs = (p.into i cs).advance c cs[i + 1]? := by
  obtain ⟨hi, rfl⟩ := List.getElem?_eq_some_iff.1 h
  rw [into_add, List.drop_eq_getElem_cons hi, into, into_zero, List.head?_drop]

end Position

namespace Cursor

/-- The cursor stands in the source: its position is counted from the start of the text, and what
follows it is the rest of the text. -/
structure On (s : Source) (c : Cursor) : Prop where
  pos_eq : c.pos = .counted s.text c.offset
  rest_eq : c.rest = s.text.drop c.offset
  offset_le : c.offset ≤ s.text.length

theorem on_begin (s : Source) : s.begin.On s :=
  ⟨rfl, rfl, Nat.zero_le _⟩

namespace On

variable {s : Source} {c : Cursor}

theorem length_rest (h : c.On s) : c.rest.length = s.text.length - c.offset := by
  rw [h.rest_eq, List.length_drop]

theorem skip (h : c.On s) (n : Nat) : (c.skip n).On s := by
  have hlen := h.length_rest
  have hle := h.offset_le
  have hoff := c.offset_skip n
  rcases Nat.le_total n c.rest.length with hn | hn
  · rw [Nat.min_eq_left hn] at hoff
    refine ⟨?_, ?_, by omega⟩
    · rw [hoff, ← Position.counted_into, ← h.pos_eq, ← h.rest_eq]
      rfl
    · rw [hoff, rest_skip, h.rest_eq, List.drop_drop]
  · rw [Nat.min_eq_right hn] at hoff
    have hend : (c.skip n).offset = s.text.length := by omega
    refine ⟨?_, ?_, by omega⟩
    · rw [hend, ← Position.counted_of_length_le (n := c.offset + n) (by omega),
        ← Position.counted_into, ← h.pos_eq, ← h.rest_eq]
      rfl
    · rw [hend, rest_skip, List.drop_of_length_le hn, List.drop_length]

theorem skipBlanks (h : c.On s) : c.skipBlanks.On s :=
  h.skip _

/-- The character `i` places after the cursor. -/
theorem getElem?_rest (h : c.On s) (i : Nat) : c.rest[i]? = s.text[c.offset + i]? := by
  rw [h.rest_eq, List.getElem?_drop]

end On
end Cursor
end ServerMarkup
