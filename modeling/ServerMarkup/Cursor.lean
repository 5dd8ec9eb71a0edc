/-
# Cursors

A cursor stands between two characters of a source: it knows its position and the text that
follows.  It moves forward only, by a number of characters, so every position is the one that
`Position.into` counts over the source itself.
-/

import ServerMarkup.Source
import ServerMarkup.Token

namespace ServerMarkup

/-- A position in a source and the text from there on. -/
structure Cursor where
  pos : Position
  rest : List Char
deriving DecidableEq, Repr

namespace Cursor

/-- The number of characters before the cursor. -/
def offset (c : Cursor) : Nat :=
  c.pos.offset

/-- The cursor `n` characters further on, or at the end. -/
def skip (c : Cursor) (n : Nat) : Cursor :=
  ⟨c.pos.into n c.rest, c.rest.drop n⟩

/-- The cursor after the blanks that follow. -/
def skipBlanks (c : Cursor) : Cursor :=
  c.skip (c.rest.takeWhile isBlank).length

/-- Whether the text that follows begins with the mark. -/
def sees (c : Cursor) (mark : List Char) : Bool :=
  mark.isPrefixOf c.rest

@[simp] theorem rest_skip (c : Cursor) (n : Nat) : (c.skip n).rest = c.rest.drop n := rfl

theorem length_rest_skip (c : Cursor) (n : Nat) :
    (c.skip n).rest.length = c.rest.length - n := by
  simp

@[simp] theorem skip_zero (c : Cursor) : c.skip 0 = c := by
  simp [skip]

/-- Two moves make one. -/
theorem skip_skip (c : Cursor) (m n : Nat) : (c.skip m).skip n = c.skip (m + n) := by
  simp [skip, Position.into_add, List.drop_drop]

theorem offset_skip (c : Cursor) (n : Nat) :
    (c.skip n).offset = c.offset + min n c.rest.length := by
  simp [skip, offset]

theorem length_rest_skipBlanks_le (c : Cursor) : c.skipBlanks.rest.length ≤ c.rest.length := by
  simp [skipBlanks]

end Cursor

namespace Source

/-- The cursor before the first character. -/
def begin (s : Source) : Cursor :=
  ⟨Position.first, s.text⟩

/-- The span of the `n` characters after the cursor. -/
def span (s : Source) (c : Cursor) (n : Nat) : Span :=
  ⟨s.file, c.pos, (c.skip n).pos⟩

/-- The `n` characters after the cursor. -/
def excerpt (s : Source) (c : Cursor) (n : Nat) : Excerpt :=
  ⟨String.ofList (c.rest.take n), s.span c n⟩

@[simp] theorem chars_excerpt (s : Source) (c : Cursor) (n : Nat) :
    (s.excerpt c n).chars = c.rest.take n := by
  simp [excerpt, Excerpt.chars]

end Source

end ServerMarkup
