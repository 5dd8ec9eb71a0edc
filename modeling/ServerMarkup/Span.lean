/-
# Spans of source text

A span is a stretch of a named file from one position to another.  It is written as the place
where it begins, `file:line:column`.
-/

import ServerMarkup.Position

namespace ServerMarkup

/-- The text of `file` from `start` up to `stop`. -/
structure Span where
  file : String
  start : Position
  stop : Position
deriving DecidableEq, Repr

namespace Span

/-- The span without characters at `place`. -/
def empty (file : String) (place : Position) : Span :=
  ⟨file, place, place⟩

/-- Whether the span holds no characters. -/
def isEmpty (s : Span) : Bool :=
  s.start.offset == s.stop.offset

/-- How many characters the span holds. -/
def length (s : Span) : Nat :=
  s.stop.offset - s.start.offset

/-- From the start of one span to the end of another, in the file of the first. -/
def join (s t : Span) : Span :=
  ⟨s.file, s.start, t.stop⟩

/-- The place where the span begins, as `file:line:column`. -/
def place (s : Span) : String :=
  s.file ++ ":" ++ toString s.start.line ++ ":" ++ toString s.start.column

end Span

end ServerMarkup
