/-
# Paths of a project

A reference in a page is resolved to a path from the project root: `~/` and `/` begin at the root,
anything else at the directory of the page.  Backslashes count as slashes, `.` and empty segments
fall away, and `..` takes the segment before it along, if there is one, so no reference leaves the
project.  The result has single slashes between its segments and none in front.
-/

import ServerMarkup.Text.Pieces

namespace ServerMarkup

/-- The path with slashes for backslashes. -/
def slashed (cs : List Char) : List Char :=
  cs.map fun c => if c = '\\' then '/' else c

/-- The directory of a file's path, or nothing if it has none. -/
def directoryOf (path : List Char) : List Char :=
  ((cutLast '/' path).map Prod.fst).getD []

/-- One segment more on a path whose segments are kept last first. -/
def addSegment (path : List (List Char)) (segment : List Char) : List (List Char) :=
  if segment = [] ∨ segment = ['.'] then path
  else if segment = ['.', '.'] then path.tail
  else segment :: path

/-- The segments that are left of a path, in order. -/
def normalSegments (segments : List (List Char)) : List (List Char) :=
  (segments.foldl addSegment []).reverse

/-- The segments that a reference names, before any falls away. -/
def namedSegments (current reference : List Char) : List (List Char) :=
  match slashed (trim reference) with
  | '~' :: '/' :: rest => pieces '/' rest
  | '/' :: rest => pieces '/' rest
  | rest => pieces '/' (directoryOf (slashed current)) ++ pieces '/' rest

/-- The path from the project root that a reference in the file `current` means. -/
def resolveReference (current reference : String) : String :=
  String.ofList (joined '/' (normalSegments (namedSegments current.toList reference.toList)))

/-- The path from the project root that a path of the project means. -/
def normalPath (path : String) : String :=
  resolveReference "" path

example : resolveReference "Pages/Home.aspx" "..\\Shared/./a.inc" = "Shared/a.inc" := by
  decide +kernel

example : resolveReference "a/b.aspx" "../../../c.inc" = "c.inc" := by decide +kernel

end ServerMarkup
