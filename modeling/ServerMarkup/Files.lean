/-
# The files of a project

Texts by their normal paths, and paths of files that are there and cannot be read.  A text is found
under every spelling of its path; a file that cannot be read goes by one spelling only, and hides a
text of the same path.
-/

import ServerMarkup.Path

namespace ServerMarkup

/-- Texts by normal path, the latest first, and the paths of files that cannot be read. -/
structure Files where
  texts : List (String × String)
  unreadable : List String
deriving Repr

/-- Why a file could not be read. -/
inductive FileError where
  | notFound (path : String)
  | unreadable (path : String)
deriving DecidableEq, Repr

/-- What a file error says. -/
def FileError.message : FileError → String
  | .notFound path => path
  | .unreadable path => path

namespace Files

/-- No files. -/
def empty : Files :=
  ⟨[], []⟩

/-- The files with the text under the path, in place of an earlier one. -/
def insert (fs : Files) (path text : String) : Files :=
  { fs with texts := (normalPath path, text) :: fs.texts }

/-- The text that is stored under the path. -/
def text? (fs : Files) (path : String) : Option String :=
  (fs.texts.find? (·.1 == normalPath path)).map Prod.snd

/-- Whether there is a file at the path. -/
def isFile (fs : Files) (path : String) : Bool :=
  fs.unreadable.contains path || (fs.text? path).isSome

/-- The text of the file at the path. -/
def read (fs : Files) (path : String) : Except FileError String :=
  if fs.unreadable.contains path then .error (.unreadable path)
  else match fs.text? path with
    | some text => .ok text
    | none => .error (.notFound path)

/-- What has been stored is found under every spelling of its path. -/
theorem text?_insert {fs : Files} {path path' text : String}
    (h : normalPath path' = normalPath path) : (fs.insert path text).text? path' = some text := by
  simp [insert, text?, h]

end Files

end ServerMarkup
