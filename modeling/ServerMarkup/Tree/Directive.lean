/-
# Directives

`<%@ Page … %>`, `<%@ Control … %>` and `<%@ Master … %>` describe the file itself, `Register`
makes tags known, `Import` names a namespace, and all others are kept and not acted on.
-/

import ServerMarkup.Excerpt

namespace ServerMarkup

/-- The kinds of directives. -/
inductive DirectiveKind where
  | page
  | control
  | master
  | register
  | imports
  | other (name : String)
deriving DecidableEq, Repr

namespace DirectiveKind

/-- The kind that a name stands for, in any letter case. -/
def ofName (name : String) : DirectiveKind :=
  if sameName name "page" then .page
  else if sameName name "control" then .control
  else if sameName name "master" then .master
  else if sameName name "register" then .register
  else if sameName name "import" then .imports
  else .other name

/-- Whether directives of the kind describe the file itself. -/
def isMain : DirectiveKind → Bool
  | .page | .control | .master => true
  | _ => false

end DirectiveKind

/-- Attributes of a directive with their values, in the order of the source. -/
abbrev DirectiveAttributes := List (Excerpt × Excerpt)

namespace DirectiveAttributes

/-- The value of the first attribute with the name. -/
def find? (as : DirectiveAttributes) (name : String) : Option Excerpt :=
  (List.find? (fun a => a.1.isNamed name) as).map Prod.snd

end DirectiveAttributes

/-- A table with the value under the key: in the place of an earlier one, or at the end. -/
def recordEntry (table : List (String × Excerpt)) (key : String) (value : Excerpt) :
    List (String × Excerpt) :=
  if table.any (·.1 == key) then table.map fun e => if e.1 == key then (key, value) else e
  else table ++ [(key, value)]

/-- The record of a directive's attributes by their names in small letters: each name where it
comes first, with the value that comes last. -/
def recordOf (as : DirectiveAttributes) : List (String × Excerpt) :=
  as.foldl (fun table a => recordEntry table (lowered a.1.value) a.2) []

/-- The recorded value under a name, in any letter case. -/
def recorded? (table : List (String × Excerpt)) (name : String) : Option Excerpt :=
  (table.find? (·.1 == lowered name)).map Prod.snd

/-- The attributes of a Page, Control or Master directive that set no property. -/
def ignoredPageAttributes : List String :=
  ["Inherits", "Language", "CodeBehind", "CodeFile", "Description", "LinePragmas",
    "MasterPageFile", "Src", "Strict"]

/-- Whether an attribute of a Page, Control or Master directive sets no property. -/
def isIgnoredPageAttribute (name : String) : Bool :=
  nameIn ignoredPageAttributes name

end ServerMarkup
