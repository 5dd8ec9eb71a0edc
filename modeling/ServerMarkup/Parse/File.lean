/-
# Parsing files

`parseFile` builds the tree of a file from its items and acts on its directives.  A server comment
`#include file="…"` or `#include virtual="…"` is replaced by the tree of the file that it names,
parsed in the same session; a file that is being parsed already is reported instead.  The paths of
the files being parsed are therefore pairwise different, and each but the first is a spelling of a
stored path, so files can be nested only as deep as there are such paths: `includeDepth` is larger
than their number, and nothing is cut off where it ends.
-/

import ServerMarkup.Digest.Sha256
import ServerMarkup.Parse.Builder

namespace ServerMarkup

/-- The name in a text that follows an equals sign: what is quoted, or the first word.  A quoted
one that is not closed names nothing. -/
def quotedOrWord? (cs : List Char) : Option (List Char) :=
  match cs with
  | [] => none
  | c :: rest =>
    if c = '"' ∨ c = '\x27' then (cutFirst c rest).map Prod.fst
    else some (cs.takeWhile (! isBlank ·))

/-- The file that the text of a server comment names. -/
def includeReference? (comment : String) : Option String := do
  let text := trimStart comment.toList
  guard (namedAt ['#', 'i', 'n', 'c', 'l', 'u', 'd', 'e'] text)
  let (kind, value) ← cutFirst '=' (trimStart (text.drop 8))
  guard (nameIn ["file", "virtual"] (String.ofList (trim kind)))
  let name ← quotedOrWord? (trimStart value)
  return String.ofList name

example : includeReference? " #Include File = 'a b.inc' " = some "a b.inc" := by decide +kernel

example : includeReference? "#include virtual=/a.inc x" = some "/a.inc" := by decide +kernel

/-- The parse of a file at a place of another one: its text, where it is included, and the variable
that those of its nodes begin with. -/
abbrev Nested := (path text var : String) → Outer → Parse Body

/-- Puts the tree of a file in the place of the comment that includes it.  `parsing` holds the paths
of the files being parsed. -/
def includeFile (p : Project) (parsing : List String) (nested : Nested) (b : Builder)
    (reference : String) (span : Span) : Parse Builder := do
  let path := resolveReference b.file reference
  if nameIn parsing path then
    report .recursiveInclude span [path]
    return b
  else if !p.files.isFile path then
    report .includeNotFound span [path]
    return b
  else
    let text ← p.readFile path
    modify (·.withDocument (·.addInclude path (contentHash text)))
    let (type, collection) := b.enclosing
    let outer : Outer := ⟨type, collection, b.inTemplate⟩
    let (var, b) := b.newVar
    let body ← nested path text var outer
    return body.templates.foldl Builder.addTemplate (b.append body.children)

/-- The builder after one item. -/
def buildItem (p : Project) (parsing : List String) (nested : Nested) (b : Builder) (item : Item) :
    Parse Builder :=
  let stop := (item.tokens.getLast?.map (·.span.stop)).getD .first
  match b.script with
  | some script => b.scriptItem script item stop
  | none =>
    match item.form with
    | .text text => return b.addLeaf text.span (.text text)
    | .code kind text span => return b.addLeaf span (.code kind text)
    | .comment text span =>
      match includeReference? text.value with
      | some reference => includeFile p parsing nested b reference span
      | none => return b
    | .directive kind attributes span => do
      let b := b.addLeaf span (.directive kind (recordOf attributes))
      p.direct b.file kind attributes span
      return b
    | .startTag t => b.openTag p t
    | .endTag tag => b.closeTag tag stop
    | .stray => return b

/-- The body of a file from its items. -/
def buildItems (p : Project) (parsing : List String) (nested : Nested) (b : Builder)
    (items : List Item) (stop : Position) : Parse Body := do
  (← items.foldlM (buildItem p parsing nested) b).finish stop

/-- Parses a file, with files nested at most `depth` deep in it. -/
def parseFile (p : Project) : (depth : Nat) → (parsing : List String) → Nested
  | 0, _, _, _, var, _ => return .start var []
  | depth + 1, parsing, path, text, var, outer =>
    let tokens := tokenize path text
    let stop := (tokens.getLast?.map (·.span.stop)).getD .first
    buildItems p (path :: parsing) (parseFile p depth (path :: parsing)) (.start path var outer)
      (itemsOf tokens) stop

/-- The number of characters in the paths and texts of a project, and in those of the file to be
parsed. -/
def textSize (p : Project) (path text : String) : Nat :=
  p.files.texts.foldl (fun n f => n + f.1.length + f.2.length) (path.length + text.length)

/-- More than the number of paths that files can be included under: a path that leads to a stored
one is no more than a few segments longer, and its characters stand in the paths and texts. -/
def includeDepth (p : Project) (path text : String) : Nat :=
  let size := textSize p path text
  Nat.pow (size + 2) (4 * size + 8)

end ServerMarkup
