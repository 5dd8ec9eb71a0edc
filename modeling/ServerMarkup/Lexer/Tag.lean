/-
# Tags

Whether a tag is taken apart is decided by its name and by a look ahead for a `runat` attribute,
before any of it is read.  `inspectTag` looks ahead over the characters from the end of the name to
the end of the tag, passing over quoted values and code blocks.
-/

import ServerMarkup.Html
import ServerMarkup.Lexer.Construct
import ServerMarkup.Text.Numeric

namespace ServerMarkup

/-- What a look ahead over a start tag finds. -/
structure TagShape where
  /-- A `runat` attribute. -/
  runat : Bool
  /-- A slash before the closing `>`. -/
  selfClosing : Bool
deriving DecidableEq, Repr

/-- Whether a tag name may hold the character. -/
def isTagNameChar (c : Char) : Bool :=
  isAlphanumeric c || [':', '-', '_', '.'].contains c

/-- The tag name that the text begins with. -/
def tagNameOf (cs : List Char) : List Char :=
  cs.takeWhile isTagNameChar

/-- Whether the text begins with the word `runat` and the word ends there. -/
def startsRunat (cs : List Char) : Bool :=
  namedAt ['r', 'u', 'n', 'a', 't'] cs &&
    match cs.drop 5 with
    | [] => true
    | c :: _ => ['=', '>', '/', '\x00'].contains c || isBlank c

/-- A look ahead over a tag: `skip` characters belong to a code block that has been recognised,
`quote` is the quote that the place lies in, `last` the character before it, and `runat` says
whether the attribute has been met. -/
def inspectFrom (s : Source) (offset skip : Nat) (quote last : Option Char) (runat : Bool) :
    List Char → TagShape
  | [] => ⟨runat, false⟩
  | c :: cs =>
    match skip with
    | skip + 1 => inspectFrom s (offset + 1) skip quote (some c) runat cs
    | 0 =>
      if ['<', '%'].isPrefixOf (c :: cs) then
        match s.ahead? .code (offset + 2) (cs.drop 1) with
        | some n => inspectFrom s (offset + 1) (n + 3) quote (some c) runat cs
        | none => ⟨runat, false⟩
      else match quote with
        | some q =>
          inspectFrom s (offset + 1) 0 (if c = q then none else some q) (some c) runat cs
        | none =>
          if c = '>' then ⟨runat, last == some '/'⟩
          else if c = '<' then ⟨runat, false⟩
          else if c = '"' || c = '\x27' then
            inspectFrom s (offset + 1) 0 (some c) (some c) runat cs
          else
            inspectFrom s (offset + 1) 0 none (some c)
              (runat || (isBlank c && startsRunat cs)) cs

/-- What a look ahead from the end of a tag name finds. -/
def inspectTag (s : Source) (c : Cursor) : TagShape :=
  inspectFrom s c.offset 0 none none false c.rest

/-- The tokens of a tag name: the name, after its prefix if it has one. -/
def nameTokens (name : Excerpt) : List Token :=
  match name.chars.findIdx? (· == ':') with
  | some i =>
    [.whole .elementNamespace (name.slice 0 i),
      .whole .elementName (name.slice (i + 1) name.length)]
  | none => [.whole .elementName name]

end ServerMarkup
