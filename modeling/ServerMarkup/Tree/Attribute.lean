/-
# Attributes and tag names

An attribute value is a list of parts: literal text, and the code blocks that stand in it.  A tag
name may have a prefix.
-/

import ServerMarkup.Token

namespace ServerMarkup

/-- A part of an attribute value. -/
inductive ValuePart where
  | text (text : Excerpt)
  | code (kind : CodeKind) (text : Excerpt)
deriving DecidableEq, Repr

namespace ValuePart

/-- What the part holds. -/
def excerpt : ValuePart → Excerpt
  | text e => e
  | code _ e => e

/-- The text of a literal part. -/
def literal? : ValuePart → Option String
  | text e => some e.value
  | code .. => none

/-- The part that a token is in a value. -/
def ofToken? (t : Token) : Option ValuePart :=
  match t.kind with
  | .attributeValue => some (.text t.text)
  | .code kind => some (.code kind t.text)
  | _ => none

end ValuePart

/-- The value of an attribute, in parts; no parts are no value. -/
structure AttributeValue where
  parts : List ValuePart
deriving DecidableEq, Repr

namespace AttributeValue

/-- No value. -/
def none : AttributeValue :=
  ⟨[]⟩

/-- The value that is one literal text. -/
def ofExcerpt (e : Excerpt) : AttributeValue :=
  ⟨[.text e]⟩

/-- Whether there is a value. -/
def isSome (v : AttributeValue) : Bool :=
  !v.parts.isEmpty

/-- The text of a value without code. -/
def text? (v : AttributeValue) : Option String :=
  (v.parts.mapM ValuePart.literal?).map String.join

/-- The literal text that is the whole value. -/
def single? (v : AttributeValue) : Option Excerpt :=
  match v.parts with
  | [.text e] => some e
  | _ => Option.none

/-- Whether the value holds code. -/
def hasCode (v : AttributeValue) : Bool :=
  v.parts.any fun p => p.literal?.isNone

/-- The span from the first part to the last. -/
def span? (v : AttributeValue) : Option Span :=
  match v.parts.head?, v.parts.getLast? with
  | some first, some last => some (first.excerpt.span.join last.excerpt.span)
  | _, _ => Option.none

end AttributeValue

/-- An attribute of a tag. -/
structure Attribute where
  name : Excerpt
  value : AttributeValue
  span : Span
deriving DecidableEq, Repr

namespace Attribute

/-- The attribute of a name and a value: its span goes to the end of the value. -/
def of (name : Excerpt) (value : AttributeValue) : Attribute :=
  ⟨name, value, (value.span?.map name.span.join).getD name.span⟩

end Attribute

/-- The name of a tag, `prefix:name` or `name`. -/
structure TagName where
  tagPrefix : Option Excerpt
  name : Excerpt
deriving DecidableEq, Repr

namespace TagName

/-- The name without the prefix. -/
def localName (t : TagName) : String :=
  t.name.value

/-- The name as it stands in the source. -/
def text (t : TagName) : String :=
  match t.tagPrefix with
  | some p => p.value ++ ":" ++ t.name.value
  | none => t.name.value

/-- The span of the name and its prefix. -/
def span (t : TagName) : Span :=
  match t.tagPrefix with
  | some p => p.span.join t.name.span
  | none => t.name.span

/-- Whether two tag names agree, the letter case left aside. -/
def agrees (t u : TagName) : Bool :=
  (match t.tagPrefix, u.tagPrefix with
    | some p, some q => sameName p.value q.value
    | none, none => true
    | _, _ => false) && sameName t.localName u.localName

end TagName

end ServerMarkup
