/-
# Items of a page

Between the tokens and the tree stand the items: a text, a code block, a server comment, a whole
directive, a whole tag.  Reading the items of a token list only says which tokens belong together
and what they amount to; `flatMap_tokens_itemsOf` says that each token belongs to one item, in order.

A construct may end early.  A start tag ends before any token that is no attribute and no code, and
a directive before any that is no attribute; what is left over are items of their own, and tokens
that begin none are strays.
-/

import ServerMarkup.Lexer.Tag
import ServerMarkup.Tree.Attribute
import ServerMarkup.Tree.Directive

namespace ServerMarkup

/-- A start tag. -/
structure StartTag where
  tag : TagName
  attributes : List Attribute
  ending : TagEnd
  span : Span
deriving DecidableEq, Repr

namespace StartTag

/-- Whether the tag has an attribute with the name. -/
def hasAttribute (t : StartTag) (name : String) : Bool :=
  t.attributes.any (·.name.isNamed name)

end StartTag

/-- What an item is. -/
inductive ItemForm where
  /-- Literal text, a comment or a document type. -/
  | text (text : Excerpt)
  | code (kind : CodeKind) (text : Excerpt) (span : Span)
  | comment (text : Excerpt) (span : Span)
  | directive (kind : DirectiveKind) (attributes : DirectiveAttributes) (span : Span)
  | startTag (start : StartTag)
  | endTag (tag : TagName)
  | stray
deriving DecidableEq, Repr

/-- An item and the tokens it is made of. -/
structure Item where
  form : ItemForm
  tokens : List Token
deriving DecidableEq, Repr

namespace Item

/-- The tokens that make up an attribute value at the start of the list. -/
def valueTokens (ts : List Token) : List Token :=
  ts.takeWhile fun t => (ValuePart.ofToken? t).isSome

/-- The value that the list begins with. -/
def valueOf (ts : List Token) : AttributeValue :=
  ⟨(valueTokens ts).filterMap ValuePart.ofToken?⟩

/-- The tag name that the list begins with, and the number of its tokens. -/
def tagName? : List Token → Option (TagName × Nat)
  | t :: ts =>
    match t.kind, ts with
    | .elementName, _ => some (⟨none, t.text⟩, 1)
    | .elementNamespace, u :: _ =>
      if u.kind = .elementName then some (⟨some t.text, u.text⟩, 2) else none
    | _, _ => none
  | [] => none

/-- The attributes of a start tag after its name, how it ends, and the number of its tokens.  Code
that follows no attribute belongs to none. -/
def tagAttributes : List Token → List Attribute × TagEnd × Nat
  | [] => ([], .cut, 0)
  | t :: ts =>
    match t.kind with
    | .code _ =>
      let (as, ending, n) := tagAttributes ts
      (as, ending, n + 1)
    | .attribute =>
      let size := (valueTokens ts).length
      let (as, ending, n) := tagAttributes (ts.drop size)
      (.of t.text (valueOf ts) :: as, ending, n + size + 1)
    | .tagClose => ([], .opened, 1)
    | .tagSlashClose => ([], .selfClosed, 1)
    | _ => ([], .cut, 0)
termination_by ts => ts.length
decreasing_by all_goals simp only [List.length_drop, List.length_cons]; omega

/-- The attributes of a directive, and the number of its tokens after the first. -/
def directiveAttributes : List Token → List (Excerpt × AttributeValue) × Nat
  | [] => ([], 0)
  | t :: ts =>
    match t.kind with
    | .attribute =>
      let size := (valueTokens ts).length
      let (as, n) := directiveAttributes (ts.drop size)
      ((t.text, valueOf ts) :: as, n + size + 1)
    | .endDirective => ([], 1)
    | _ => ([], 0)
termination_by ts => ts.length
decreasing_by simp only [List.length_drop, List.length_cons]; omega

/-- The value of a directive's attribute as one string: code stands as it is, and no value is the
empty string at the end of the name. -/
def directiveValue (name : Excerpt) (value : AttributeValue) : Excerpt :=
  match value.single?, value.span? with
  | some text, _ => text
  | none, some span => ⟨String.join (value.parts.map (·.excerpt.value)), span⟩
  | none, none => ⟨"", .empty name.span.file name.span.stop⟩

/-- The kind of a directive and its attributes: a first name without a value is the kind. -/
def directiveOf (as : List (Excerpt × AttributeValue)) : DirectiveKind × DirectiveAttributes :=
  let valued := List.map fun (name, value) => (name, directiveValue name value)
  match as with
  | (name, value) :: rest =>
    if value.isSome then (.page, valued as) else (.ofName name.value, valued rest)
  | [] => (.page, [])

/-- The span from the start of a token to the end of the last of those after it. -/
def spanOver (t : Token) (ts : List Token) : Span :=
  t.span.join ((ts.getLast?.map Token.span).getD t.span)

/-- What begins with the token `t`, and how many of the tokens `ts` after it belong to it. -/
def read (t : Token) (ts : List Token) : ItemForm × Nat :=
  match t.kind with
  | .text | .comment | .docType => (.text t.text, 0)
  | .code kind => (.code kind t.text t.span, 0)
  | .serverComment => (.comment t.text t.span, 0)
  | .startDirective =>
    let (as, n) := directiveAttributes ts
    let (kind, attributes) := directiveOf as
    (.directive kind attributes (spanOver t (ts.take n)), n)
  | .tagOpen =>
    match tagName? ts with
    | some (tag, n) =>
      let (attributes, ending, m) := tagAttributes (ts.drop n)
      (.startTag ⟨tag, attributes, ending, spanOver t (ts.take (n + m))⟩, n + m)
    | none => (.stray, 0)
  | .tagOpenSlash =>
    match tagName? ts with
    | some (tag, n) =>
      (.endTag tag, if (ts.drop n).head?.any (·.kind == .tagClose) then n + 1 else n)
    | none => (.stray, 0)
  | _ => (.stray, 0)

end Item

/-- The items that a list of tokens is made of. -/
def itemsOf : List Token → List Item
  | [] => []
  | t :: ts =>
    let (form, n) := Item.read t ts
    ⟨form, t :: ts.take n⟩ :: itemsOf (ts.drop n)
termination_by ts => ts.length
decreasing_by simp only [List.length_drop, List.length_cons]; omega

/-- Each token belongs to one item, in order. -/
theorem flatMap_tokens_itemsOf (ts : List Token) : (itemsOf ts).flatMap Item.tokens = ts := by
  fun_induction itemsOf ts with
  | case1 => rfl
  | case2 t ts form n h ih => simp [ih]

end ServerMarkup
