/-
# Tokens

Server markup is cut into tokens.  Most of a page is literal text; tags that mean something to the
server, comments, code blocks and directives are taken apart:

| source | tokens |
| --- | --- |
| `<!-- … -->`, `<!DOCTYPE …>` | one `comment` or `docType`, kept whole |
| `<%-- … --%>` | one `serverComment`, holding what stands between the marks |
| `<% … %>`, `<%= … %>`, `<%: … %>`, `<%# … %>` | one `code`, holding the trimmed code |
| `<%@ … %>` | `startDirective`, attributes, `endDirective` |
| `<p:n …>` | `tagOpen`, the name, attributes, `tagClose` or `tagSlashClose` |
| `</p:n>` | `tagOpenSlash`, the name, and `tagClose` if the tag is closed |

A token has the span of the whole construct and the excerpt it stands for, which is a part of it.
-/

import ServerMarkup.Excerpt

namespace ServerMarkup

/-- What a code block does with its code. -/
inductive CodeKind where
  /-- Runs it: `<% … %>`. -/
  | statement
  /-- Writes its value: `<%= … %>`. -/
  | output
  /-- Writes its value when data is bound: `<%# … %>`. -/
  | binding
  /-- Writes its value with markup characters encoded: `<%: … %>`. -/
  | encoded
deriving DecidableEq, Repr

/-- The kinds of tokens. -/
inductive TokenKind where
  | text
  | comment
  | serverComment
  | docType
  | tagOpen
  | tagOpenSlash
  | tagClose
  | tagSlashClose
  | elementNamespace
  | elementName
  | attribute
  | attributeValue
  | code (kind : CodeKind)
  | startDirective
  | endDirective
deriving DecidableEq, Repr

/-- Whether tokens of the kind are code blocks. -/
def TokenKind.isCode : TokenKind → Bool
  | .code _ => true
  | _ => false

/-- A piece of source: the span of the whole construct, and the excerpt it stands for. -/
structure Token where
  kind : TokenKind
  span : Span
  text : Excerpt
deriving DecidableEq, Repr

namespace Token

/-- A token that stands for all of its span. -/
def whole (kind : TokenKind) (text : Excerpt) : Token :=
  ⟨kind, text.span, text⟩

/-- Whether the token is a code block. -/
def isCode (t : Token) : Bool :=
  t.kind.isCode

end Token

end ServerMarkup
