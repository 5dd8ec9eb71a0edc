/-
# The tree of a page

| node | source |
| --- | --- |
| leaf | literal text, a code block, or a directive |
| element | a tag that is no control |
| control | a tag that is a control of some type |
| collection | a tag for a collection property of the enclosing type, or an `a-b` attribute |

Controls and collections have a type; attributes bind to its members.  A tag for a template property
is no node: its sub-tree is a `Template` of the control or collection around it.  Every node has the
name of its variable, which its place in the tree decides.
-/

import ServerMarkup.Tree.Attribute
import ServerMarkup.Tree.Directive
import ServerMarkup.Types.Member

namespace ServerMarkup

/-- A property that is set, with the member's own name. -/
structure PropertyBinding where
  name : String
  type : TypeRef
  value : AttributeValue
  converter : Option Converter
  span : Span
deriving DecidableEq, Repr

namespace PropertyBinding

/-- The member set to the value. -/
def ofMember (m : Member) (value : AttributeValue) (span : Span) : PropertyBinding :=
  ⟨m.name, m.type, value, m.converter, span⟩

end PropertyBinding

/-- An event and its handler. -/
structure EventBinding where
  name : String
  handler : Excerpt
  span : Span
deriving DecidableEq, Repr

/-- What the attributes of a typed node have come to. -/
structure Bindings where
  properties : List PropertyBinding
  events : List EventBinding
  /-- Attributes kept as they are, by types that take any. -/
  attributes : List Attribute
deriving DecidableEq, Repr

namespace Bindings

/-- Nothing bound. -/
def empty : Bindings :=
  ⟨[], [], []⟩

end Bindings

/-- What a leaf holds. -/
inductive LeafContent where
  | text (text : Excerpt)
  | code (kind : CodeKind) (text : Excerpt)
  | directive (kind : DirectiveKind) (attributes : List (String × Excerpt))
deriving DecidableEq, Repr

/-- A node without nodes below it. -/
structure Leaf where
  span : Span
  var : String
  content : LeafContent
deriving DecidableEq, Repr

/-- A tag that is no control, without what stands in it. -/
structure ElementHead where
  span : Span
  var : String
  tag : TagName
  attributes : List Attribute
  selfClosing : Bool
deriving DecidableEq, Repr

/-- A control without what stands in it. -/
structure ControlHead where
  span : Span
  var : String
  tag : TagName
  type : TypeRef
  /-- The page field for the control, which has one if its ID is declared outside templates. -/
  field : Option String
  id : Option Excerpt
  bindings : Bindings
deriving DecidableEq, Repr

/-- A collection without its items; the property has the member's own name. -/
structure CollectionHead where
  span : Span
  var : String
  property : String
  type : TypeRef
  bindings : Bindings
deriving DecidableEq, Repr

/-- A template without its sub-tree; the property has the member's own name. -/
structure TemplateHead where
  span : Span
  var : String
  property : String
  className : String
deriving DecidableEq, Repr

mutual

/-- A node with the nodes below it, in the order of the source. -/
inductive Node where
  | leaf (leaf : Leaf)
  | element (head : ElementHead) (children : List Node)
  | control (head : ControlHead) (templates : List Template) (children : List Node)
  | collection (head : CollectionHead) (templates : List Template) (children : List Node)

/-- A template with the nodes of its sub-tree. -/
inductive Template where
  | mk (head : TemplateHead) (children : List Node)

end

namespace Template

/-- The template without its sub-tree. -/
def head : Template → TemplateHead
  | mk h _ => h

/-- The nodes of the sub-tree. -/
def children : Template → List Node
  | mk _ ns => ns

end Template

namespace Node

/-- The span of a node. -/
def span : Node → Span
  | leaf l => l.span
  | element h _ => h.span
  | control h _ _ => h.span
  | collection h _ _ => h.span

/-- The variable of a node. -/
def var : Node → String
  | leaf l => l.var
  | element h _ => h.var
  | control h _ _ => h.var
  | collection h _ _ => h.var

/-- The nodes below a node, templates left aside. -/
def children : Node → List Node
  | leaf _ => []
  | element _ ns => ns
  | control _ _ ns => ns
  | collection _ _ ns => ns

/-- The templates of a node. -/
def templates : Node → List Template
  | control _ ts _ => ts
  | collection _ ts _ => ts
  | _ => []

end Node

end ServerMarkup
