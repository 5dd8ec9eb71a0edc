/-
# The marks of a parse

A parse gives spans, and excerpts, which are spans with the text that is said to stand there.  A
`Mark` is either.  `marks` lists those of each part of the output: of the nodes of the tree, of
their attributes, bindings and templates, of the fields, classes and scripts of the document, of the
properties of the page, and of the diagnostics.
-/

import ServerMarkup.Parse.Output
import ServerMarkup.Proofs.Spans.Throughout

namespace ServerMarkup

/-- A span, and the text that is said to stand there, if any is. -/
structure Mark where
  span : Span
  text : Option String
deriving DecidableEq, Repr

/-- The mark of a span. -/
def Span.mark (p : Span) : Mark :=
  ⟨p, none⟩

/-- The mark of an excerpt. -/
def Excerpt.mark (e : Excerpt) : Mark :=
  ⟨e.span, some e.value⟩

/-! ### Attributes and bindings -/

/-- The marks of the parts of a value. -/
def AttributeValue.marks (v : AttributeValue) : List Mark :=
  v.parts.map (·.excerpt.mark)

/-- The marks of an attribute: its span, its name and its value. -/
def Attribute.marks (a : Attribute) : List Mark :=
  a.span.mark :: a.name.mark :: a.value.marks

/-- The marks of a tag name. -/
def TagName.marks (t : TagName) : List Mark :=
  t.tagPrefix.toList.map Excerpt.mark ++ [t.name.mark]

/-- The marks of a property that is set. -/
def PropertyBinding.marks (b : PropertyBinding) : List Mark :=
  b.span.mark :: b.value.marks

/-- The marks of an event and its handler. -/
def EventBinding.marks (b : EventBinding) : List Mark :=
  [b.span.mark, b.handler.mark]

/-- The marks of what attributes have come to. -/
def Bindings.marks (b : Bindings) : List Mark :=
  b.properties.flatMap PropertyBinding.marks ++ b.events.flatMap EventBinding.marks ++
    b.attributes.flatMap Attribute.marks

/-! ### Nodes -/

/-- The marks of what a leaf holds. -/
def LeafContent.marks : LeafContent → List Mark
  | .text e => [e.mark]
  | .code _ e => [e.mark]
  | .directive _ as => as.map (·.2.mark)

/-- The marks of a leaf. -/
def Leaf.marks (l : Leaf) : List Mark :=
  l.span.mark :: l.content.marks

/-- The marks of an element. -/
def ElementHead.marks (h : ElementHead) : List Mark :=
  h.span.mark :: h.tag.marks ++ h.attributes.flatMap Attribute.marks

/-- The marks of a control. -/
def ControlHead.marks (h : ControlHead) : List Mark :=
  h.span.mark :: h.tag.marks ++ h.id.toList.map Excerpt.mark ++ h.bindings.marks

/-- The marks of a collection. -/
def CollectionHead.marks (h : CollectionHead) : List Mark :=
  h.span.mark :: h.bindings.marks

/-- The mark of a template. -/
def TemplateHead.mark (h : TemplateHead) : Mark :=
  h.span.mark

/-- The marks of a node and its templates, without those of what stands in them. -/
def Node.marks : Node → List Mark
  | .leaf l => l.marks
  | .element h _ => h.marks
  | .control h ts _ => h.marks ++ ts.map (·.head.mark)
  | .collection h ts _ => h.marks ++ ts.map (·.head.mark)

/-- The marks of the nodes and of all below them. -/
def marksOf (ns : List Node) : List Mark :=
  (walkAll ns).flatMap Node.marks

/-! ### Documents -/

/-- The marks of a script. -/
def ScriptBlock.marks (b : ScriptBlock) : List Mark :=
  b.span.mark :: b.children.flatMap Leaf.marks

/-- The marks of a document. -/
def Document.marks (d : Document) : List Mark :=
  d.span.mark :: d.fields.map (·.span.mark) ++ d.templates.map (·.span.mark) ++
    d.scripts.flatMap ScriptBlock.marks ++ d.properties.flatMap PropertyBinding.marks ++
      marksOf d.children

/-- The marks of what a parse gives. -/
def ParseOutput.marks (o : ParseOutput) : List Mark :=
  o.document.marks ++ o.diagnostics.map (·.span.mark)

/-! ### Marks with a property -/

section
variable (P : Mark → Prop)

/-- All marks of the nodes and of all below them have the property. -/
def Marked (ns : List Node) : Prop :=
  Throughout P Node.marks ns

/-- All marks of the templates and of all that stands in them have the property. -/
def TemplatesMarked (ts : List Template) : Prop :=
  TemplatesThroughout P Node.marks (·.head.mark) ts

variable {P} {ns : List Node} {ts : List Template}

theorem marked_control {h : ControlHead} : Marked P [.control h ts ns] ↔
    (∀ m ∈ h.marks, P m) ∧ TemplatesMarked P ts ∧ Marked P ns :=
  throughout_control rfl

theorem marked_collection {h : CollectionHead} : Marked P [.collection h ts ns] ↔
    (∀ m ∈ h.marks, P m) ∧ TemplatesMarked P ts ∧ Marked P ns :=
  throughout_collection rfl

end

end ServerMarkup
