/-
# What stands in what

Elements, controls, collections and templates are containers: they have a span, and others stand in
them.  A container *holds* what stands in it if that lies in its span (`Container.Holds`).  What
stands in one is *tidy* if none of it is empty or shares a character with another, and the nodes
come in the order of the source (`Tidy`); templates may stand between the nodes.

A container is opened by a tag (`Container.Opened`), but for the collections that hyphenated
attributes make, which have the spans of these (`Container.Named`).
-/

import ServerMarkup.Parse.Output
import ServerMarkup.Proofs.Spans.Throughout

namespace ServerMarkup

namespace Span

/-- The span ends before the other one begins. -/
def Before (p q : Span) : Prop :=
  p.stop.offset ≤ q.start.offset

/-- No character belongs to both spans: one of them ends before the other one begins. -/
def Apart (p q : Span) : Prop :=
  p.Before q ∨ q.Before p

/-- The span lies in the other one. -/
structure Inside (p q : Span) : Prop where
  file : p.file = q.file
  start : q.start.offset ≤ p.start.offset
  stop : p.stop.offset ≤ q.stop.offset

instance (p q : Span) : Decidable (p.Before q) :=
  inferInstanceAs (Decidable (p.stop.offset ≤ q.start.offset))

instance (p q : Span) : Decidable (p.Inside q) :=
  decidable_of_iff
    (p.file = q.file ∧ q.start.offset ≤ p.start.offset ∧ p.stop.offset ≤ q.stop.offset)
    ⟨fun ⟨file, start, stop⟩ => ⟨file, start, stop⟩, fun h => ⟨h.file, h.start, h.stop⟩⟩

end Span

/-- Nodes come in the order of the source, and they and templates are apart; none is empty. -/
structure Tidy (nodes templates : List Span) : Prop where
  filled : ∀ p ∈ nodes ++ templates, p.start.offset < p.stop.offset
  ordered : nodes.Pairwise Span.Before
  apart : (nodes ++ templates).Pairwise Span.Apart

/-- The kinds of nodes and templates that others stand in. -/
inductive ContainerKind where
  | element
  | control
  | collection
  | template
deriving DecidableEq, Repr

/-- A node or template that others stand in, with their spans. -/
structure Container where
  kind : ContainerKind
  span : Span
  nodes : List Span
  templates : List Span
deriving DecidableEq, Repr

/-- The start tag that the item is. -/
def ItemForm.startTag? : ItemForm → Option StartTag
  | .startTag t => some t
  | _ => none

namespace Container

/-- What stands in the container lies in its span. -/
def Holds (c : Container) : Prop :=
  ∀ p ∈ c.nodes ++ c.templates, p.Inside c.span

instance (c : Container) : Decidable c.Holds :=
  inferInstanceAs (Decidable (∀ p ∈ c.nodes ++ c.templates, p.Inside c.span))

/-- What stands in the container is tidy. -/
def Tidy (c : Container) : Prop :=
  ServerMarkup.Tidy c.nodes c.templates

/-- A start tag of the items opens the container: it begins where the container does. -/
def Opened (items : List Item) (c : Container) : Prop :=
  ∃ item ∈ items, ∃ t, item.form = .startTag t ∧ t.span.start = c.span.start

instance (items : List Item) (c : Container) : Decidable (c.Opened items) :=
  decidable_of_iff (∃ item ∈ items, item.form.startTag?.any (·.span.start == c.span.start)) <| by
    refine exists_congr fun item => and_congr_right fun _ => ?_
    cases item.form <;> simp [ItemForm.startTag?]

/-- The container has the span of an attribute of a start tag of the items. -/
def Named (items : List Item) (c : Container) : Prop :=
  ∃ item ∈ items, ∃ t, item.form = .startTag t ∧ ∃ a ∈ t.attributes, a.span = c.span

end Container

/-- The span of a template. -/
def Template.span (t : Template) : Span :=
  t.head.span

/-- A template as a container. -/
def Template.container (t : Template) : Container :=
  ⟨.template, t.span, t.children.map Node.span, []⟩

/-- The containers that a node and its templates are. -/
def Node.containers : Node → List Container
  | .leaf _ => []
  | .element h ns => [⟨.element, h.span, ns.map span, []⟩]
  | .control h ts ns =>
    ⟨.control, h.span, ns.map span, ts.map Template.span⟩ :: ts.map Template.container
  | .collection h ts ns =>
    ⟨.collection, h.span, ns.map span, ts.map Template.span⟩ :: ts.map Template.container

/-- The containers among the nodes and all below them. -/
def containersOf (ns : List Node) : List Container :=
  (walkAll ns).flatMap Node.containers

/-! ### Containers with a property -/

section
variable (G : Container → Prop)

/-- All containers among the nodes and below them have the property. -/
def Contained (ns : List Node) : Prop :=
  Throughout G Node.containers ns

/-- All containers that the templates and all below them are have the property. -/
def TemplatesContained (ts : List Template) : Prop :=
  TemplatesThroughout G Node.containers Template.container ts

variable {G} {ns : List Node} {ts : List Template}

theorem contained_leaf (l : Leaf) : Contained G [.leaf l] :=
  throughout_leaf.2 (List.forall_mem_nil G)

theorem contained_element {h : ElementHead} : Contained G [.element h ns] ↔
    G ⟨.element, h.span, ns.map Node.span, []⟩ ∧ Contained G ns :=
  throughout_element.trans (and_congr_left' List.forall_mem_singleton)

theorem contained_control {h : ControlHead} : Contained G [.control h ts ns] ↔
    G ⟨.control, h.span, ns.map Node.span, ts.map Template.span⟩ ∧
      TemplatesContained G ts ∧ Contained G ns :=
  (throughout_control (List.singleton_append ..).symm).trans
    (and_congr_left' List.forall_mem_singleton)

theorem contained_collection {h : CollectionHead} : Contained G [.collection h ts ns] ↔
    G ⟨.collection, h.span, ns.map Node.span, ts.map Template.span⟩ ∧
      TemplatesContained G ts ∧ Contained G ns :=
  (throughout_collection (List.singleton_append ..).symm).trans
    (and_congr_left' List.forall_mem_singleton)

end

/-! ### Spans in order -/

/-- The span holds characters of the file, from the offset `lo` on and up to the offset `hi`. -/
structure Span.Between (file : String) (lo hi : Nat) (p : Span) : Prop where
  file : p.file = file
  start : lo ≤ p.start.offset
  filled : p.start.offset < p.stop.offset
  stop : p.stop.offset ≤ hi

/-- The spans hold characters between two offsets, each before the next. -/
structure InOrder (file : String) (lo hi : Nat) (ps : List Span) : Prop where
  each : ∀ p ∈ ps, p.Between file lo hi
  before : ps.Pairwise Span.Before

variable {file : String} {lo hi mid : Nat} {ps qs : List Span} {p : Span}

theorem Span.Between.mono {lo' hi' : Nat} (h : p.Between file lo hi) (below : lo' ≤ lo)
    (above : hi ≤ hi') : p.Between file lo' hi' :=
  ⟨h.file, Nat.le_trans below h.start, h.filled, Nat.le_trans h.stop above⟩

namespace InOrder

theorem nil : InOrder file lo hi [] :=
  ⟨List.forall_mem_nil _, .nil⟩

theorem singleton (h : p.Between file lo hi) : InOrder file lo hi [p] :=
  ⟨List.forall_mem_singleton.2 h, List.pairwise_singleton _ _⟩

theorem mono {lo' hi' : Nat} (h : InOrder file lo hi ps) (below : lo' ≤ lo) (above : hi ≤ hi') :
    InOrder file lo' hi' ps :=
  ⟨fun p mem => (h.each p mem).mono below above, h.before⟩

theorem sublist (h : InOrder file lo hi ps) (sub : qs.Sublist ps) : InOrder file lo hi qs :=
  ⟨fun p mem => h.each p (sub.subset mem), h.before.sublist sub⟩

theorem append (h : InOrder file lo mid ps) (h' : InOrder file mid hi qs) (below : lo ≤ mid)
    (above : mid ≤ hi) : InOrder file lo hi (ps ++ qs) where
  each := List.forall_mem_append.2
    ⟨fun p mem => (h.each p mem).mono (Nat.le_refl lo) above,
      fun p mem => (h'.each p mem).mono below (Nat.le_refl hi)⟩
  before := List.pairwise_append.2
    ⟨h.before, h'.before, fun p hp q hq => Nat.le_trans (h.each p hp).stop (h'.each q hq).start⟩

theorem cons (first : p.Between file lo hi) (h : InOrder file p.stop.offset hi ps) :
    InOrder file lo hi (p :: ps) := by
  have own : p.Between file lo p.stop.offset := { first with stop := Nat.le_refl _ }
  have below := Nat.le_trans first.start (Nat.le_of_lt first.filled)
  exact append (singleton own) h below first.stop

/-- Spans in order are tidy, with templates that are in order and apart from them. -/
theorem tidy (h : InOrder file lo hi ps) (h' : InOrder file lo hi qs)
    (apart : ∀ p ∈ ps, ∀ q ∈ qs, p.Apart q) : Tidy ps qs where
  filled := List.forall_mem_append.2
    ⟨fun p mem => (h.each p mem).filled, fun p mem => (h'.each p mem).filled⟩
  ordered := h.before
  apart := List.pairwise_append.2 ⟨h.before.imp .inl, h'.before.imp .inl, apart⟩

end InOrder

end ServerMarkup
