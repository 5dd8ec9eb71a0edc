/-
# What the leaves of a tree hold

Texts, code blocks and directives of a page are leaves of its tree, or parts of a script.
`contents` lists what the leaves below some nodes hold, in the order of a walk, and
`Document.contents` what those of a whole document do.  The nodes that attributes make of a typed
node are collections without leaves (`contents_bindAttributes`).
-/

import ServerMarkup.Parse.Binding
import ServerMarkup.Tree.Walk

namespace ServerMarkup

namespace LeafContent

/-- Whether a leaf holds literal text, a comment or a document type. -/
def isText : LeafContent → Bool
  | text _ => true
  | _ => false

/-- Whether a leaf holds a code block. -/
def isCode : LeafContent → Bool
  | code .. => true
  | _ => false

end LeafContent

/-- What a node holds, if it is a leaf. -/
def Node.content? : Node → Option LeafContent
  | .leaf l => some l.content
  | _ => none

/-- What the leaves of the nodes and below hold. -/
def contents (ns : List Node) : List LeafContent :=
  (walkAll ns).filterMap Node.content?

/-- What the leaves below the templates hold. -/
def templateContents (ts : List Template) : List LeafContent :=
  (walkTemplates ts).filterMap Node.content?

namespace Document

/-- What the parts of the scripts hold. -/
def scriptContents (d : Document) : List LeafContent :=
  d.scripts.flatMap fun s => s.children.map Leaf.content

/-- What the leaves of the tree and the parts of the scripts hold. -/
def contents (d : Document) : List LeafContent :=
  ServerMarkup.contents d.children ++ d.scriptContents

end Document

section
variable (ns ms : List Node) (ts us : List Template)

@[simp] theorem contents_nil : contents [] = [] := rfl

@[simp] theorem templateContents_nil : templateContents [] = [] := rfl

@[simp] theorem contents_append : contents (ns ++ ms) = contents ns ++ contents ms := by
  rw [contents, walkAll_append, List.filterMap_append, contents, contents]

theorem contents_cons (n : Node) :
    contents (n :: ns) = n.walk.filterMap Node.content? ++ contents ns := by
  rw [contents, walkAll, List.filterMap_append, contents]

@[simp] theorem contents_leaf (l : Leaf) : contents [.leaf l] = [l.content] := rfl

@[simp] theorem contents_element (h : ElementHead) : contents [.element h ns] = contents ns := by
  simp [contents, walkAll, Node.walk, List.filterMap_cons, Node.content?]

@[simp] theorem contents_control (h : ControlHead) :
    contents [.control h ts ns] = templateContents ts ++ contents ns := by
  simp [contents, templateContents, walkAll, Node.walk, List.filterMap_cons, Node.content?]

@[simp] theorem contents_collection (h : CollectionHead) :
    contents [.collection h ts ns] = templateContents ts ++ contents ns := by
  simp [contents, templateContents, walkAll, Node.walk, List.filterMap_cons, Node.content?]

theorem templateContents_cons (t : Template) :
    templateContents (t :: ts) = contents t.children ++ templateContents ts := by
  cases t
  rw [templateContents, walkTemplates, List.filterMap_append, templateContents, Template.walk,
    contents, Template.children]

@[simp] theorem templateContents_append :
    templateContents (ts ++ us) = templateContents ts ++ templateContents us := by
  induction ts with
  | nil => rfl
  | cons t ts ih => rw [List.cons_append, templateContents_cons, ih, templateContents_cons,
      List.append_assoc]

end

/-! ### The nodes that attributes make -/

theorem contents_changeCollection
    {change : CollectionHead → List Node → CollectionHead × List Node}
    (h : ∀ head ns, contents (change head ns).2 = contents ns) (fresh : CollectionHead)
    (ns : List Node) : contents (changeCollection change fresh ns) = contents ns := by
  fun_induction changeCollection change fresh ns with
  | case1 head ns hc =>
    have same := h fresh []
    rw [hc] at same
    simpa using same
  | case2 head ts ns rest _ head' ns' hc =>
    have same := h head ns
    rw [hc] at same
    simp only [contents_cons _ (Node.collection ..), Node.walk, List.filterMap_cons, Node.content?,
      List.filterMap_append]
    exact congrArg (_ ++ · ++ _) same
  | case3 head ts ns rest _ ih => rw [contents_cons, contents_cons, ih]
  | case4 n rest _ ih => rw [contents_cons, contents_cons, ih]

theorem contents_bindAlong (r : TypeResolver) (change : TypeRef → Bindings → Bindings) (span : Span)
    (names : List String) (type : TypeRef) (var : String) (b : Bindings) (ns : List Node) :
    contents (bindAlong r change span names type var b ns).2 = contents ns := by
  induction names generalizing type var b ns with
  | nil => rfl
  | cons name names ih =>
    rw [bindAlong]
    split
    · rfl
    · exact contents_changeCollection (fun head ns => ih head.type head.var head.bindings ns) _ _

theorem contents_bindAttribute (r : TypeResolver) (owner : Owner) (s : Session) (b : Bound)
    (a : Attribute) : contents (bindAttribute r owner s b a).2.children = contents b.children := by
  unfold bindAttribute
  split
  · rfl
  · rfl
  · rfl
  · exact contents_bindAlong _ _ _ _ _ _ _ _

/-- Attributes make no leaves. -/
theorem contents_bindAttributes (r : TypeResolver) (owner : Owner) (s : Session)
    (as : List Attribute) : contents (bindAttributes r owner s as).2.children = [] := by
  have start : contents (s, Bound.start).2.children = [] := rfl
  unfold bindAttributes
  generalize (s, Bound.start) = x at start ⊢
  induction as generalizing x with
  | nil => exact start
  | cons a as ih => exact ih _ ((contents_bindAttribute r owner x.1 x.2 a).trans start)

end ServerMarkup
