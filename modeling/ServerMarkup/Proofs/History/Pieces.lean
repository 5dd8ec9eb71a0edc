/-
# The pieces of a tree

The pieces of a tree are its typed nodes, each with what its attributes have come to, and its
templates, each with what stands in it.  A builder has the pieces of its bodies and of the typed
nodes that are open (`Builder.pieces`); an open template is none yet.  Some deeds of a history make
pieces: the attributes of a start tag are bound, or a template is closed (`Deed.pieces`).
-/

import ServerMarkup.Proofs.History.Deeds
import ServerMarkup.Proofs.Include.Hosted

namespace ServerMarkup

/-- A typed node or a template of a tree. -/
inductive Piece where
  /-- The node begins at a place of a file. -/
  | typed (file : String) (start : Position) (var : String) (type : TypeRef) (bindings : Bindings)
  | template (template : Template)

namespace Piece

/-- The template that the piece is. -/
def template? : Piece → Option Template
  | template t => some t
  | typed .. => none

end Piece

/-- The control as a piece. -/
def ControlHead.piece (h : ControlHead) : Piece :=
  .typed h.span.file h.span.start h.var h.type h.bindings

/-- The collection as a piece. -/
def CollectionHead.piece (h : CollectionHead) : Piece :=
  .typed h.span.file h.span.start h.var h.type h.bindings

/-- The node, if it is typed, and its templates. -/
def Node.pieces : Node → List Piece
  | .control h ts _ => h.piece :: ts.map .template
  | .collection h ts _ => h.piece :: ts.map .template
  | _ => []

/-- The pieces of the nodes and of all below them. -/
def piecesOf (ns : List Node) : List Piece :=
  (walkAll ns).flatMap Node.pieces

/-- The templates and the pieces in them. -/
def templatePieces (ts : List Template) : List Piece :=
  ts.map .template ++ (walkTemplates ts).flatMap Node.pieces

section
variable (ns ms : List Node) (ts : List Template)

@[simp] theorem templatePieces_nil : templatePieces [] = [] := rfl

@[simp] theorem piecesOf_append : piecesOf (ns ++ ms) = piecesOf ns ++ piecesOf ms := by
  rw [piecesOf, walkAll_append, List.flatMap_append, piecesOf, piecesOf]

@[simp] theorem piecesOf_leaf (l : Leaf) : piecesOf [.leaf l] = [] := rfl

@[simp] theorem piecesOf_element (h : ElementHead) :
    piecesOf [.element h ns] = piecesOf ns := by
  simp [piecesOf, walkAll, Node.walk, Node.pieces]

@[simp] theorem piecesOf_control (h : ControlHead) :
    piecesOf [.control h ts ns] = h.piece :: (templatePieces ts ++ piecesOf ns) := by
  simp [piecesOf, templatePieces, walkAll, Node.walk, Node.pieces]

@[simp] theorem piecesOf_collection (h : CollectionHead) :
    piecesOf [.collection h ts ns] = h.piece :: (templatePieces ts ++ piecesOf ns) := by
  simp [piecesOf, templatePieces, walkAll, Node.walk, Node.pieces]

@[simp] theorem templatePieces_singleton (t : Template) :
    templatePieces [t] = .template t :: piecesOf t.children := by
  cases t
  simp [templatePieces, walkTemplates, Template.walk, piecesOf, Template.children]

/-- Templates bring their own pieces. -/
theorem perm_templatePieces_append (us : List Template) :
    (templatePieces (ts ++ us)).Perm (templatePieces ts ++ templatePieces us) := by
  have walk : walkTemplates (ts ++ us) = walkTemplates ts ++ walkTemplates us := by
    induction ts with
    | nil => rfl
    | cons t ts ih => rw [List.cons_append, walkTemplates, ih, walkTemplates, List.append_assoc]
  classical
  rw [List.perm_iff_count]
  intro piece
  simp only [templatePieces, walk, List.map_append, List.flatMap_append, List.count_append]
  omega

/-- The templates among the pieces are those of the nodes. -/
theorem filterMap_piecesOf :
    (piecesOf ns).filterMap Piece.template? = (walkAll ns).flatMap Node.templates := by
  have own (n : Node) : n.pieces.filterMap Piece.template? = n.templates := by
    cases n <;> simp [Node.pieces, Node.templates, List.filterMap_cons, List.filterMap_map,
      Function.comp_def, Piece.template?, ControlHead.piece, CollectionHead.piece]
  simp only [piecesOf, List.filterMap_flatMap, own]

end

/-! ### Builders -/

/-- The node of an open tag as a piece, if it is typed. -/
def Opened.pieces : Opened → List Piece
  | control h => [h.piece]
  | collection h => [h.piece]
  | element _ | template _ => []

@[simp] theorem Opened.pieces_endingAt (o : Opened) (stop : Position) :
    (o.endingAt stop).pieces = o.pieces := by
  cases o <;> rfl

/-- The pieces in the body. -/
def Body.pieces (b : Body) : List Piece :=
  piecesOf b.children ++ templatePieces b.templates

/-- The open tag and the pieces in it. -/
def Frame.pieces (f : Frame) : List Piece :=
  f.opened.pieces ++ f.body.pieces

namespace Builder

/-- The pieces in the bodies, and the typed nodes that are open. -/
def pieces (b : Builder) : List Piece :=
  b.root.pieces ++ b.stack.flatMap Frame.pieces

variable {b : Builder} {cs : List Piece}

theorem pieces_withBody {f : Body → Body}
    (h : ∀ body, (f body).pieces.Perm (body.pieces ++ cs)) :
    (b.withBody f).pieces.Perm (b.pieces ++ cs) := by
  classical
  have count (body : Body) (piece : Piece) :
      (f body).pieces.count piece = body.pieces.count piece + cs.count piece := by
    rw [(h body).count_eq, List.count_append]
  rw [List.perm_iff_count]
  intro piece
  unfold withBody pieces
  split
  · next hs =>
    simp only [List.count_append, count, hs]
    omega
  · next top rest hs =>
    simp only [List.count_append, List.flatMap_cons, Frame.pieces, count, hs]
    omega

theorem pieces_newVar (b : Builder) : b.newVar.2.pieces.Perm b.pieces := by
  have same : b.newVar.2.pieces.Perm (b.pieces ++ []) :=
    b.pieces_withBody fun body => by simp [Body.pieces]
  rwa [List.append_nil] at same

theorem pieces_append (b : Builder) (ns : List Node) :
    (b.append ns).pieces.Perm (b.pieces ++ piecesOf ns) := by
  refine b.pieces_withBody fun body => ?_
  simp only [Body.pieces, Body.append, piecesOf_append, List.append_assoc]
  exact List.perm_append_comm.append_left _

theorem pieces_addLeaf (b : Builder) (span : Span) (content : LeafContent) :
    (b.addLeaf span content).pieces.Perm b.pieces := by
  have joined := (b.newVar.2.pieces_append [.leaf ⟨span, b.newVar.1, content⟩]).trans
    (b.pieces_newVar.append_right _)
  rwa [piecesOf_leaf, List.append_nil] at joined

/-- A typed node around the current place keeps a template with what stands in it. -/
theorem pieces_addTemplate (typed : b.enclosing.1 ≠ none) (t : Template) :
    (b.addTemplate t).pieces.Perm (b.pieces ++ .template t :: piecesOf t.children) := by
  rw [addTemplate_of_typed typed]
  refine b.pieces_withBody fun body => ?_
  have kept := perm_templatePieces_append body.templates [t]
  rw [templatePieces_singleton] at kept
  simp only [Body.pieces, List.append_assoc]
  exact kept.append_left _

theorem pieces_addTemplates {ts : List Template} (typed : ts ≠ [] → b.enclosing.1 ≠ none) :
    (ts.foldl addTemplate b).pieces.Perm (b.pieces ++ templatePieces ts) := by
  induction ts generalizing b with
  | nil => rw [List.foldl_nil, templatePieces_nil, List.append_nil]
  | cons t ts ih =>
    have here := typed (List.cons_ne_nil t ts)
    have around : (b.addTemplate t).enclosing.1 ≠ none := by
      rw [enclosing_fst, b.typeAround_addTemplate, ← enclosing_fst]
      exact here
    have kept := (ih fun _ => around).trans ((pieces_addTemplate here t).append_right _)
    have others := perm_templatePieces_append [t] ts
    rw [templatePieces_singleton] at others
    rw [List.append_assoc] at kept
    exact kept.trans (others.symm.append_left _)

end Builder

/-! ### Deeds -/

/-- The pieces that a deed makes: a typed node and the collections that its attributes have made, or
a template. -/
def Deed.pieces : Deed → List Piece
  | bind t owner bound =>
    .typed t.span.file t.span.start owner.var owner.type bound.bindings :: piecesOf bound.children
  | addTemplate t => [.template t]
  | _ => []

/-- The pieces that deeds make. -/
def deedPieces (ds : List Deed) : List Piece :=
  ds.flatMap Deed.pieces

end ServerMarkup
