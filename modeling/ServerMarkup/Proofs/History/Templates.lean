/-
# Every closed template stays

A template is recorded when it is closed, before the node around it joins the tree, and an included
file passes those at its top on to the file around it.  None is lost on the way: the templates that
the history of a parse closes are those of the typed nodes of its tree, each with the nodes that
stood in it, and their classes are those of the document (`Project.templates_listed`).
-/

import ServerMarkup.Proofs.History.Runs
import ServerMarkup.Proofs.Naming.Distinct

namespace ServerMarkup

/-- The template that the deed closes. -/
def Deed.template? : Deed → Option Template
  | addTemplate t => some t
  | _ => none

/-- The templates that are closed, in order. -/
def closedTemplates (ds : List Deed) : List Template :=
  ds.filterMap Deed.template?

theorem closedTemplates_cons (d : Deed) (ds : List Deed) :
    closedTemplates (d :: ds) = d.template?.toList ++ closedTemplates ds := by
  rw [closedTemplates, List.filterMap_cons]
  cases d.template? <;> rfl

/-- The templates of the typed nodes, and of those below. -/
def templatesOf (ns : List Node) : List Template :=
  (walkAll ns).flatMap Node.templates

/-! ### Classes -/

theorem Deed.templates_change (d : Deed) (s : Session) : (d.change s).document.templates =
    s.document.templates ++ d.template?.toList.map (·.head.recorded) := by
  cases d with
  | addTemplate t => rfl
  | addImport value =>
    rw [change, Session.withDocument, Document.addImport_eq]
    exact (List.append_nil _).symm
  | addInclude path text =>
    rw [change, Session.withDocument, Document.addInclude_eq]
    exact (List.append_nil _).symm
  | _ => exact (List.append_nil _).symm

/-- The classes are those of the templates that have been closed. -/
theorem Moment.templates_past (m : Moment) (ds : List Deed) :
    (m.past ds).session.document.templates =
      m.session.document.templates ++ (closedTemplates ds).map (·.head.recorded) := by
  induction ds generalizing m with
  | nil => exact (List.append_nil _).symm
  | cons d ds ih =>
    have here : (m.after d).session.document.templates =
        m.session.document.templates ++ d.template?.toList.map (·.head.recorded) :=
      d.templates_change m.session
    rw [past_cons, ih, here, closedTemplates_cons, List.map_append, List.append_assoc]

/-! ### Pieces -/

/-- The nodes that attributes make have no templates. -/
theorem Chained.templatesOf_eq {named : String → Prop} {var : String} {ns : List Node}
    (h : Chained named var ns) : templatesOf ns = [] := by
  induction h with
  | nil => rfl
  | cons _ _ _ _ _ inner more =>
    unfold templatesOf at inner more ⊢
    simp only [walkAll, Node.walk, walkTemplates, List.nil_append, List.cons_append,
      List.flatMap_cons, List.flatMap_append, Node.templates, inner, more]

/-- The templates among the pieces of a history are those that it closes. -/
theorem Course.filterMap_deedPieces {p : Project} {m : Moment} {ds : List Deed}
    (h : Course p m ds) : (deedPieces ds).filterMap Piece.template? = closedTemplates ds := by
  induction ds generalizing m with
  | nil => rfl
  | cons d ds ih =>
    have own : d.pieces.filterMap Piece.template? = d.template?.toList := by
      cases d with
      | bind t owner bound =>
        obtain ⟨-, as, s, -, binds⟩ := h.1
        have chained := chained_bindAttributes p.resolver owner s as
        rw [binds] at chained
        have none := chained.templatesOf_eq
        rw [Deed.pieces, List.filterMap_cons, Piece.template?, filterMap_piecesOf]
        exact none
      | _ => rfl
    have others := ih h.2
    rw [deedPieces] at others
    rw [deedPieces, List.flatMap_cons, List.filterMap_append, own, others, closedTemplates_cons]

/-! ### Parses -/

namespace Project

variable {p : Project} {path text : String} {registry : Registry} {body : Body} {s : Session}

/-- The classes of the document are those of the templates that the history has closed. -/
theorem History.templates_eq {ds : List Deed} (h : p.History path text registry ds)
    (run : p.run path text registry = (.ok body, s)) :
    s.document.templates = (closedTemplates ds).map (·.head.recorded) := by
  have session : ((p.beginning path text registry).past ds).session = s := by
    rw [h.session_eq, run]
  have none : (p.beginning path text registry).session.document.templates = [] := by
    obtain ⟨imports, start⟩ := Session.exists_start p.options (normalPath path) text
      (registry.addDefaults p.options)
    rw [beginning, start]
    rfl
  rw [← session, Moment.templates_past, none, List.nil_append]

/-- **The document lists the templates of the tree.**  The classes are those of all templates of
typed nodes, at any depth; no template is left beside the tree; and each template that has been
closed is one of the tree, with the nodes that stood in it, so none has been merged with what is
around it. -/
theorem templates_listed (run : p.run path text registry = (.ok body, s)) :
    let d := (s.completed body.children).document
    d.templates.Perm ((templatesOf d.children).map (·.head.recorded)) ∧ body.templates = [] ∧
      ∃ ds, p.History path text registry ds ∧
        d.templates = (closedTemplates ds).map (·.head.recorded) ∧
          (closedTemplates ds).Perm (templatesOf d.children) := by
  obtain ⟨ds, history, ends⟩ := p.exists_history path text registry
  obtain ⟨-, recorded⟩ := ends body s run
  have closed : (closedTemplates ds).Perm (templatesOf body.children) := by
    have templates := recorded.pieces.filterMap Piece.template?
    rw [List.nil_append, filterMap_piecesOf, (Does.course history).filterMap_deedPieces]
      at templates
    exact templates.symm
  have classes := history.templates_eq run
  refine ⟨?_, (sound_parseFile p _ _ _ _ _ _ _ _ _ run).2 rfl, ds, history, classes, closed⟩
  change s.document.templates.Perm _
  rw [classes]
  exact closed.map _

/-- A project with a file whose top is a template. -/
def headed : Project :=
  ⟨gridTypes.resolver, Files.empty.insert "t.inc" "<Head>a<asp:Grid runat=server><Head/>",
    .standard⟩

/-- A page that includes the file in a grid. -/
def headedPage : String :=
  "<asp:Grid runat=server><%--#include file=t.inc--%></asp:Grid>"

/-- The template of the included file is one of the grid around the comment. -/
theorem templates_listed_headed : ∃ body s,
    headed.run "page.aspx" headedPage .empty = (.ok body, s) ∧
      s.document.templates.map TemplateClass.className =
        ["Template_ctrl_0_0_0_1_0", "Template_ctrl_0_0_0"] ∧
        s.document.templates.Perm ((templatesOf body.children).map (·.head.recorded)) := by
  obtain ⟨body, s, run, classes⟩ := exists_of_check (headed.run "page.aspx" headedPage .empty)
    (fun _ s => s.document.templates.map TemplateClass.className ==
      ["Template_ctrl_0_0_0_1_0", "Template_ctrl_0_0_0"])
    (by decide +kernel)
  exact ⟨body, s, run, beq_iff_eq.1 classes, (templates_listed run).1⟩

end Project

end ServerMarkup
