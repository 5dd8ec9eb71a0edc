/-
# The labels of a tree

The label of a node or a template says what it is called and what it declares: its variable, its
type, ID and page field if it is a control, its class if it is a template, and whether it stands in
a template.  `labelsAll` lists the labels of some nodes, of the templates in them and of all below.
Where a tag ends is no part of a label.

The nodes that attributes make of a typed node are collections, one for each path of properties
(`Chained`, `chained_bindAttributes`).
-/

import ServerMarkup.Parse.Builder
import ServerMarkup.Proofs.Content.Leaves

namespace ServerMarkup

/-- What a control declares. -/
structure Declaration where
  type : TypeRef
  id : Option Excerpt
  /-- The page field for the control. -/
  field : Option String
deriving DecidableEq, Repr

/-- What a node or a template is. -/
inductive Role where
  /-- A leaf, an element or a collection. -/
  | plain
  | control (declaration : Declaration)
  | template (className : String)
deriving DecidableEq, Repr

/-- What a node or a template is called, what it is, and whether it stands in a template. -/
structure Label where
  var : String
  role : Role
  inTemplate : Bool
deriving DecidableEq, Repr

namespace Label

/-- What the node declares, if it is a control. -/
def declaration? (l : Label) : Option Declaration :=
  match l.role with
  | .control d => some d
  | _ => none

/-- The page field of the node. -/
def field? (l : Label) : Option String :=
  l.declaration?.bind Declaration.field

/-- The class of a template. -/
def className? (l : Label) : Option String :=
  match l.role with
  | .template c => some c
  | _ => none

end Label

namespace ControlHead

/-- What the control declares. -/
def declaration (h : ControlHead) : Declaration :=
  ⟨h.type, h.id, h.field⟩

end ControlHead

mutual

/-- The labels of the node and of all below it. -/
def Node.labels (inTemplate : Bool) : Node → List Label
  | .leaf l => [⟨l.var, .plain, inTemplate⟩]
  | .element h ns => ⟨h.var, .plain, inTemplate⟩ :: labelsAll inTemplate ns
  | .control h ts ns =>
    ⟨h.var, .control h.declaration, inTemplate⟩ ::
      (templateLabels inTemplate ts ++ labelsAll inTemplate ns)
  | .collection h ts ns =>
    ⟨h.var, .plain, inTemplate⟩ :: (templateLabels inTemplate ts ++ labelsAll inTemplate ns)

/-- The labels of the template and of all below it. -/
def Template.labels (inTemplate : Bool) : Template → List Label
  | .mk h ns => ⟨h.var, .template h.className, inTemplate⟩ :: labelsAll true ns

/-- The labels of the nodes and of all below them. -/
def labelsAll (inTemplate : Bool) : List Node → List Label
  | [] => []
  | n :: ns => n.labels inTemplate ++ labelsAll inTemplate ns

/-- The labels of the templates and of all below them. -/
def templateLabels (inTemplate : Bool) : List Template → List Label
  | [] => []
  | t :: ts => t.labels inTemplate ++ templateLabels inTemplate ts

end

/-- The labels of the parts of the scripts. -/
def Document.scriptLabels (d : Document) : List Label :=
  d.scripts.flatMap fun s => s.children.map fun l => ⟨l.var, .plain, false⟩

/-- The labels of the tree and of the parts of the scripts. -/
def Document.labels (d : Document) : List Label :=
  labelsAll false d.children ++ d.scriptLabels

section
variable (inTemplate : Bool)

@[simp] theorem labelsAll_nil : labelsAll inTemplate [] = [] := by
  rw [labelsAll]

@[simp] theorem templateLabels_nil : templateLabels inTemplate [] = [] := by
  rw [templateLabels]

theorem labelsAll_cons (n : Node) (ns : List Node) :
    labelsAll inTemplate (n :: ns) = n.labels inTemplate ++ labelsAll inTemplate ns := by
  rw [labelsAll]

theorem templateLabels_cons (t : Template) (ts : List Template) :
    templateLabels inTemplate (t :: ts) = t.labels inTemplate ++ templateLabels inTemplate ts := by
  rw [templateLabels]

@[simp] theorem labelsAll_append (ms ns : List Node) :
    labelsAll inTemplate (ms ++ ns) = labelsAll inTemplate ms ++ labelsAll inTemplate ns := by
  induction ms with
  | nil => simp
  | cons m ms ih => simp [labelsAll_cons, ih]

@[simp] theorem templateLabels_append (ts us : List Template) :
    templateLabels inTemplate (ts ++ us) =
      templateLabels inTemplate ts ++ templateLabels inTemplate us := by
  induction ts with
  | nil => simp
  | cons t ts ih => simp [templateLabels_cons, ih]

end

/-! ### The nodes that attributes make -/

/-- The properties of the collections among the nodes. -/
def propertiesOf (ns : List Node) : List String :=
  ns.filterMap fun
    | .collection h _ _ => some h.property
    | _ => none

/-- The nodes are collections with the variables of their properties below `var`, one for each
property, and so are the nodes in them. -/
inductive Chained (named : String → Prop) : (var : String) → List Node → Prop where
  | nil {var} : Chained named var []
  | cons {var h below rest} (var_eq : h.var = var ++ "_" ++ h.property) (name : named h.property)
      (other : h.property ∉ propertiesOf rest) (inner : Chained named h.var below)
      (more : Chained named var rest) : Chained named var (.collection h [] below :: rest)

section
variable {var : String} {ns : List Node}
  {change : CollectionHead → List Node → CollectionHead × List Node} {fresh : CollectionHead}

theorem propertiesOf_collection (h : CollectionHead) (ts : List Template) (ns rest : List Node) :
    propertiesOf (.collection h ts ns :: rest) = h.property :: propertiesOf rest := rfl

theorem propertiesOf_changeCollection (same : ∀ h ns, (change h ns).1.property = h.property)
    (ns : List Node) : propertiesOf (changeCollection change fresh ns) =
      if fresh.property ∈ propertiesOf ns then propertiesOf ns
      else propertiesOf ns ++ [fresh.property] := by
  fun_induction changeCollection change fresh ns with
  | case1 head below hc =>
    have kept : head.property = fresh.property := by
      simpa only [hc] using same fresh []
    rw [propertiesOf_collection, kept]
    rfl
  | case2 head ts below rest here head' below' hc =>
    have kept : head'.property = head.property := by
      simpa only [hc] using same head below
    rw [propertiesOf_collection, propertiesOf_collection, kept, here]
    exact (if_pos List.mem_cons_self).symm
  | case3 head ts below rest away ih =>
    rw [propertiesOf_collection, propertiesOf_collection, ih]
    simp only [List.mem_cons, Ne.symm away, false_or, List.cons_append]
    split <;> rfl
  | case4 n rest plain ih =>
    have skipped (ns : List Node) : propertiesOf (n :: ns) = propertiesOf ns := by
      cases n with
      | collection h ts below => exact (plain h ts below rfl).elim
      | _ => rfl
    rw [skipped, skipped, ih]

theorem mem_propertiesOf_changeCollection (same : ∀ h ns, (change h ns).1.property = h.property)
    {name : String} (h : name ∈ propertiesOf (changeCollection change fresh ns)) :
    name = fresh.property ∨ name ∈ propertiesOf ns := by
  rw [propertiesOf_changeCollection same] at h
  split at h
  · exact .inr h
  · exact (List.mem_append.1 h).symm.imp_left List.mem_singleton.1

/-- Changing a collection, or making it, keeps nodes chained if it does so below the collection. -/
theorem Chained.changeCollection
    (keeps : ∀ h ns, (change h ns).1.var = h.var ∧ (change h ns).1.property = h.property ∧
      (Chained (fun _ => True) h.var ns → Chained (fun _ => True) h.var (change h ns).2))
    (var_eq : fresh.var = var ++ "_" ++ fresh.property) (h : Chained (fun _ => True) var ns) :
    Chained (fun _ => True) var (ServerMarkup.changeCollection change fresh ns) := by
  induction h with
  | nil =>
    obtain ⟨sameVar, sameProperty, inner⟩ := keeps fresh []
    rw [ServerMarkup.changeCollection]
    refine .cons ?_ trivial List.not_mem_nil ?_ .nil
    · rw [sameVar, sameProperty, var_eq]
    · rw [sameVar]
      exact inner .nil
  | @cons var h below rest hvar _ other inner more _ ih =>
    rw [ServerMarkup.changeCollection]
    split
    · obtain ⟨sameVar, sameProperty, kept⟩ := keeps h below
      refine .cons ?_ trivial ?_ ?_ more
      · rw [sameVar, sameProperty, hvar]
      · rwa [sameProperty]
      · rw [sameVar]
        exact kept inner
    · next different =>
      refine .cons hvar trivial (fun mem => ?_) inner (ih var_eq)
      exact (mem_propertiesOf_changeCollection (fun h ns => (keeps h ns).2.1) mem).elim
        different other

/-- A walk keeps the nodes chained. -/
theorem Chained.bindAlong (r : TypeResolver) (change : TypeRef → Bindings → Bindings) (span : Span)
    (names : List String) (type : TypeRef) (b : Bindings) (h : Chained (fun _ => True) var ns) :
    Chained (fun _ => True) var
      (ServerMarkup.bindAlong r change span names type var b ns).2 := by
  induction names generalizing type var b ns with
  | nil => exact h
  | cons name names ih =>
    rw [ServerMarkup.bindAlong]
    split
    · exact h
    · refine h.changeCollection (fun head below => ⟨rfl, rfl, fun inner => ?_⟩) rfl
      exact ih head.type head.bindings inner

end

/-- Nothing in chained nodes is a control or a template. -/
theorem Chained.plain {named : String → Prop} {var : String} {ns : List Node} (inTemplate : Bool)
    (h : Chained named var ns) : ∀ l ∈ labelsAll inTemplate ns, l.role = .plain := by
  induction h with
  | nil =>
    rw [labelsAll_nil]
    exact List.forall_mem_nil _
  | cons _ _ _ _ _ inner more =>
    simp only [labelsAll_cons, Node.labels, templateLabels_nil, List.nil_append, List.cons_append,
      List.forall_mem_cons, List.forall_mem_append]
    exact ⟨trivial, inner, more⟩

section
variable (r : TypeResolver) (owner : Owner) (s : Session)

/-- An attribute keeps the nodes chained. -/
theorem chained_bindAttribute {b : Bound} (a : Attribute)
    (h : Chained (fun _ => True) owner.var b.children) :
    Chained (fun _ => True) owner.var (bindAttribute r owner s b a).2.children := by
  unfold bindAttribute
  split
  · exact h
  · exact h
  · exact h
  · exact h.bindAlong r _ _ _ _ _

/-- **The nodes that attributes make are chained** below the variable of the node. -/
theorem chained_bindAttributes (as : List Attribute) :
    Chained (fun _ => True) owner.var (bindAttributes r owner s as).2.children := by
  have start : Chained (fun _ => True) owner.var (s, Bound.start).2.children := .nil
  unfold bindAttributes
  generalize (s, Bound.start) = x at start ⊢
  induction as generalizing x with
  | nil => exact start
  | cons a as ih => exact ih _ (chained_bindAttribute r owner x.1 a start)

/-- Nothing that attributes make is a control or a template. -/
theorem plain_bindAttributes (as : List Attribute) (inTemplate : Bool) :
    ∀ l ∈ labelsAll inTemplate (bindAttributes r owner s as).2.children, l.role = .plain :=
  (chained_bindAttributes r owner s as).plain inTemplate

end

end ServerMarkup
