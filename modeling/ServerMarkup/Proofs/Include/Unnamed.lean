/-
# Trees up to generated names

Variables and template classes are named after the places of their nodes, and nothing the parser
does depends on these names.  `unnamed` takes them away from nodes and templates, and from the
frames and the script of a builder.  What a builder does commutes with it
(`Builder.unnamed_withBody` and after), and an attribute binds alike to nodes that differ only in
their names (`bindAttribute_unnamed`).
-/

import ServerMarkup.Parse.Builder
import ServerMarkup.Proofs.Content.Leaves

namespace ServerMarkup

/-! ### Nodes -/

/-- The leaf without its variable. -/
def Leaf.unnamed (l : Leaf) : Leaf :=
  { l with var := "" }

/-- The collection without its variable. -/
def CollectionHead.unnamed (h : CollectionHead) : CollectionHead :=
  { h with var := "" }

/-- The template without its variable and the name of its class. -/
def TemplateHead.unnamed (h : TemplateHead) : TemplateHead :=
  { h with var := "", className := "" }

@[simp] theorem CollectionHead.unnamed_unnamed (h : CollectionHead) :
    h.unnamed.unnamed = h.unnamed := rfl

@[simp] theorem TemplateHead.unnamed_unnamed (h : TemplateHead) :
    h.unnamed.unnamed = h.unnamed := rfl

mutual

/-- The node without variables. -/
def Node.unnamed : Node → Node
  | .leaf l => .leaf l.unnamed
  | .element h ns => .element { h with var := "" } (unnamedAll ns)
  | .control h ts ns => .control { h with var := "" } (unnamedTemplates ts) (unnamedAll ns)
  | .collection h ts ns => .collection h.unnamed (unnamedTemplates ts) (unnamedAll ns)

/-- The template without variables and the name of its class. -/
def Template.unnamed : Template → Template
  | .mk h ns => .mk h.unnamed (unnamedAll ns)

/-- The nodes without variables. -/
def unnamedAll : List Node → List Node
  | [] => []
  | n :: ns => n.unnamed :: unnamedAll ns

/-- The templates without variables and the names of their classes. -/
def unnamedTemplates : List Template → List Template
  | [] => []
  | t :: ts => t.unnamed :: unnamedTemplates ts

end

section
variable (ns ms : List Node) (ts us : List Template)

@[simp] theorem unnamedAll_append : unnamedAll (ns ++ ms) = unnamedAll ns ++ unnamedAll ms := by
  induction ns with
  | nil => rfl
  | cons n ns ih => rw [List.cons_append, unnamedAll, ih, unnamedAll, List.cons_append]

@[simp] theorem unnamedTemplates_append :
    unnamedTemplates (ts ++ us) = unnamedTemplates ts ++ unnamedTemplates us := by
  induction ts with
  | nil => rfl
  | cons t ts ih =>
    rw [List.cons_append, unnamedTemplates, ih, unnamedTemplates, List.cons_append]

end

mutual

@[simp] theorem Node.unnamed_unnamed : (n : Node) → n.unnamed.unnamed = n.unnamed
  | .leaf _ => rfl
  | .element _ ns => by simp [Node.unnamed, unnamedAll_unnamedAll ns]
  | .control _ ts ns => by
    simp [Node.unnamed, unnamedAll_unnamedAll ns, unnamedTemplates_unnamedTemplates ts]
  | .collection _ ts ns => by
    simp [Node.unnamed, unnamedAll_unnamedAll ns,
      unnamedTemplates_unnamedTemplates ts]

@[simp] theorem Template.unnamed_unnamed : (t : Template) → t.unnamed.unnamed = t.unnamed
  | .mk _ ns => by simp [Template.unnamed, unnamedAll_unnamedAll ns]

@[simp] theorem unnamedAll_unnamedAll :
    (ns : List Node) → unnamedAll (unnamedAll ns) = unnamedAll ns
  | [] => rfl
  | n :: ns => by simp [unnamedAll, n.unnamed_unnamed, unnamedAll_unnamedAll ns]

@[simp] theorem unnamedTemplates_unnamedTemplates :
    (ts : List Template) → unnamedTemplates (unnamedTemplates ts) = unnamedTemplates ts
  | [] => rfl
  | t :: ts => by
    simp [unnamedTemplates, t.unnamed_unnamed, unnamedTemplates_unnamedTemplates ts]

end

@[simp] theorem Template.children_unnamed (t : Template) :
    t.unnamed.children = unnamedAll t.children := by
  cases t
  rfl

/-! ### Collections that attributes make -/

/-- What does the same to a collection and the nodes in it without their variables, does the same to
nodes without their variables. -/
theorem unnamedAll_changeCollection
    {change : CollectionHead → List Node → CollectionHead × List Node}
    (h : ∀ head ns, (change head ns).1.unnamed = (change head.unnamed (unnamedAll ns)).1.unnamed ∧
      unnamedAll (change head ns).2 = unnamedAll (change head.unnamed (unnamedAll ns)).2)
    (fresh : CollectionHead) (ns : List Node) :
    unnamedAll (changeCollection change fresh ns) =
      unnamedAll (changeCollection change fresh.unnamed (unnamedAll ns)) := by
  fun_induction changeCollection change fresh ns with
  | case1 head ns hc =>
    obtain ⟨same, below⟩ := h fresh []
    rw [hc] at same below
    simp only [unnamedAll, changeCollection, Node.unnamed, unnamedTemplates] at same below ⊢
    rw [same, below]
  | case2 head ts ns rest hp head' ns' hc =>
    obtain ⟨same, below⟩ := h head ns
    rw [hc] at same below
    have found : head.unnamed.property = fresh.unnamed.property := hp
    simp [unnamedAll, changeCollection, Node.unnamed, found, same, below]
  | case3 head ts ns rest hp ih =>
    have other : head.unnamed.property ≠ fresh.unnamed.property := hp
    simp [unnamedAll, changeCollection, Node.unnamed, other, ih]
  | case4 n rest hn ih =>
    cases n with
    | collection h ts ns => exact absurd rfl (hn h ts ns)
    | _ => simp [unnamedAll, changeCollection, Node.unnamed, Leaf.unnamed, ih]

/-- On a walk variables make no difference. -/
theorem unnamed_bindAlong (r : TypeResolver) (change : TypeRef → Bindings → Bindings) (span : Span)
    (names : List String) (type : TypeRef) (var : String) (b : Bindings) (ns : List Node) :
    (bindAlong r change span names type var b ns).1 =
        (bindAlong r change span names type "" b (unnamedAll ns)).1 ∧
      unnamedAll (bindAlong r change span names type var b ns).2 =
        unnamedAll (bindAlong r change span names type "" b (unnamedAll ns)).2 := by
  induction names generalizing type var b ns with
  | nil => exact ⟨rfl, by simp [bindAlong]⟩
  | cons name names ih =>
    have inner (head : CollectionHead) (ns : List Node) :
        ({ head with
          bindings := (bindAlong r change span names head.type head.var head.bindings ns).1 } :
          CollectionHead).unnamed = { head.unnamed with bindings :=
            (bindAlong r change span names head.type "" head.bindings (unnamedAll ns)).1 } ∧
        unnamedAll (bindAlong r change span names head.type head.var head.bindings ns).2 =
          unnamedAll
            (bindAlong r change span names head.type "" head.bindings (unnamedAll ns)).2 := by
      obtain ⟨same, below⟩ := ih head.type head.var head.bindings ns
      exact ⟨by rw [same]; rfl, below⟩
    rw [bindAlong, bindAlong]
    split
    · exact ⟨rfl, by simp⟩
    · refine ⟨rfl, (unnamedAll_changeCollection inner _ _).trans ?_⟩
      exact ((unnamedAll_changeCollection inner _ _).trans (by simp [CollectionHead.unnamed])).symm

theorem collection?_unnamedAll (property : String) (ns : List Node) :
    collection? property (unnamedAll ns) =
      (collection? property ns).map fun x => (x.1.unnamed, unnamedAll x.2) := by
  fun_induction collection? property ns with
  | case1 => rfl
  | case2 rest head ts below here => exact if_pos here
  | case3 rest head ts below away ih => exact (if_neg away).trans ih
  | case4 n rest plain ih =>
    cases n with
    | collection h ts ns => exact absurd rfl (plain h ts ns)
    | _ => exact ih

/-- A walk comes to nodes of the same types, whatever the variables are. -/
theorem typesAlong_unnamedAll (r : TypeResolver) (names : List String) (type : TypeRef)
    (ns : List Node) : typesAlong r names type (unnamedAll ns) = typesAlong r names type ns := by
  induction names generalizing type ns with
  | nil => rfl
  | cons name names ih =>
    rw [typesAlong, typesAlong]
    cases r.memberOf type name with
    | none => rfl
    | some m =>
      dsimp only
      rw [collection?_unnamedAll]
      cases collection? m.name ns with
      | none => rfl
      | some x => exact congrArg (type :: ·) (ih x.1.type x.2)

/-! ### Attributes -/

/-- What attributes have made of a node, without variables. -/
def Bound.unnamed (b : Bound) : Bound :=
  { b with children := unnamedAll b.children }

/-- The node without its variable. -/
def Owner.unnamed (o : Owner) : Owner :=
  { o with var := "" }

section
variable (r : TypeResolver) (owner : Owner) (s : Session)

theorem endAlong?_unnamed (names : List String) (b : Bound) :
    endAlong? r names owner.unnamed.type b.unnamed.children =
      endAlong? r names owner.type b.children := by
  rw [endAlong?, Bound.unnamed, typesAlong_unnamedAll]
  rfl

/-- The questions that an attribute asks are the same for nodes with other variables. -/
theorem questions_unnamed (d : Document) (ns : List Node) (a : Attribute) :
    Effect.questions r d owner.unnamed (unnamedAll ns) a = Effect.questions r d owner ns a := by
  unfold Effect.questions walkQuestions endAlong?
  simp only [typesAlong_unnamedAll]
  rfl

/-- An attribute binds alike to nodes with other variables. -/
theorem bindAttribute_unnamed (b : Bound) (a : Attribute) :
    (bindAttribute r owner s b a).1 = (bindAttribute r owner.unnamed s b.unnamed a).1 ∧
      (bindAttribute r owner s b a).2.unnamed =
        (bindAttribute r owner.unnamed s b.unnamed a).2.unnamed := by
  have effect : Effect.of r s.document owner.unnamed a = Effect.of r s.document owner a := rfl
  unfold bindAttribute
  rw [effect]
  split
  · exact ⟨rfl, by simp [Bound.unnamed]⟩
  · exact ⟨rfl, by simp [Bound.unnamed]⟩
  · exact ⟨rfl, by simp [Bound.unnamed]; rfl⟩
  · next names leaf _ =>
    obtain ⟨same, below⟩ := unnamed_bindAlong r (fun type => (Placement.of r type leaf).addTo)
      a.span names owner.type owner.var b.bindings b.children
    dsimp only
    rw [endAlong?_unnamed]
    refine ⟨rfl, ?_⟩
    rw [Bound.unnamed, Bound.unnamed, Bound.mk.injEq]
    exact ⟨same, below, rfl, rfl⟩

end

/-! ### Builders -/

/-- The body without variables. -/
def Body.unnamed (b : Body) : Body :=
  ⟨"", unnamedAll b.children, unnamedTemplates b.templates, 0⟩

/-- The node or template of an open tag, without names. -/
def Opened.unnamed : Opened → Opened
  | element h => element { h with var := "" }
  | control h => control { h with var := "" }
  | collection h => collection h.unnamed
  | template h => template h.unnamed

/-- The frame without names. -/
def Frame.unnamed (f : Frame) : Frame :=
  ⟨f.opened.unnamed, f.tag, f.body.unnamed⟩

/-- The script without variables. -/
def OpenScript.unnamed (s : OpenScript) : OpenScript :=
  { s with var := "", children := s.children.map Leaf.unnamed }

namespace Builder

/-- The builder without names. -/
def unnamed (b : Builder) : Builder :=
  { b with
    root := b.root.unnamed
    stack := b.stack.map Frame.unnamed
    script := b.script.map OpenScript.unnamed }

variable (b : Builder)

theorem unnamed_withBody {f g : Body → Body} (h : ∀ body, (f body).unnamed = g body.unnamed) :
    (b.withBody f).unnamed = b.unnamed.withBody g := by
  unfold withBody unnamed
  cases b.stack with
  | nil => simp [h]
  | cons top rest => simp [Frame.unnamed, h]

theorem withBody_id : b.withBody id = b := by
  unfold withBody
  split
  · rfl
  · next top rest hs => rw [id, ← hs]

@[simp] theorem unnamed_newVar : b.newVar.2.unnamed = b.unnamed := by
  have same : b.newVar.2.unnamed = b.unnamed.withBody id := b.unnamed_withBody fun _ => rfl
  rw [same, withBody_id]

theorem unnamed_append (ns : List Node) :
    (b.append ns).unnamed = b.unnamed.append (unnamedAll ns) :=
  b.unnamed_withBody fun body => by simp [Body.unnamed, Body.append]

theorem unnamed_addTemplate (t : Template) :
    (b.addTemplate t).unnamed = b.unnamed.addTemplate t.unnamed := by
  have around : b.unnamed.stack.head?.map Frame.opened =
      (b.stack.head?.map Frame.opened).map Opened.unnamed := by
    cases hs : b.stack <;> simp [unnamed, hs, Frame.unnamed]
  unfold addTemplate
  rw [around]
  cases b.stack.head?.map Frame.opened with
  | none => exact b.unnamed_withBody fun body => by simp [Body.unnamed, unnamedTemplates]
  | some o =>
    cases o with
    | element h => simpa [Opened.unnamed] using b.unnamed_append t.children
    | template h => simpa [Opened.unnamed] using b.unnamed_append t.children
    | control h => exact b.unnamed_withBody fun body => by simp [Body.unnamed, unnamedTemplates]
    | collection h => exact b.unnamed_withBody fun body => by simp [Body.unnamed, unnamedTemplates]

@[simp] theorem enclosing_unnamed : b.unnamed.enclosing = b.enclosing := by
  unfold enclosing unnamed
  cases b.stack with
  | nil => rfl
  | cons top rest =>
    have opened : top.unnamed.opened = top.opened.unnamed := rfl
    cases ho : top.opened <;> simp [opened, Opened.unnamed, CollectionHead.unnamed, ho]

@[simp] theorem isTemplate_unnamed (o : Opened) : o.unnamed.isTemplate = o.isTemplate := by
  cases o <;> rfl

@[simp] theorem inTemplate_unnamed : b.unnamed.inTemplate = b.inTemplate := by
  simp [inTemplate, unnamed, List.any_map, Function.comp_def, Frame.unnamed]

end Builder

end ServerMarkup
