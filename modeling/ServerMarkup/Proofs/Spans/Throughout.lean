/-
# What holds all through a tree

Of each node of a tree some things are listed, its marks or its containers, those of its templates
among them.  A property holds `Throughout` some nodes if it holds of all that is listed on a walk
over them; so it does if it holds of what each node lists itself, and throughout its templates and
what stands in it.
-/

import ServerMarkup.Proofs.Content.Leaves

namespace ServerMarkup

section
variable {α : Type} (P : α → Prop) (own : Node → List α) (head : Template → α)

/-- All that is listed of the nodes and of all below them has the property. -/
def Throughout (ns : List Node) : Prop :=
  ∀ x ∈ (walkAll ns).flatMap own, P x

/-- All that is listed of the templates and of what stands in them has the property. -/
def TemplatesThroughout (ts : List Template) : Prop :=
  ∀ x ∈ ts.map head ++ (walkTemplates ts).flatMap own, P x

end

section
variable {α : Type} {P P' : α → Prop} {own : Node → List α} {head : Template → α}
  {ns ms : List Node} {ts us : List Template}

theorem throughout_nil : Throughout P own [] :=
  List.forall_mem_nil P

theorem templatesThroughout_nil : TemplatesThroughout P own head [] :=
  List.forall_mem_nil P

theorem throughout_append :
    Throughout P own (ns ++ ms) ↔ Throughout P own ns ∧ Throughout P own ms := by
  rw [Throughout, walkAll_append, List.flatMap_append, List.forall_mem_append]
  rfl

theorem throughout_cons {n : Node} :
    Throughout P own (n :: ns) ↔ Throughout P own [n] ∧ Throughout P own ns := by
  rw [← List.singleton_append, throughout_append]

theorem Throughout.mono (h : Throughout P own ns) (hP : ∀ x, P x → P' x) :
    Throughout P' own ns :=
  fun x mem => hP x (h x mem)

theorem throughout_leaf {l : Leaf} :
    Throughout P own [.leaf l] ↔ ∀ x ∈ own (.leaf l), P x := by
  simp [Throughout, walkAll, Node.walk]

theorem throughout_element {h : ElementHead} : Throughout P own [.element h ns] ↔
    (∀ x ∈ own (.element h ns), P x) ∧ Throughout P own ns := by
  simp [Throughout, walkAll, Node.walk, or_imp, forall_and]

/-- A control lists its templates behind what it lists itself. -/
theorem throughout_control {h : ControlHead} {first : List α}
    (lists : own (.control h ts ns) = first ++ ts.map head) :
    Throughout P own [.control h ts ns] ↔
      (∀ x ∈ first, P x) ∧ TemplatesThroughout P own head ts ∧ Throughout P own ns := by
  simp [Throughout, TemplatesThroughout, walkAll, Node.walk, lists, or_imp, forall_and, and_assoc]

/-- A collection lists its templates behind what it lists itself. -/
theorem throughout_collection {h : CollectionHead} {first : List α}
    (lists : own (.collection h ts ns) = first ++ ts.map head) :
    Throughout P own [.collection h ts ns] ↔
      (∀ x ∈ first, P x) ∧ TemplatesThroughout P own head ts ∧ Throughout P own ns := by
  simp [Throughout, TemplatesThroughout, walkAll, Node.walk, lists, or_imp, forall_and, and_assoc]

theorem templatesThroughout_cons {t : Template} : TemplatesThroughout P own head (t :: ts) ↔
    P (head t) ∧ Throughout P own t.children ∧ TemplatesThroughout P own head ts := by
  cases t
  simp [TemplatesThroughout, Throughout, walkTemplates, Template.walk, Template.children, or_imp,
    forall_and]
  exact fun _ => and_left_comm

theorem templatesThroughout_append : TemplatesThroughout P own head (ts ++ us) ↔
    TemplatesThroughout P own head ts ∧ TemplatesThroughout P own head us := by
  induction ts with
  | nil => exact (and_iff_right templatesThroughout_nil).symm
  | cons t ts ih =>
    rw [List.cons_append, templatesThroughout_cons, templatesThroughout_cons, ih, and_assoc,
      and_assoc]

/-- What a change makes hold of the collection that it is done to holds throughout, if the others
keep to it. -/
theorem throughout_changeCollection
    {change : CollectionHead → List Node → CollectionHead × List Node} {fresh : CollectionHead}
    (keep : ∀ x, P x → P' x)
    (last : Throughout P' own [.collection (change fresh []).1 [] (change fresh []).2])
    (changed : ∀ h ts ns, Throughout P own [.collection h ts ns] →
      Throughout P' own [.collection (change h ns).1 ts (change h ns).2])
    (h : Throughout P own ns) : Throughout P' own (changeCollection change fresh ns) := by
  fun_induction changeCollection change fresh ns with
  | case1 head ns hc =>
    rwa [hc] at last
  | case2 head ts ns rest _ head' ns' hc =>
    obtain ⟨first, others⟩ := throughout_cons.1 h
    have done := changed head ts ns first
    rw [hc] at done
    exact throughout_cons.2 ⟨done, others.mono keep⟩
  | case3 head ts ns rest _ ih =>
    obtain ⟨first, others⟩ := throughout_cons.1 h
    exact throughout_cons.2 ⟨first.mono keep, ih others⟩
  | case4 n rest _ ih =>
    obtain ⟨first, others⟩ := throughout_cons.1 h
    exact throughout_cons.2 ⟨first.mono keep, ih others⟩

end

end ServerMarkup
