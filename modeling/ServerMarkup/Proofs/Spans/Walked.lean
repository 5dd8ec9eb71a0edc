/-
# The order of a walk

A walk visits all nodes of a tree (`mem_walkAll_iff`), and each once, but not always in the order
of the source: what stands in the templates of a node comes before its children, also before those
that the source has in front of them.  Of two nodes on a walk the first begins first in the source,
unless it stands in a template and the other one in a child in front of that (`Overtakes`).  So a
walk is in order exactly if no node has a child in front of a template that holds nodes
(`Node.Forward`), and the control that is found under an ID is the first one in the source exactly
if it overtakes no other (`walk_inOrder_iff`).
-/

import ServerMarkup.Proofs.Fields.Sound
import ServerMarkup.Proofs.Spans.Nested

namespace ServerMarkup

/-! ### The nodes on a walk -/

/-- The node is one of a tree with the nodes at its top. -/
inductive Stands (ns : List Node) : Node → Prop where
  | top {n : Node} (mem : n ∈ ns) : Stands ns n
  | child {m n : Node} (around : Stands ns m) (mem : n ∈ m.children) : Stands ns n
  | hosted {m n : Node} {t : Template} (around : Stands ns m) (host : t ∈ m.templates)
    (mem : n ∈ t.children) : Stands ns n

theorem Node.walk_eq (n : Node) :
    n.walk = n :: (walkTemplates n.templates ++ walkAll n.children) := by
  cases n <;> rfl

theorem Template.walk_eq (t : Template) : t.walk = walkAll t.children := by
  cases t
  rfl

/-- What holds of a node holds of its children, and of the nodes that its templates hold. -/
structure Inherited (P : Node → Prop) : Prop where
  child : ∀ n, P n → ∀ c ∈ n.children, P c
  hosted : ∀ n, P n → ∀ t ∈ n.templates, ∀ c ∈ t.children, P c

section
variable {P : Node → Prop}

mutual

theorem Inherited.walk (h : Inherited P) (n : Node) (own : P n) : ∀ m ∈ n.walk, P m := by
  cases n with
  | leaf l => exact List.forall_mem_singleton.2 own
  | element head ns =>
    exact List.forall_mem_cons.2 ⟨own, h.walkAll ns (h.child _ own)⟩
  | control head ts ns =>
    exact List.forall_mem_cons.2 ⟨own, List.forall_mem_append.2
      ⟨h.walkTemplates ts (h.hosted _ own), h.walkAll ns (h.child _ own)⟩⟩
  | collection head ts ns =>
    exact List.forall_mem_cons.2 ⟨own, List.forall_mem_append.2
      ⟨h.walkTemplates ts (h.hosted _ own), h.walkAll ns (h.child _ own)⟩⟩

/-- It holds of all nodes on a walk. -/
theorem Inherited.walkAll (h : Inherited P) (ns : List Node) (top : ∀ n ∈ ns, P n) :
    ∀ m ∈ walkAll ns, P m := by
  cases ns with
  | nil => exact List.forall_mem_nil _
  | cons n ns =>
    obtain ⟨first, others⟩ := List.forall_mem_cons.1 top
    exact List.forall_mem_append.2 ⟨h.walk n first, h.walkAll ns others⟩

theorem Inherited.walkTemplates (h : Inherited P) (ts : List Template)
    (top : ∀ t ∈ ts, ∀ n ∈ t.children, P n) : ∀ m ∈ walkTemplates ts, P m := by
  cases ts with
  | nil => exact List.forall_mem_nil _
  | cons t ts =>
    obtain ⟨first, others⟩ := List.forall_mem_cons.1 top
    cases t with
    | mk head ns => exact List.forall_mem_append.2 ⟨h.walkAll ns first, h.walkTemplates ts others⟩

end

end

section
variable {ns : List Node} {ts : List Template} {n m : Node} {t : Template}

theorem self_mem_walk (n : Node) : n ∈ n.walk := by
  rw [n.walk_eq]
  exact List.mem_cons_self

theorem walk_sublist_walkAll (mem : n ∈ ns) : n.walk.Sublist (walkAll ns) := by
  obtain ⟨before, after, rfl⟩ := List.append_of_mem mem
  rw [walkAll_append, walkAll]
  exact (List.sublist_append_left _ _).trans (List.sublist_append_right _ _)

theorem walk_sublist_walkTemplates (mem : t ∈ ts) : t.walk.Sublist (walkTemplates ts) := by
  induction mem with
  | head ts => exact List.sublist_append_left _ _
  | tail t mem ih => exact ih.trans (List.sublist_append_right _ _)

theorem mem_walkAll {ns : List Node} : m ∈ walkAll ns ↔ ∃ n ∈ ns, m ∈ n.walk := by
  induction ns with
  | nil => simp [walkAll]
  | cons n ns ih => simp [walkAll, ih]

theorem mem_walkTemplates {ts : List Template} : m ∈ walkTemplates ts ↔ ∃ t ∈ ts, m ∈ t.walk := by
  induction ts with
  | nil => simp [walkTemplates]
  | cons t ts ih => simp [walkTemplates, ih]

/-- Below a node on a walk the walk goes on. -/
theorem walk_sublist_of_mem (mem : m ∈ walkAll ns) : m.walk.Sublist (walkAll ns) := by
  have inherited : Inherited fun m => m.walk.Sublist (walkAll ns) := by
    refine ⟨fun n walk c mem => ?_, fun n walk t host c mem => ?_⟩
    · rw [n.walk_eq] at walk
      refine (walk_sublist_walkAll mem).trans (List.Sublist.trans ?_ walk)
      exact (List.sublist_append_right _ _).trans (List.sublist_cons_self _ _)
    · rw [n.walk_eq] at walk
      have inner := walk_sublist_walkTemplates host
      rw [t.walk_eq] at inner
      refine (walk_sublist_walkAll mem).trans (inner.trans (List.Sublist.trans ?_ walk))
      exact (List.sublist_append_left _ _).trans (List.sublist_cons_self _ _)
  exact inherited.walkAll ns (fun n top => walk_sublist_walkAll top) m mem

/-- **A walk visits the nodes of the tree.** -/
theorem mem_walkAll_iff : n ∈ walkAll ns ↔ Stands ns n := by
  constructor
  · have inherited : Inherited (Stands ns) :=
      ⟨fun n stands c mem => .child stands mem,
        fun n stands t host c mem => .hosted stands host mem⟩
    exact inherited.walkAll ns (fun n top => .top top) n
  · intro stands
    induction stands with
    | @top n mem => exact (walk_sublist_walkAll mem).subset (self_mem_walk n)
    | @child m n around mem ih =>
      refine (walk_sublist_of_mem ih).subset ?_
      rw [m.walk_eq]
      refine List.mem_cons_of_mem _ (List.mem_append_right _ ?_)
      exact mem_walkAll.2 ⟨n, mem, self_mem_walk n⟩
    | @hosted m n t around host mem ih =>
      refine (walk_sublist_of_mem ih).subset ?_
      rw [m.walk_eq]
      refine List.mem_cons_of_mem _ (List.mem_append_left _ (mem_walkTemplates.2 ⟨t, host, ?_⟩))
      rw [t.walk_eq]
      exact mem_walkAll.2 ⟨n, mem, self_mem_walk n⟩

end

/-! ### Containers in order -/

/-- What stands in the container is tidy, its templates come in order, and all lies in its span,
behind its first character. -/
structure Container.Orders (c : Container) : Prop where
  tidy : c.Tidy
  templates : c.templates.Pairwise Span.Before
  holds : c.Holds
  leads : c.Leads

/-- The first node stands in a template, and the second in a child of the same node that ends before
the template begins. -/
def Overtakes (ns : List Node) (a b : Node) : Prop :=
  ∃ n ∈ walkAll ns, ∃ t ∈ n.templates, ∃ c ∈ n.children,
    a ∈ t.walk ∧ b ∈ c.walk ∧ c.span.Before t.span

/-- No child of the node stands in front of a template that holds nodes. -/
def Node.Forward (n : Node) : Prop :=
  ∀ t ∈ n.templates, t.children ≠ [] → ∀ c ∈ n.children, ¬ c.span.Before t.span

instance (n : Node) : Decidable n.Forward :=
  inferInstanceAs (Decidable
    (∀ t ∈ n.templates, t.children ≠ [] → ∀ c ∈ n.children, ¬ c.span.Before t.span))

/-- The offset at which the node begins. -/
def Node.begins (n : Node) : Nat :=
  n.span.start.offset

section
variable {G : Container → Prop} {n : Node} {ns : List Node} {t : Template} {ts : List Template}

theorem Contained.of_mem (h : Contained G ns) (mem : n ∈ ns) : Contained G [n] := by
  obtain ⟨before, after, rfl⟩ := List.append_of_mem mem
  exact (throughout_cons.1 (throughout_append.1 h).2).1

theorem TemplatesContained.of_mem (h : TemplatesContained G ts) (mem : t ∈ ts) :
    G t.container ∧ Contained G t.children := by
  obtain ⟨before, after, rfl⟩ := List.append_of_mem mem
  obtain ⟨own, inner, -⟩ := templatesThroughout_cons.1 (templatesThroughout_append.1 h).2
  exact ⟨own, inner⟩

/-- A node that is no leaf is a container itself. -/
theorem Contained.parts (h : Contained G [n]) :
    ((∃ l, n = .leaf l) ∨ ∃ kind,
      G ⟨kind, n.span, n.children.map Node.span, n.templates.map Template.span⟩) ∧
        TemplatesContained G n.templates ∧ Contained G n.children := by
  cases n with
  | leaf l => exact ⟨.inl ⟨l, rfl⟩, templatesThroughout_nil, throughout_nil⟩
  | element head ns =>
    obtain ⟨own, inner⟩ := contained_element.1 h
    exact ⟨.inr ⟨_, own⟩, templatesThroughout_nil, inner⟩
  | control head ts ns =>
    obtain ⟨own, hosted, inner⟩ := contained_control.1 h
    exact ⟨.inr ⟨_, own⟩, hosted, inner⟩
  | collection head ts ns =>
    obtain ⟨own, hosted, inner⟩ := contained_collection.1 h
    exact ⟨.inr ⟨_, own⟩, hosted, inner⟩

end

/-! ### Nodes in order -/

section
variable {n m a b : Node} {ns : List Node} {t : Template} {ts : List Template} {lo hi : Nat}

/-- The span begins behind an offset, is not empty and ends before another offset. -/
def Span.Amid (lo hi : Nat) (p : Span) : Prop :=
  lo < p.start.offset ∧ p.start.offset < p.stop.offset ∧ p.stop.offset ≤ hi

/-- What stands in a container in order lies amid it. -/
theorem Container.Orders.amid {c : Container} (h : c.Orders) {p : Span}
    (mem : p ∈ c.nodes ++ c.templates) : p.Amid c.span.start.offset c.span.stop.offset :=
  ⟨h.leads p mem, h.tidy.filled p mem, (h.holds p mem).stop⟩

theorem Span.Amid.trans {p q : Span} (h : p.Amid lo hi)
    (k : q.Amid p.start.offset p.stop.offset) : q.Amid lo hi :=
  ⟨Nat.lt_trans h.1 k.1, k.2.1, Nat.le_trans k.2.2 h.2.2⟩

/-- The children of a node lie amid it. -/
theorem Contained.amid_children (h : Contained Container.Orders [n]) :
    ∀ c ∈ n.children, c.span.Amid n.begins n.span.stop.offset := by
  intro c mem
  obtain ⟨⟨l, rfl⟩ | ⟨kind, own⟩, -⟩ := h.parts
  · cases mem
  · exact own.amid (List.mem_append_left _ (List.mem_map_of_mem mem))

/-- The templates of a node lie amid it. -/
theorem Contained.amid_templates (h : Contained Container.Orders [n]) :
    ∀ t ∈ n.templates, t.span.Amid n.begins n.span.stop.offset := by
  intro t mem
  obtain ⟨⟨l, rfl⟩ | ⟨kind, own⟩, -⟩ := h.parts
  · cases mem
  · exact own.amid (List.mem_append_right _ (List.mem_map_of_mem mem))

/-- The nodes that a template holds lie amid it. -/
theorem TemplatesContained.amid (h : TemplatesContained Container.Orders ts) (mem : t ∈ ts) :
    ∀ c ∈ t.children, c.span.Amid t.span.start.offset t.span.stop.offset :=
  fun _ mem' => (h.of_mem mem).1.amid (List.mem_append_left _ (List.mem_map_of_mem mem'))

/-- What is below nodes that lie amid two offsets does so too. -/
theorem inherited_amid (lo hi : Nat) :
    Inherited fun m => Contained Container.Orders [m] ∧ m.span.Amid lo hi := by
  refine ⟨fun n ⟨h, amid⟩ c mem => ?_, fun n ⟨h, amid⟩ t host c mem => ?_⟩
  · exact ⟨h.parts.2.2.of_mem mem, amid.trans (h.amid_children c mem)⟩
  · have hosted := h.parts.2.1
    exact ⟨(hosted.of_mem host).2.of_mem mem,
      amid.trans ((h.amid_templates t host).trans (hosted.amid host c mem))⟩

/-- On a walk over nodes that lie amid two offsets all nodes do. -/
theorem Contained.amid_walkAll (h : Contained Container.Orders ns)
    (amid : ∀ n ∈ ns, n.span.Amid lo hi) : ∀ m ∈ walkAll ns, m.span.Amid lo hi := by
  intro m mem
  exact ((inherited_amid lo hi).walkAll ns (fun n top => ⟨h.of_mem top, amid n top⟩) m mem).2

/-- On a walk over a node all begin no sooner than the node, and before its end. -/
theorem Contained.begins_walk (h : Contained Container.Orders [n])
    (filled : n.begins < n.span.stop.offset) (mem : m ∈ n.walk) :
    n.begins ≤ m.begins ∧ m.begins < n.span.stop.offset := by
  rw [n.walk_eq] at mem
  obtain rfl | mem := List.mem_cons.1 mem
  · exact ⟨Nat.le_refl _, filled⟩
  obtain ⟨-, hosted, inner⟩ := h.parts
  have amid : m.span.Amid n.begins n.span.stop.offset := by
    obtain template | child := List.mem_append.1 mem
    · obtain ⟨t, host, mem⟩ := mem_walkTemplates.1 template
      rw [t.walk_eq] at mem
      exact (h.amid_templates t host).trans
        ((hosted.of_mem host).2.amid_walkAll (hosted.amid host) m mem)
    · exact inner.amid_walkAll h.amid_children m child
  exact ⟨Nat.le_of_lt amid.1, Nat.lt_of_lt_of_le amid.2.1 amid.2.2⟩

/-- Nodes side by side come in the order of the source, and none is empty. -/
structure InLine (ns : List Node) : Prop where
  filled : ∀ n ∈ ns, n.begins < n.span.stop.offset
  ordered : ns.Pairwise fun a b => a.span.Before b.span

/-- What stands in a container in order stands in line. -/
theorem Container.Orders.inLine {c : Container} (h : c.Orders)
    (nodes : c.nodes = ns.map Node.span) : InLine ns := by
  refine ⟨fun n mem => h.tidy.filled n.span (List.mem_append_left _ ?_), ?_⟩
  · rw [nodes]
    exact List.mem_map_of_mem mem
  · have ordered := h.tidy.ordered
    rwa [nodes, List.pairwise_map] at ordered

/-- The children of a node stand in line, templates come in order, and the two are apart. -/
theorem Contained.lines (h : Contained Container.Orders [n]) : InLine n.children ∧
    (n.templates.Pairwise fun t u => t.span.Before u.span) ∧
      ∀ t ∈ n.templates, ∀ c ∈ n.children, t.span.Before c.span ∨ c.span.Before t.span := by
  obtain ⟨⟨l, rfl⟩ | ⟨kind, own⟩, -⟩ := h.parts
  · exact ⟨⟨List.forall_mem_nil _, .nil⟩, .nil, List.forall_mem_nil _⟩
  · have apart := (List.pairwise_append.1 own.tidy.apart).2.2
    refine ⟨own.inLine rfl, List.pairwise_map.1 own.templates, fun t host c mem => ?_⟩
    exact (apart c.span (List.mem_map_of_mem mem) t.span (List.mem_map_of_mem host)).symm

variable {all : List Node}

/-- The second node begins behind the first, or is overtaken. -/
def Behind (all : List Node) (a b : Node) : Prop :=
  a.begins < b.begins ∨ Overtakes all a b

/-- Of a node and those on a walk below it, those that come later follow. -/
theorem Contained.behind_walk (h : Contained Container.Orders [n]) (here : n ∈ walkAll all)
    (templates : (walkTemplates n.templates).Pairwise (Behind all))
    (children : (walkAll n.children).Pairwise (Behind all)) : n.walk.Pairwise (Behind all) := by
  obtain ⟨-, hosted, inner⟩ := h.parts
  obtain ⟨line, -, apart⟩ := h.lines
  rw [n.walk_eq]
  refine List.pairwise_cons.2 ⟨fun m mem => .inl ?_, List.pairwise_append.2
    ⟨templates, children, fun a first b second => ?_⟩⟩
  · obtain template | child := List.mem_append.1 mem
    · obtain ⟨t, host, mem⟩ := mem_walkTemplates.1 template
      rw [t.walk_eq] at mem
      exact ((h.amid_templates t host).trans
        ((hosted.of_mem host).2.amid_walkAll (hosted.amid host) m mem)).1
    · exact (inner.amid_walkAll h.amid_children m child).1
  · obtain ⟨t, host, inTemplate⟩ := mem_walkTemplates.1 first
    obtain ⟨c, mem, inChild⟩ := mem_walkAll.1 second
    obtain before | behind := apart t host c mem
    · have later := (inner.of_mem mem).begins_walk (line.filled c mem) inChild
      rw [t.walk_eq] at inTemplate
      have sooner := (hosted.of_mem host).2.amid_walkAll (hosted.amid host) a inTemplate
      exact .inl (Nat.lt_of_lt_of_le sooner.2.1
        (Nat.le_trans sooner.2.2 (Nat.le_trans before later.1)))
    · exact .inr ⟨n, here, t, host, c, mem, inTemplate, inChild, behind⟩

mutual

theorem Node.behind_walk (n : Node) (h : Contained Container.Orders [n])
    (sub : ∀ m ∈ n.walk, m ∈ walkAll all) : n.walk.Pairwise (Behind all) := by
  have here := sub n (self_mem_walk n)
  have line := h.lines
  obtain ⟨-, hosted, inner⟩ := h.parts
  cases n with
  | leaf l => exact List.pairwise_singleton _ _
  | element head ns =>
    exact h.behind_walk here .nil (behind_walkAll ns inner line.1 fun m mem =>
      sub m (List.mem_cons_of_mem _ mem))
  | control head ts ns =>
    exact h.behind_walk here
      (behind_walkTemplates ts hosted line.2.1 fun m mem =>
        sub m (List.mem_cons_of_mem _ (List.mem_append_left _ mem)))
      (behind_walkAll ns inner line.1 fun m mem =>
        sub m (List.mem_cons_of_mem _ (List.mem_append_right _ mem)))
  | collection head ts ns =>
    exact h.behind_walk here
      (behind_walkTemplates ts hosted line.2.1 fun m mem =>
        sub m (List.mem_cons_of_mem _ (List.mem_append_left _ mem)))
      (behind_walkAll ns inner line.1 fun m mem =>
        sub m (List.mem_cons_of_mem _ (List.mem_append_right _ mem)))

/-- **On a walk over nodes in line those that come later follow.** -/
theorem behind_walkAll (ns : List Node) (h : Contained Container.Orders ns) (line : InLine ns)
    (sub : ∀ m ∈ walkAll ns, m ∈ walkAll all) : (walkAll ns).Pairwise (Behind all) := by
  cases ns with
  | nil => exact .nil
  | cons n ns =>
    obtain ⟨first, others⟩ : Contained _ [n] ∧ Contained _ ns := throughout_cons.1 h
    obtain ⟨before, ordered⟩ := List.pairwise_cons.1 line.ordered
    obtain ⟨filled, filled'⟩ := List.forall_mem_cons.1 line.filled
    refine List.pairwise_append.2 ⟨n.behind_walk first fun m mem =>
      sub m (List.mem_append_left _ mem), behind_walkAll ns others ⟨filled', ordered⟩ fun m mem =>
        sub m (List.mem_append_right _ mem), fun a mem b mem' => .inl ?_⟩
    obtain ⟨c, top, mem'⟩ := mem_walkAll.1 mem'
    have sooner := (first.begins_walk filled mem).2
    have later := ((others.of_mem top).begins_walk (filled' c top) mem').1
    exact Nat.lt_of_lt_of_le sooner (Nat.le_trans (before c top) later)

theorem behind_walkTemplates (ts : List Template) (h : TemplatesContained Container.Orders ts)
    (ordered : ts.Pairwise fun t u => t.span.Before u.span)
    (sub : ∀ m ∈ walkTemplates ts, m ∈ walkAll all) :
    (walkTemplates ts).Pairwise (Behind all) := by
  cases ts with
  | nil => exact .nil
  | cons t ts =>
    obtain ⟨own, inner, others⟩ : t.container.Orders ∧ Contained _ t.children ∧
        TemplatesContained _ ts := templatesThroughout_cons.1 h
    obtain ⟨before, ordered'⟩ := List.pairwise_cons.1 ordered
    have amid := h.amid List.mem_cons_self
    cases t with
    | mk head ns =>
      refine List.pairwise_append.2 ⟨behind_walkAll ns inner (own.inLine rfl) fun m mem =>
        sub m (List.mem_append_left _ mem), behind_walkTemplates ts others ordered' fun m mem =>
          sub m (List.mem_append_right _ mem), fun a mem b mem' => .inl ?_⟩
      obtain ⟨u, host, mem'⟩ := mem_walkTemplates.1 mem'
      rw [u.walk_eq] at mem'
      have sooner := Contained.amid_walkAll inner amid a mem
      have later := ((others.of_mem host).2.amid_walkAll (others.amid host) b mem').1
      exact Nat.lt_of_lt_of_le sooner.2.1 (Nat.le_trans sooner.2.2
        (Nat.le_trans (before u host) (Nat.le_of_lt later)))

end

end

/-! ### Overtaking -/

section
variable {n a b : Node} {ns : List Node} (h : Contained Container.Orders ns)
include h

theorem Contained.of_mem_walkAll (mem : n ∈ walkAll ns) : Contained Container.Orders [n] := by
  have inherited : Inherited fun n => Contained Container.Orders [n] :=
    ⟨fun n h c mem => h.parts.2.2.of_mem mem,
      fun n h t host c mem => (h.parts.2.1.of_mem host).2.of_mem mem⟩
  exact inherited.walkAll ns (fun n top => h.of_mem top) n mem

/-- What is overtaken begins first. -/
theorem Overtakes.begins_lt (overtakes : Overtakes ns a b) : b.begins < a.begins := by
  obtain ⟨n, mem, t, host, c, child, inTemplate, inChild, before⟩ := overtakes
  have own := h.of_mem_walkAll mem
  obtain ⟨-, hosted, inner⟩ := own.parts
  have sooner := ((inner.of_mem child).begins_walk (own.lines.1.filled c child) inChild).2
  rw [t.walk_eq] at inTemplate
  have later := ((hosted.of_mem host).2.amid_walkAll (hosted.amid host) a inTemplate).1
  exact Nat.lt_of_lt_of_le sooner (Nat.le_trans before (Nat.le_of_lt later))

/-- **A walk is in order exactly if no child stands in front of a template that holds nodes.** -/
theorem pairwise_begins_iff (line : InLine ns) :
    (walkAll ns).Pairwise (fun a b => a.begins < b.begins) ↔ ∀ n ∈ walkAll ns, n.Forward := by
  constructor
  · intro ordered n mem t host holds c child before
    obtain ⟨x, first⟩ := List.exists_mem_of_ne_nil _ holds
    have inTemplate : x ∈ t.walk := by
      rw [t.walk_eq]
      exact mem_walkAll.2 ⟨x, first, self_mem_walk x⟩
    have below := ordered.sublist (walk_sublist_of_mem mem)
    rw [n.walk_eq] at below
    have visited := (List.pairwise_append.1 (List.pairwise_cons.1 below).2).2.2 x
      (mem_walkTemplates.2 ⟨t, host, inTemplate⟩) c (mem_walkAll.2 ⟨c, child, self_mem_walk c⟩)
    exact Nat.lt_asymm visited (Overtakes.begins_lt h
      ⟨n, mem, t, host, c, child, inTemplate, self_mem_walk c, before⟩)
  · intro forward
    refine (behind_walkAll ns h line fun _ => id).imp fun {a b} behind => ?_
    obtain lt | ⟨n, mem, t, host, c, child, inTemplate, -, before⟩ := behind
    · exact lt
    · refine absurd before (forward n mem t host (fun empty => ?_) c child)
      rw [t.walk_eq, empty] at inTemplate
      cases inTemplate

/-- No two nodes of a walk begin at the same place. -/
theorem pairwise_begins_ne (line : InLine ns) :
    (walkAll ns).Pairwise fun a b => a.begins ≠ b.begins := by
  refine (behind_walkAll ns h line fun _ => id).imp fun {a b} behind same => ?_
  obtain lt | overtakes := behind
  · exact Nat.ne_of_lt lt same
  · exact Nat.ne_of_gt (Overtakes.begins_lt h overtakes) same

/-- The control that is found begins before all others with the ID but those that it overtakes. -/
theorem exists_of_findControl? (line : InLine ns) {id : String} {head : ControlHead}
    (found : findControl? ns id = some head) :
    ∃ a ∈ walkAll ns, a.controlWithId? id = some head ∧ ∀ n ∈ walkAll ns,
      (n.controlWithId? id).isSome → (a.begins ≤ n.begins ↔ ¬ Overtakes ns a n) := by
  obtain ⟨before, a, after, split, own, earlier⟩ := List.findSome?_eq_some_iff.1 found
  have behind := behind_walkAll ns h line fun _ mem => mem
  rw [split] at behind ⊢
  refine ⟨a, List.mem_append_right _ List.mem_cons_self, own, fun n mem has => ?_⟩
  have later : a.begins ≤ n.begins ∨ Overtakes ns a n := by
    obtain first | rest := List.mem_append.1 mem
    · rw [earlier n first] at has
      cases has
    obtain rfl | rest := List.mem_cons.1 rest
    · exact .inl (Nat.le_refl _)
    · have follows := (List.pairwise_cons.1 (List.pairwise_append.1 behind).2.1).1 n rest
      exact follows.imp_left Nat.le_of_lt
  constructor
  · exact fun le overtakes => Nat.not_lt.2 le (Overtakes.begins_lt h overtakes)
  · exact fun none => later.resolve_right none

end

/-! ### The tree of a file -/

/-- A container that a tag opens has what stands in it in order. -/
theorem Container.Nests.orders {file text : String} {c : Container}
    (h : c.Nests (itemsOf (tokenize file text)))
    (tagged : c.kind = .collection → c.Opened (itemsOf (tokenize file text))) : c.Orders := by
  obtain ⟨⟨tidy, templates⟩, ⟨-, holds, leads⟩ | ⟨kind, named⟩⟩ := h
  · exact ⟨tidy, templates, holds, leads⟩
  · exact absurd (tagged kind) named.not_opened

/-- **A walk visits each node once, and in the order of the source exactly if no child stands in
front of a template that holds nodes.**  The file includes no other one, and tags have opened all of
its collections.  The control that is found under an ID begins before all others that have it, but
for those that it overtakes: it stands in a template, and they in a child in front of that. -/
theorem walk_inOrder_iff {p : Project} {path text : String} {registry : Registry} {body : Body}
    {s : Session} (run : p.run path text registry = (.ok body, s))
    (alone : s.document.includes = []) :
    let ns := (s.completed body.children).document.children
    (∀ c ∈ containersOf ns, c.kind = .collection →
      c.Opened (itemsOf (tokenize (normalPath path) text))) →
    (∀ n, n ∈ walkAll ns ↔ Stands ns n) ∧
    (walkAll ns).Pairwise (fun a b => a.begins ≠ b.begins) ∧
    ((walkAll ns).Pairwise (fun a b => a.begins < b.begins) ↔ ∀ n ∈ walkAll ns, n.Forward) ∧
    ∀ id, (findControl? ns id = none ↔ ∀ n ∈ walkAll ns, n.controlWithId? id = none) ∧
      ∀ h, findControl? ns id = some h → ∃ a ∈ walkAll ns, a.controlWithId? id = some h ∧
        ∀ n ∈ walkAll ns, (n.controlWithId? id).isSome →
          (a.begins ≤ n.begins ↔ ¬ Overtakes ns a n) := by
  intro ns tagged
  obtain ⟨hi, root⟩ := Project.placed_of_run run alone
  have orders : Contained Container.Orders ns := fun c mem =>
    (root.below c mem).orders (tagged c mem)
  have line : InLine ns := by
    refine ⟨fun n mem => (root.nodes.each n.span (List.mem_map_of_mem mem)).filled, ?_⟩
    exact List.pairwise_map.1 root.nodes.before
  refine ⟨fun n => mem_walkAll_iff, pairwise_begins_ne orders line, pairwise_begins_iff orders line,
    fun id => ⟨?_, fun h found => exists_of_findControl? orders line found⟩⟩
  exact List.findSome?_eq_none_iff

/-- A page with a template in front of a collection. -/
def headedGrid : String :=
  "<asp:Grid runat=server><Head>a</Head><Rows>b</Rows>c</asp:Grid>"

/-- The walk over the page is in order. -/
theorem walk_inOrder_headedGrid : ∃ body s,
    Project.run .grid "page.aspx" headedGrid .empty = (.ok body, s) ∧ s.document.includes = [] ∧
      let ns := (s.completed body.children).document.children
      (∀ c ∈ containersOf ns, c.kind = .collection →
        c.Opened (itemsOf (tokenize (normalPath "page.aspx") headedGrid))) ∧
      (∃ c ∈ containersOf ns, c.kind = .collection) ∧ (∃ n ∈ walkAll ns, n.templates ≠ []) ∧
      (∀ n ∈ walkAll ns, n.Forward) ∧
      (walkAll ns).Pairwise (fun a b => a.begins < b.begins) := by
  obtain ⟨body, s, run, check⟩ := exists_of_check (Project.run .grid "page.aspx" headedGrid .empty)
    (fun body s => s.document.includes.isEmpty &&
      let ns := (s.completed body.children).document.children
      (decide (∀ c ∈ containersOf ns, c.kind = .collection →
          c.Opened (itemsOf (tokenize (normalPath "page.aspx") headedGrid))) &&
        decide (∃ c ∈ containersOf ns, c.kind = .collection)) &&
      (decide (∃ n ∈ walkAll ns, n.templates ≠ []) && decide (∀ n ∈ walkAll ns, n.Forward)))
    (by decide +kernel)
  simp only [Bool.and_eq_true, decide_eq_true_eq, List.isEmpty_iff] at check
  obtain ⟨alone, ⟨tagged, collection⟩, template, forward⟩ := check
  obtain ⟨-, -, ordered, -⟩ := walk_inOrder_iff run alone tagged
  exact ⟨body, s, run, alone, tagged, collection, template, forward, ordered.2 forward⟩

/-- A page with a control in front of a template that holds one with the same ID. -/
def overtaken : String :=
  "<asp:Repeater runat=\"server\"><asp:Label runat=\"server\" id=\"x\" />" ++
    "<ItemTemplate><asp:Label runat=\"server\" id=\"x\" /></ItemTemplate></asp:Repeater>"

/-- The walk over the page is not in order, and the control that is found is not the first. -/
theorem walk_astray : ∃ body s,
    Project.run .builtin "page.aspx" overtaken .empty = (.ok body, s) ∧
      s.document.includes = [] ∧
      let ns := (s.completed body.children).document.children
      (∀ c ∈ containersOf ns, c.kind ≠ .collection) ∧
      ¬ (walkAll ns).Pairwise (fun a b => a.begins < b.begins) ∧
      ∃ h n k, findControl? ns "x" = some h ∧ n ∈ walkAll ns ∧ n.controlWithId? "x" = some k ∧
        k.span.start.offset < h.span.start.offset := by
  obtain ⟨body, s, run, check⟩ := exists_of_check
    (Project.run .builtin "page.aspx" overtaken .empty)
    (fun body s => s.document.includes.isEmpty &&
      let ns := (s.completed body.children).document.children
      (decide (∀ c ∈ containersOf ns, c.kind ≠ .collection) &&
        decide (¬ (walkAll ns).Pairwise fun a b : Node => a.begins < b.begins)) &&
      (findControl? ns "x").any fun h : ControlHead => (walkAll ns).any fun n : Node =>
        (n.controlWithId? "x").any fun k : ControlHead =>
          decide (k.span.start.offset < h.span.start.offset))
    (by decide +kernel)
  simp only [Bool.and_eq_true, decide_eq_true_eq, List.isEmpty_iff, Option.any_eq_true,
    List.any_eq_true] at check
  obtain ⟨alone, ⟨none, disordered⟩, h, found, n, mem, k, own, before⟩ := check
  exact ⟨body, s, run, alone, none, disordered, h, n, k, found, mem, own, before⟩

end ServerMarkup
