/-
# What a directive writes down

A directive asks for types and reports what it does not find (`Asks`), and besides it writes down
what it says: the first main directive that the file is described, what the file inherits, its
language, its namespace and properties of the page; others an import, a registered tag or namespace.
`Writes` lists these changes of a session, and `Acts` says that a step makes no others.  So what
holds of each of the changes holds of acting on a directive (`Project.acts_direct`).
-/

import ServerMarkup.Proofs.Parse.Asking

namespace ServerMarkup

/-- A change that a directive with the attributes makes to a session; only the `main` directive
describes the file. -/
inductive Writes (p : Project) (as : DirectiveAttributes) (main : Bool) :
    (Session → Session) → Prop where
  | described (h : main = true) : Writes p as main fun s => { s with described := true }
  | inherits (h : main = true) (base : Option TypeRef) :
    Writes p as main (·.withDocument fun d => { d with inherits := base })
  | language (value : String) :
    Writes p as main (·.withDocument fun d => { d with language := some value })
  | space (value : String) :
    Writes p as main (·.withDocument fun d => { d with space := some value })
  | property (base : TypeRef) {a : Excerpt × Excerpt} (mem : a ∈ as) :
    Writes p as main (·.setPageProperty p.resolver base a)
  | addImport (value : String) : Writes p as main (·.withDocument (·.addImport value))
  | addNamespace (tagPrefix value : String) :
    Writes p as main fun s => { s with registry := s.registry.addNamespace tagPrefix value }
  | registry (r : Registry) : Writes p as main fun s => { s with registry := r }

/-- The reports of a directive at the span, with the attributes. -/
def DirectiveAttributes.reports (as : DirectiveAttributes) (span : Span) :
    List (DiagnosticCode × Span) :=
  (.duplicateControlRegister, span) ::
    as.flatMap fun a => [(.inheritNotFound, a.2.span), (.controlNotFound, a.2.span)]

/-- The step asks, and makes changes of a directive with the attributes at the span. -/
inductive Acts (p : Project) (as : DirectiveAttributes) (span : Span) (main : Bool) :
    {α : Type} → Parse α → Prop where
  | asks {α : Type} {x : Parse α} (h : Asks p (as.reports span) x) : Acts p as span main x
  | write {f : Session → Session} (h : Writes p as main f) :
    Acts p as span main (modify f : Parse Unit)
  | reads {β : Type} {f : Session → Parse β}
    (same : ∀ s t, s.registry = t.registry → s.described = t.described → f s = f t)
    (h : ∀ s, Acts p as span main (f s)) : Acts p as span main (get >>= f)
  | bind {α β : Type} {x : Parse α} {f : α → Parse β} (hx : Acts p as span main x)
    (hf : ∀ a, Acts p as span main (f a)) : Acts p as span main (x >>= f)

theorem DirectiveAttributes.mem_of_find? {as : DirectiveAttributes} {name : String} {v : Excerpt}
    (h : as.find? name = some v) : ∃ a ∈ as, a.2 = v := by
  obtain ⟨a, found, rfl⟩ := Option.map_eq_some_iff.1 h
  exact ⟨a, List.mem_of_find?_eq_some found, rfl⟩

section
variable {as : DirectiveAttributes} {span : Span}

/-- What holds of the report of the directive and of those of its attributes holds of them all. -/
theorem DirectiveAttributes.forall_reports {C : DiagnosticCode → Span → Prop}
    (own : C .duplicateControlRegister span)
    (each : ∀ a ∈ as, C .inheritNotFound a.2.span ∧ C .controlNotFound a.2.span) :
    ∀ r ∈ as.reports span, C r.1 r.2 := by
  refine List.forall_mem_cons.2 ⟨own, List.forall_mem_flatMap.2 fun a mem => ?_⟩
  exact List.forall_mem_cons.2 ⟨(each a mem).1, List.forall_mem_singleton.2 (each a mem).2⟩

theorem DirectiveAttributes.mem_reports {name : String} {v : Excerpt}
    (h : as.find? name = some v) : (.inheritNotFound, v.span) ∈ as.reports span ∧
      (.controlNotFound, v.span) ∈ as.reports span := by
  obtain ⟨a, mem, rfl⟩ := mem_of_find? h
  exact ⟨List.mem_cons_of_mem _ (List.mem_flatMap.2 ⟨a, mem, List.mem_cons_self⟩),
    List.mem_cons_of_mem _
      (List.mem_flatMap.2 ⟨a, mem, List.mem_cons_of_mem _ List.mem_cons_self⟩)⟩

end

namespace Acts

variable {p : Project} {as : DirectiveAttributes} {span : Span} {main : Bool}

theorem pure {α : Type} (a : α) : Acts p as span main (Pure.pure a : Parse α) :=
  .asks (.pure a)

theorem of_asks {α : Type} {x : Parse α} (h : Asks p [] x) : Acts p as span main x :=
  .asks (h.mono (List.nil_subset _))

end Acts

namespace Project

variable (p : Project) {as : DirectiveAttributes} {span : Span} {main : Bool}

theorem acts_inheritedType (kind : DirectiveKind) (as : DirectiveAttributes) (span : Span) :
    Acts p as span main (p.inheritedType kind as) := by
  unfold inheritedType
  split
  · next name named =>
    refine (Acts.of_asks (p.asks_resolveName _)).bind fun type => ?_
    split
    · dsimp only
      split
      · exact .pure _
      · exact (Acts.write (.space _)).bind fun _ => .pure _
    · have told : Acts p as span main (report .inheritNotFound name.span [name.value]) :=
        .asks (.report _ (DirectiveAttributes.mem_reports named).1)
      exact told.bind fun _ => .pure _
  · exact .pure _

theorem acts_setPageProperties (base : TypeRef) (as : DirectiveAttributes) (span : Span) :
    Acts p as span main (p.setPageProperties base as) := by
  have onward : ∀ bs ⊆ as, Acts p as span main (p.setPageProperties base bs) := by
    intro bs sub
    induction bs with
    | nil => exact .pure ()
    | cons b bs ih =>
      obtain ⟨own, others⟩ := List.cons_subset.1 sub
      refine (Acts.of_asks (p.asks_askAll _)).bind fun _ => ?_
      exact (Acts.write (.property base own)).bind fun _ => ih others
  exact onward as (List.Subset.refl as)

theorem acts_describe (kind : DirectiveKind) (as : DirectiveAttributes) (span : Span) :
    Acts p as span true (p.describe kind as) := by
  unfold describe
  refine (Acts.write (.described rfl)).bind fun _ => ?_
  extract_lets rest
  have acts : ∀ u, Acts p as span true (rest u) := by
    intro u
    refine (p.acts_inheritedType kind as span).bind fun base => ?_
    split
    · exact (p.acts_setPageProperties _ as span).bind fun _ => .write (.inherits rfl _)
    · exact .write (.inherits rfl _)
  split
  · exact (Acts.write (.language _)).bind acts
  · exact acts ()

theorem acts_register (file : String) (as : DirectiveAttributes) (span : Span) :
    Acts p as span main (p.register file as span) := by
  unfold register
  split
  · dsimp only
    split
    · exact .write (.addNamespace _ _)
    · next found =>
      refine (Acts.of_asks (p.asks_userControl _)).bind fun type => ?_
      split
      · exact .asks (.report _ (DirectiveAttributes.mem_reports found).2)
      · refine .reads (fun s t registry _ => by simp only [registry]) fun s => ?_
        split
        · exact .write (.registry _)
        · exact .asks (.report _ List.mem_cons_self)
    · exact .pure ()
  · exact .pure ()

/-- Acting on a directive makes changes of a directive only. -/
theorem acts_direct (file : String) (kind : DirectiveKind) (as : DirectiveAttributes)
    (span : Span) : Acts p as span kind.isMain (p.direct file kind as span) := by
  unfold direct
  split
  · next main =>
    refine .reads (fun s t _ described => by simp only [described]) fun s => ?_
    rw [main]
    split
    · exact .pure ()
    · exact p.acts_describe kind as span
  split
  · exact p.acts_register file as span
  split
  · split
    · exact .write (.addImport _)
    · exact .pure ()
  · exact .pure ()

end Project

end ServerMarkup
