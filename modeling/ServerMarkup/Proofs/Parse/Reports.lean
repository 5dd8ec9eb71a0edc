/-
# Steps that only report

Resolving a type asks the resolver, and reports what is not found: it changes a session by further
diagnostics alone (`Reports`).  Acting on a directive writes down what the directive says besides.
Neither makes a page field or a script, nor takes a diagnostic back (`Calm`).

| step | changes |
| --- | --- |
| resolving a type, reading a file | diagnostics, by `Asks.reports` |
| acting on a directive | not the fields and scripts, by `Acts.calm` |
-/

import ServerMarkup.Proofs.Parse.Steps
import ServerMarkup.Proofs.Parse.Writing

namespace ServerMarkup

/-- The second session has the page fields and scripts of the first, and its diagnostics before any
others. -/
structure Calmed (s s' : Session) : Prop where
  fields : s'.document.fields = s.document.fields
  scripts : s'.document.scripts = s.document.scripts
  diagnostics : s.diagnostics <+: s'.diagnostics

namespace Calmed

theorem refl (s : Session) : Calmed s s :=
  ⟨rfl, rfl, List.prefix_rfl⟩

theorem trans {s s₁ s' : Session} (h : Calmed s s₁) (k : Calmed s₁ s') : Calmed s s' :=
  ⟨k.fields.trans h.fields, k.scripts.trans h.scripts, h.diagnostics.trans k.diagnostics⟩

theorem report (s : Session) (code : DiagnosticCode) (span : Span) (args : List String) :
    Calmed s (s.report code span args) :=
  ⟨rfl, rfl, List.prefix_append _ _⟩

end Calmed

section
variable {α β : Type} {x : Parse α} {f : α → Parse β}

/-- The step changes a session by further diagnostics alone. -/
def Reports (x : Parse α) : Prop :=
  ∀ s, ∃ ds, (x.run.run s).2 = { s with diagnostics := s.diagnostics ++ ds }

/-- The step leaves the page fields and scripts as they are, and takes no diagnostic back. -/
def Calm (x : Parse α) : Prop :=
  ∀ s, Calmed s (x.run.run s).2

namespace Reports

theorem pure {a : α} : Reports (Pure.pure a) :=
  fun s => ⟨[], by rw [List.append_nil]; rfl⟩

theorem throw {e : Failure} : Reports (throw e : Parse α) :=
  fun s => ⟨[], by rw [List.append_nil]; rfl⟩

theorem bind (hx : Reports x) (hf : ∀ a, Reports (f a)) : Reports (x >>= f) := by
  refine Keeps.bind (R := fun s s' => ∃ ds, s' = { s with diagnostics := s.diagnostics ++ ds })
    ?_ hx hf
  rintro s _ _ ⟨ds, rfl⟩ ⟨es, rfl⟩
  exact ⟨ds ++ es, by rw [List.append_assoc]⟩

/-- A step may read the session. -/
theorem get_bind {f : Session → Parse β} (hf : ∀ s, Reports (f s)) : Reports (get >>= f) :=
  fun s => hf s s

theorem report (code : DiagnosticCode) (span : Span) (args : List String) :
    Reports (ServerMarkup.report code span args) :=
  fun _ => ⟨_, rfl⟩

/-- A step that only reports is calm. -/
theorem calm (h : Reports x) : Calm x := by
  intro s
  obtain ⟨ds, same⟩ := h s
  rw [same]
  exact ⟨rfl, rfl, List.prefix_append _ _⟩

end Reports

namespace Calm

theorem bind (hx : Calm x) (hf : ∀ a, Calm (f a)) : Calm (x >>= f) :=
  Keeps.bind (fun _ _ _ => Calmed.trans) hx hf

/-- A step that looks at the session is calm if it goes on calmly. -/
theorem get_bind {f : Session → Parse β} (hf : ∀ s, Calm (f s)) : Calm (get >>= f) :=
  fun s => hf s s

/-- A calm change makes a calm step. -/
theorem modify {f : Session → Session} (h : ∀ s, Calmed s (f s)) : Calm (modify f : Parse Unit) :=
  h

end Calm

end

/-- A step that only asks changes nothing but the diagnostics. -/
theorem Asks.reports {p : Project} {rs : List (DiagnosticCode × Span)} {α : Type} {x : Parse α}
    (h : Asks p rs x) : Reports x :=
  h.induct (C := Reports) (fun _ => .pure) (fun _ => .throw) (fun _ _ => .get_bind)
    (fun r _ => .report r.1 r.2) fun _ _ => .bind

/-! ### Directives -/

namespace Session

/-- Setting a page property is calm. -/
theorem calm_setPageProperty (r : TypeResolver) (base : TypeRef) (s : Session)
    (a : Excerpt × Excerpt) : Calmed s (s.setPageProperty r base a) := by
  unfold setPageProperty
  split
  · exact .refl s
  split
  · exact ⟨rfl, rfl, List.prefix_rfl⟩
  · exact .report s _ _ _

/-- Adding an import is calm. -/
theorem calm_addImport (s : Session) (space : String) :
    Calmed s (s.withDocument (·.addImport space)) := by
  unfold withDocument Document.addImport
  dsimp only
  split <;> exact ⟨rfl, rfl, List.prefix_rfl⟩

end Session

/-- What a directive writes is calm. -/
theorem Writes.calm {p : Project} {as : DirectiveAttributes} {main : Bool} {f : Session → Session}
    (h : Writes p as main f) (s : Session) : Calmed s (f s) := by
  cases h with
  | property base _ => exact s.calm_setPageProperty _ _ _
  | addImport value => exact s.calm_addImport value
  | _ => exact ⟨rfl, rfl, List.prefix_rfl⟩

/-- Acting on a directive is calm. -/
theorem Acts.calm {p : Project} {as : DirectiveAttributes} {span : Span} {main : Bool} {α : Type}
    {x : Parse α} (h : Acts p as span main x) : Calm x := by
  induction h with
  | asks h => exact h.reports.calm
  | write h => exact .modify h.calm
  | reads _ _ ih => exact .get_bind ih
  | bind _ _ ihx ihf => exact ihx.bind ihf

end ServerMarkup
