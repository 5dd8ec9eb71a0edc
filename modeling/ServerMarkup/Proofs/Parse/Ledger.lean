/-
# What only the builder writes

Three lists of a document are the builder's own: the included files, the template classes and the
scripts.  The builder adds to them when it includes a file, closes a template or ends a script;
resolving types, acting on directives and binding attributes do not (`Aside`).  Nor do these steps
read the lists, except that an event handler is looked for only if there is no script: with other
lists they do the same, as long as there are scripts in both or in neither.

| step | is mild, and so aside, by |
| --- | --- |
| resolving a type, reading a file | `Asks.mild` |
| acting on a directive | `Acts.mild` |
| binding attributes | `Builder.mild_bind` |
-/

import ServerMarkup.Proofs.Parse.Steps
import ServerMarkup.Proofs.Parse.Writing

namespace ServerMarkup

/-- The lists of a document that only the builder adds to. -/
structure Ledger where
  includes : List Include
  templates : List TemplateClass
  scripts : List ScriptBlock

namespace Session

/-- The lists of the builder. -/
def ledger (s : Session) : Ledger :=
  ⟨s.document.includes, s.document.templates, s.document.scripts⟩

/-- The session with other lists of the builder. -/
def withLedger (s : Session) (l : Ledger) : Session :=
  s.withDocument fun d =>
    { d with includes := l.includes, templates := l.templates, scripts := l.scripts }

@[simp] theorem withLedger_ledger (s : Session) : s.withLedger s.ledger = s := rfl

end Session

section
variable {α β : Type} {x : Parse α} {f : α → Parse β}

/-- The step does the same whatever the builder has put on its lists, and leaves them as they are;
it may depend on whether there are scripts. -/
def Aside (x : Parse α) : Prop :=
  ∀ (s : Session) (l : Ledger), l.scripts.isEmpty = s.ledger.scripts.isEmpty →
    x.run.run (s.withLedger l) = ((x.run.run s).1, (x.run.run s).2.withLedger l)

namespace Aside

/-- A step that leaves the ledger aside keeps it. -/
theorem ledger_eq (h : Aside x) (s : Session) : (x.run.run s).2.ledger = s.ledger := by
  have same := congrArg (·.2.ledger) (h s s.ledger rfl)
  rwa [Session.withLedger_ledger] at same

theorem pure {a : α} : Aside (Pure.pure a) :=
  fun _ _ _ => rfl

theorem throw {e : Failure} : Aside (throw e : Parse α) :=
  fun _ _ _ => rfl

theorem bind (hx : Aside x) (hf : ∀ a, Aside (f a)) : Aside (x >>= f) := by
  intro s l empty
  have kept := hx.ledger_eq s
  rw [run_bind, run_bind, hx s l empty]
  rcases hr : x.run.run s with ⟨_ | a, s'⟩
  · rfl
  · rw [hr] at kept
    exact hf a s' l (by rw [kept]; exact empty)

/-- A step may read the session, but for the lists. -/
theorem get_bind {f : Session → Parse β} (same : ∀ s l, f (s.withLedger l) = f s)
    (hf : ∀ s, Aside (f s)) : Aside (get >>= f) := by
  intro s l empty
  have run (s : Session) : (get >>= f).run.run s = (f s).run.run s := rfl
  rw [run, run, same]
  exact hf s s l empty

/-- A change that leaves the ledger aside makes such a step. -/
theorem modify {f : Session → Session} (h : ∀ s l, f (s.withLedger l) = (f s).withLedger l) :
    Aside (modify f : Parse Unit) :=
  fun s l _ => congrArg (Except.ok (), ·) (h s l)

end Aside

/-- A step that reports no closing tag that does not fit, and that leaves the lists of the builder
aside. -/
structure Mild (x : Parse α) : Prop where
  quiet : Quiet x
  aside : Aside x

namespace Mild

theorem pure {a : α} : Mild (Pure.pure a) :=
  ⟨.pure, .pure⟩

theorem throw {e : Failure} : Mild (throw e : Parse α) :=
  ⟨.throw, .throw⟩

theorem bind (hx : Mild x) (hf : ∀ a, Mild (f a)) : Mild (x >>= f) :=
  ⟨hx.quiet.bind fun a => (hf a).quiet, hx.aside.bind fun a => (hf a).aside⟩

/-- Mild steps, one after the other, are mild. -/
theorem foldlM {γ : Type} {f : α → γ → Parse α} (h : ∀ a c, Mild (f a c)) (cs : List γ) (a : α) :
    Mild (cs.foldlM f a) := by
  induction cs generalizing a with
  | nil => exact .pure
  | cons c cs ih =>
    rw [List.foldlM_cons]
    exact (h a c).bind ih

/-- A step that looks at the session, the ledger left aside, is mild if it goes on mildly. -/
theorem get_bind {f : Session → Parse β} (same : ∀ s l, f (s.withLedger l) = f s)
    (hf : ∀ s, Mild (f s)) : Mild (get >>= f) :=
  ⟨Quiet.get.bind fun s => (hf s).quiet, .get_bind same fun s => (hf s).aside⟩

theorem modify {f : Session → Session} (quiet : ∀ s, (f s).mismatches = s.mismatches)
    (aside : ∀ s l, f (s.withLedger l) = (f s).withLedger l) : Mild (modify f : Parse Unit) :=
  ⟨.modify quiet, .modify aside⟩

end Mild

end

/-- A report of anything but an unexpected closing tag is mild. -/
theorem mild_report {code : DiagnosticCode} (span : Span) (args : List String)
    (h : code ≠ .unexpectedClosingTag) : Mild (report code span args) :=
  .modify (fun s => s.mismatches_report_of_ne span args h) fun _ _ => rfl

/-- A step that only asks is mild, unless it reports such a closing tag. -/
theorem Asks.mild {p : Project} {rs : List (DiagnosticCode × Span)} {α : Type} {x : Parse α}
    (h : Asks p rs x) (other : ∀ r ∈ rs, r.1 ≠ .unexpectedClosingTag) : Mild x :=
  h.induct (C := Mild) (fun _ => .pure) (fun _ => .throw)
    (fun _ same => .get_bind fun s l => same (s.withLedger l) s rfl rfl)
    (fun r mem args => mild_report r.2 args (other r mem)) fun _ _ => .bind

namespace Project

variable (p : Project)

/-- Finding the type of a control is mild. -/
theorem mild_controlType (tag : TagName) (attributes : List Attribute) :
    Mild (p.controlType tag attributes) :=
  (p.asks_controlType tag attributes).mild (by simp [unknownControl])

end Project

/-! ### Directives -/

/-- Setting a page property leaves the ledger aside. -/
theorem Session.setPageProperty_withLedger (r : TypeResolver) (base : TypeRef) (s : Session)
    (l : Ledger) (a : Excerpt × Excerpt) :
    (s.withLedger l).setPageProperty r base a = (s.setPageProperty r base a).withLedger l := by
  unfold setPageProperty
  split
  · rfl
  split
  · rfl
  · rfl

/-- Imports change nothing else of a document. -/
theorem Document.exists_addImports (d : Document) (spaces : List String) :
    ∃ imports, spaces.foldl addImport d = { d with imports } := by
  induction spaces generalizing d with
  | nil => exact ⟨d.imports, rfl⟩
  | cons space spaces ih =>
    obtain ⟨imports, eq⟩ := ih (d.addImport space)
    refine ⟨imports, ?_⟩
    rw [List.foldl_cons, eq, addImport]
    split <;> rfl

/-- Before the first token nothing has been gathered but imports. -/
theorem Session.exists_start (o : Options) (file text : String) (registry : Registry) :
    ∃ imports, start o file text registry =
      ⟨{ Document.empty ⟨file, .first, Position.first.across text.toList⟩ with
        imports, space := o.defaultNamespace }, [], registry, false⟩ := by
  obtain ⟨imports, eq⟩ := Document.exists_addImports
    (.empty ⟨file, .first, Position.first.across text.toList⟩) o.defaultImports
  exact ⟨imports, by rw [start, eq]⟩

/-- An import is added whatever the lists of the builder are. -/
theorem Session.addImport_withLedger (s : Session) (l : Ledger) (space : String) :
    (s.withLedger l).withDocument (·.addImport space) =
      (s.withDocument (·.addImport space)).withLedger l := by
  by_cases h : space ∈ s.document.imports <;>
    simp [withDocument, withLedger, Document.addImport, h]

section
variable {p : Project} {as : DirectiveAttributes} {span : Span} {main : Bool}

/-- What a directive writes reports no closing tag. -/
theorem Writes.mismatches {f : Session → Session} (h : Writes p as main f) (s : Session) :
    (f s).mismatches = s.mismatches := by
  cases h with
  | property base _ => exact s.mismatches_setPageProperty _ _ _
  | _ => rfl

/-- What a directive writes leaves the ledger aside. -/
theorem Writes.withLedger {f : Session → Session} (h : Writes p as main f) (s : Session)
    (l : Ledger) : f (s.withLedger l) = (f s).withLedger l := by
  cases h with
  | property base _ => exact s.setPageProperty_withLedger _ _ l _
  | addImport value => exact s.addImport_withLedger l value
  | _ => rfl

/-- Acting on a directive is mild. -/
theorem Acts.mild {α : Type} {x : Parse α} (h : Acts p as span main x) : Mild x := by
  induction h with
  | asks h =>
    refine h.mild (DirectiveAttributes.forall_reports (C := fun c _ => c ≠ .unexpectedClosingTag)
      (by decide) fun _ _ => ?_)
    exact ⟨by decide, by decide⟩
  | write h => exact .modify h.mismatches h.withLedger
  | reads same _ ih => exact .get_bind (fun s l => same (s.withLedger l) s rfl rfl) ih
  | bind _ _ ihx ihf => exact ihx.bind ihf

/-- A directive is mild. -/
theorem Project.mild_direct (p : Project) (file : String) (kind : DirectiveKind)
    (as : DirectiveAttributes) (span : Span) : Mild (p.direct file kind as span) :=
  (p.acts_direct file kind as span).mild

end

/-! ### Attributes -/

section
variable (r : TypeResolver) (owner : Owner) {s : Session} {l : Ledger}

/-- An attribute has the same effect on all pages that can have the same handlers. -/
theorem Effect.of_congr {d d' : Document} (h : canHandle r d' = canHandle r d) (a : Attribute) :
    Effect.of r d' owner a = Effect.of r d owner a := by
  unfold Effect.of eventBinding?
  rw [h]

/-- A handler is looked for if there is no script, whatever the scripts are. -/
theorem effect_withLedger (h : l.scripts.isEmpty = s.ledger.scripts.isEmpty) (a : Attribute) :
    Effect.of r (s.withLedger l).document owner a = Effect.of r s.document owner a := by
  refine Effect.of_congr r owner ?_ a
  have scripts : (s.withLedger l).document.scripts.isEmpty = s.document.scripts.isEmpty := h
  have inherits : (s.withLedger l).document.inherits = s.document.inherits := rfl
  funext handler
  rw [canHandle, canHandle, scripts, inherits]

/-- An attribute is bound alike with ledgers that both have scripts or both have none. -/
theorem bindAttribute_withLedger (h : l.scripts.isEmpty = s.ledger.scripts.isEmpty) (b : Bound)
    (a : Attribute) :
    bindAttribute r owner (s.withLedger l) b a =
        ((bindAttribute r owner s b a).1.withLedger l, (bindAttribute r owner s b a).2) ∧
      (bindAttribute r owner s b a).1.ledger = s.ledger := by
  unfold bindAttribute
  rw [effect_withLedger r owner h]
  split
  · exact ⟨rfl, rfl⟩
  · exact ⟨rfl, rfl⟩
  · dsimp only
    split
    · exact ⟨rfl, rfl⟩
    · unfold Session.declareField
      have fields (id : String) : (s.withLedger l).document.field? id = s.document.field? id := rfl
      rw [fields]
      split <;> exact ⟨rfl, rfl⟩
  · dsimp only
    split <;> exact ⟨rfl, rfl⟩

/-- An attribute asks alike with ledgers that both have scripts or both have none. -/
theorem questions_withLedger (h : l.scripts.isEmpty = s.ledger.scripts.isEmpty) (ns : List Node)
    (a : Attribute) : Effect.questions r (s.withLedger l).document owner ns a =
      Effect.questions r s.document owner ns a := by
  have asked : eventQuestions r (s.withLedger l).document = eventQuestions r s.document := by
    have scripts : (s.withLedger l).document.scripts.isEmpty = s.document.scripts.isEmpty := h
    have inherits : (s.withLedger l).document.inherits = s.document.inherits := rfl
    funext type a
    rw [eventQuestions, eventQuestions, scripts, inherits]
  unfold Effect.questions
  rw [effect_withLedger r owner h, asked]

end

namespace Builder

variable (p : Project) (owner : Owner)

/-- Binding an attribute is mild. -/
theorem mild_bindOne (b : Bound) (a : Attribute) : Mild (bindOne p owner b a) where
  quiet := by
    refine Quiet.get.bind fun s => ((p.asks_askAll _).mild nofun).quiet.bind fun _ => ?_
    exact fun s => s.mismatches_bindAttribute p.resolver owner b a
  aside s l empty := by
    obtain ⟨result, asked⟩ :=
      p.exists_run_askAll (Effect.questions p.resolver s.document owner b.children a)
    rw [run_bindOne, run_bindOne, questions_withLedger p.resolver owner empty, asked, asked]
    cases result with
    | error e => rfl
    | ok _ =>
      dsimp only
      rw [(bindAttribute_withLedger p.resolver owner empty b a).1]

/-- Binding attributes is mild. -/
theorem mild_bind (as : List Attribute) : Mild (bind p owner as) :=
  .foldlM (mild_bindOne p owner) as .start

end Builder
end ServerMarkup
