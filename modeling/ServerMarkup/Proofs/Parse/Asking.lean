/-
# Steps that only ask

To find a type a step asks the resolver, reads the file of a user control, looks up the imports and
the registered tags of the session, and reports what it does not find.  `Asks p rs x` says that this
is all that the step `x` does, and that its reports are among `rs`.  Whatever holds of a question,
of a report and of steps one after the other holds of such a step, so a property of steps is shown
for all of them by one induction.
-/

import ServerMarkup.Parse.ControlType
import ServerMarkup.Parse.Directives

namespace ServerMarkup

/-- The step asks, looks up names, and makes some of the reports, with any arguments. -/
inductive Asks (p : Project) (rs : List (DiagnosticCode × Span)) :
    {α : Type} → Parse α → Prop where
  | pure {α : Type} (a : α) : Asks p rs (Pure.pure a : Parse α)
  | resolve (space name : String) : Asks p rs (p.resolve space name)
  | ask (q : Question) : Asks p rs (p.ask q)
  | read (path : String) : Asks p rs (p.readFile path)
  | names {β : Type} {f : Session → Parse β}
    (same : ∀ s t, s.document.imports = t.document.imports → s.registry = t.registry → f s = f t)
    (h : ∀ s, Asks p rs (f s)) : Asks p rs (get >>= f)
  | report {code : DiagnosticCode} {span : Span} (args : List String) (mem : (code, span) ∈ rs) :
    Asks p rs (ServerMarkup.report code span args)
  | bind {α β : Type} {x : Parse α} {f : α → Parse β} (hx : Asks p rs x)
    (hf : ∀ a, Asks p rs (f a)) : Asks p rs (x >>= f)

/-- A step may make further reports. -/
theorem Asks.mono {p : Project} {rs rs' : List (DiagnosticCode × Span)} {α : Type} {x : Parse α}
    (h : Asks p rs x) (sub : rs ⊆ rs') : Asks p rs' x := by
  induction h with
  | pure a => exact .pure a
  | resolve space name => exact .resolve space name
  | ask q => exact .ask q
  | read path => exact .read path
  | names same _ ih => exact .names same ih
  | report args mem => exact .report args (sub mem)
  | bind _ _ ihx ihf => exact .bind ihx ihf

/-- What holds of results and failures, of steps that look up names, of the reports and of steps in
a row holds of a step that only asks. -/
theorem Asks.induct {p : Project} {rs : List (DiagnosticCode × Span)}
    {C : {α : Type} → Parse α → Prop} (pure : ∀ {α : Type} (a : α), C (Pure.pure a : Parse α))
    (throw : ∀ {α : Type} (e : Failure), C (throw e : Parse α))
    (names : ∀ {β : Type} (f : Session → Parse β), (∀ s t, s.document.imports = t.document.imports →
      s.registry = t.registry → f s = f t) → (∀ s, C (f s)) → C (get >>= f))
    (report : ∀ r ∈ rs, ∀ args, C (ServerMarkup.report r.1 r.2 args))
    (bind : ∀ {α β : Type} (x : Parse α) (f : α → Parse β), C x → (∀ a, C (f a)) → C (x >>= f))
    {α : Type} {x : Parse α} (h : Asks p rs x) : C x := by
  induction h with
  | pure a => exact pure a
  | resolve space name =>
    unfold Project.resolve
    split
    · exact pure _
    · exact throw _
  | ask q =>
    unfold Project.ask
    split
    · exact pure _
    · exact throw _
  | read path =>
    unfold Project.readFile
    split
    · exact pure _
    · exact throw _
  | names same _ ih => exact names _ same ih
  | report args mem => exact report _ mem args
  | bind _ _ ihx ihf => exact bind _ _ ihx ihf

namespace Project

variable (p : Project)

/-- Reading a file reports nothing. -/
theorem asks_readFile (path : String) : Asks p [] (p.readFile path) :=
  .read path

/-- Questions report nothing. -/
theorem asks_askAll (qs : List Question) : Asks p [] (p.askAll qs) := by
  induction qs with
  | nil => exact .pure ()
  | cons q qs ih => exact (Asks.ask q).bind fun _ => ih

/-- Asking for types by several names reports nothing. -/
theorem asks_resolveFirst (names : List (String × String)) : Asks p [] (p.resolveFirst names) := by
  induction names with
  | nil => exact .pure none
  | cons n names ih =>
    refine (Asks.resolve n.1 n.2).bind fun type => ?_
    split
    · exact .pure _
    · exact ih

/-- Asking for a type by its dotted name reports nothing. -/
theorem asks_resolveName (name : String) : Asks p [] (p.resolveName name) :=
  .names (fun s t imports _ => by simp only [imports]) fun _ => p.asks_resolveFirst _

/-- The generic control for plain tags is found without a report. -/
theorem asks_genericHtmlControl : Asks p [] p.genericHtmlControl := by
  refine (Asks.resolve _ _).bind fun type => ?_
  split <;> exact .pure _

/-- The control for a plain tag is found without a report. -/
theorem asks_htmlControl (tag : String) : Asks p [] (p.htmlControl tag) := by
  unfold htmlControl
  split
  · refine (Asks.resolve _ _).bind fun type => ?_
    split
    · exact .pure _
    · exact p.asks_genericHtmlControl
  · exact p.asks_genericHtmlControl

/-- The type of items is found without a report. -/
theorem asks_itemType (attributes : List Attribute) : Asks p [] (p.itemType attributes) := by
  unfold itemType
  split
  · split
    · exact p.asks_resolveName _
    · exact .pure none
  · exact .pure none

/-- The reports of a control whose type is not found. -/
def unknownControl (tag : TagName) : List (DiagnosticCode × Span) :=
  [(.controlNotFound, tag.span), (.typeNotFoundInNamespace, tag.span)]

/-- The type of a control is found, or the control is reported as unknown. -/
theorem asks_controlType (tag : TagName) (attributes : List Attribute) :
    Asks p (unknownControl tag) (p.controlType tag attributes) := by
  have more {α : Type} {x : Parse α} (h : Asks p [] x) : Asks p (unknownControl tag) x :=
    h.mono (List.nil_subset _)
  have generic : Asks p (unknownControl tag)
      (p.genericHtmlControl >>= fun type => pure (type, attributes)) :=
    (more p.asks_genericHtmlControl).bind fun _ => .pure _
  unfold controlType
  split
  · exact (more (p.asks_htmlControl _)).bind fun _ => .pure _
  · refine .names (fun s t _ registry => by simp only [registry]) fun s => ?_
    dsimp only
    split
    · exact .pure _
    split
    · exact (Asks.report _ List.mem_cons_self).bind fun _ => generic
    · refine (more (p.asks_itemType _)).bind fun item => ?_
      refine (more (p.asks_askAll _)).bind fun _ => ?_
      split
      · exact .pure _
      · refine (more (p.asks_resolveFirst _)).bind fun type => ?_
        split
        · exact .pure _
        · exact (Asks.report _ (List.mem_cons_of_mem _ List.mem_cons_self)).bind fun _ => generic

/-- The base type that a file declares is found without a report. -/
theorem asks_declaredBase (path text : String) : Asks p [] (p.declaredBase path text) := by
  unfold declaredBase
  dsimp only
  split
  · exact (p.asks_resolveName _).bind fun _ => .pure _
  · exact .pure _

/-- The type of a user control is found without a report. -/
theorem asks_userControl (path : String) : Asks p [] (p.userControl path) := by
  unfold userControl
  split
  · refine (Asks.read path).bind fun text => ?_
    exact (p.asks_declaredBase path text).bind fun _ => .pure _
  · exact (Asks.ask _).bind fun _ => .pure _

end Project

end ServerMarkup
