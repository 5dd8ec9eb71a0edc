/-
# The history of a run

A run changes its session by one small deed after another: it reports a problem, writes down what a
directive says, registers a tag, records an included file, declares a field, finishes a script or
closes a template.  A history is the list of these deeds, and the moments of the run are the
sessions between them.  `Does p x m ds` follows the step `x` from the moment `m` through its parts
and writes into one session, and `ds` is what it does on the way; the session at the end is that
which the step leaves (`Does.session_eq`).

A main directive does several deeds.  It begins by `describe` and ends by `inherit`, and in between
nothing else is done but to report (`Deed.Fits`).
-/

import ServerMarkup.Parse.Output
import ServerMarkup.Proofs.Parse.Steps

namespace ServerMarkup

/-- A moment of a run: the session, and whether a main directive has been acted on to its end. -/
structure Moment where
  session : Session
  settled : Bool

/-- What a run does at one stroke. -/
inductive Deed where
  | report (problem : Diagnostic)
  /-- A main directive is begun. -/
  | describe
  | language (value : String)
  | space (value : String)
  | property (binding : PropertyBinding)
  /-- A main directive is ended. -/
  | inherit (base : Option TypeRef)
  | addImport (value : String)
  | addNamespace (tagPrefix value : String)
  | addControl (tagPrefix name : String) (type : TypeRef)
  | addInclude (path text : String)
  | declare (field : DeclaredField)
  /-- The attributes of a start tag are bound, which changes nothing any more. -/
  | bind (tag : StartTag) (owner : Owner) (bound : Bound)
  | addScript (block : ScriptBlock)
  /-- A template is closed. -/
  | addTemplate (template : Template)

/-- The class for a template. -/
def TemplateHead.recorded (h : TemplateHead) : TemplateClass :=
  ⟨h.className, h.property, h.span⟩

namespace Deed

/-- The session after the deed. -/
def change (d : Deed) (s : Session) : Session :=
  match d with
  | report problem => { s with diagnostics := s.diagnostics ++ [problem] }
  | describe => { s with described := true }
  | language value => s.withDocument fun d => { d with language := some value }
  | space value => s.withDocument fun d => { d with space := some value }
  | property binding => s.withDocument fun d => { d with properties := d.properties ++ [binding] }
  | inherit base => s.withDocument fun d => { d with inherits := base }
  | addImport value => s.withDocument (·.addImport value)
  | addNamespace tagPrefix value =>
    { s with registry := s.registry.addNamespace tagPrefix value }
  | addControl tagPrefix name type =>
    { s with registry := (s.registry.addControl tagPrefix name type).toOption.getD s.registry }
  | addInclude path text => s.withDocument (·.addInclude path (contentHash text))
  | declare field => s.withDocument fun d => { d with fields := d.fields ++ [field] }
  | bind .. => s
  | addScript block => s.withDocument fun d => { d with scripts := d.scripts ++ [block] }
  | addTemplate t =>
    s.withDocument fun d => { d with templates := d.templates ++ [t.head.recorded] }

/-- Whether a main directive ends by the deed. -/
def settles : Deed → Bool
  | inherit _ => true
  | _ => false

/-- Whether the deed is told from what is written in the session alone. -/
def isWriting : Deed → Bool
  | bind .. | addTemplate _ => false
  | _ => true

end Deed

namespace Moment

/-- The moment after a deed. -/
def after (m : Moment) (d : Deed) : Moment :=
  ⟨d.change m.session, m.settled || d.settles⟩

/-- The moment after some deeds. -/
def past (m : Moment) (ds : List Deed) : Moment :=
  ds.foldl after m

@[simp] theorem past_nil (m : Moment) : m.past [] = m := rfl

@[simp] theorem past_cons (m : Moment) (d : Deed) (ds : List Deed) :
    m.past (d :: ds) = (m.after d).past ds := rfl

@[simp] theorem past_append (m : Moment) (ds es : List Deed) :
    m.past (ds ++ es) = (m.past ds).past es :=
  List.foldl_append

/-- No main directive is being acted on. -/
def Steady (m : Moment) : Prop :=
  m.session.described = m.settled

/-- The main directive is being acted on. -/
def Acting (m : Moment) : Prop :=
  m.session.described = true ∧ m.settled = false

end Moment

/-- The deed may be done at the moment. -/
def Deed.Fits (p : Project) (m : Moment) : Deed → Prop
  | report _ => True
  | describe => m.session.described = false
  | language _ | space _ | property _ | inherit _ => m.Acting
  | addInclude path text => m.Steady ∧ p.files.read path = .ok text
  | bind t owner bound => m.Steady ∧ ∃ as s, Leaves t.attributes as ∧
      bindAttributes p.resolver owner s as = (m.session, bound)
  | addImport _ | addNamespace .. | addControl .. | declare _ | addScript _ | addTemplate _ =>
    m.Steady

/-- The deeds may be done one after the other from the moment on. -/
def Course (p : Project) : Moment → List Deed → Prop
  | _, [] => True
  | m, d :: ds => d.Fits p m ∧ Course p (m.after d) ds

theorem course_append {p : Project} {m : Moment} {ds es : List Deed} :
    Course p m (ds ++ es) ↔ Course p m ds ∧ Course p (m.past ds) es := by
  induction ds generalizing m with
  | nil => exact (and_iff_right trivial).symm
  | cons d ds ih => rw [List.cons_append, Course, ih, Course, and_assoc, Moment.past_cons]

/-- From the moment on the step does the deeds: a part of it after the other, up to one that
fails. -/
inductive Does (p : Project) : {α : Type} → Parse α → Moment → List Deed → Prop where
  | pure {α : Type} (a : α) (m : Moment) : Does p (Pure.pure a : Parse α) m []
  | throw {α : Type} (e : Failure) (m : Moment) : Does p (throw e : Parse α) m []
  | get {β : Type} {f : Session → Parse β} {m : Moment} {ds : List Deed}
    (h : Does p (f m.session) m ds) : Does p (get >>= f) m ds
  | still {α : Type} {f : Session → α × Session} {m : Moment}
    (same : (f m.session).2 = m.session) : Does p (modifyGet f : Parse α) m []
  | write {α : Type} {f : Session → α × Session} {m : Moment} {d : Deed}
    (writing : d.isWriting = true) (fits : d.Fits p m)
    (same : (f m.session).2 = d.change m.session) : Does p (modifyGet f : Parse α) m [d]
  | bind {α β : Type} {x : Parse α} {f : α → Parse β} {m : Moment} {ds es : List Deed} {a : α}
    {s : Session} (first : Does p x m ds) (run : x.run.run m.session = (.ok a, s))
    (rest : Does p (f a) (m.past ds) es) : Does p (x >>= f) m (ds ++ es)
  | fail {α β : Type} {x : Parse α} {f : α → Parse β} {m : Moment} {ds : List Deed} {e : Failure}
    {s : Session} (first : Does p x m ds) (run : x.run.run m.session = (.error e, s)) :
    Does p (x >>= f) m ds
  /-- All attributes of a start tag have been bound. -/
  | bound {owner : Owner} {as : List Attribute} {t : StartTag} {m : Moment} {ds : List Deed}
    {bound : Bound} {s : Session} (binds : Does p (Builder.bind p owner as) m ds)
    (run : (Builder.bind p owner as).run.run m.session = (.ok bound, s))
    (fits : (Deed.bind t owner bound).Fits p (m.past ds)) :
    Does p (Builder.bind p owner as) m (ds ++ [.bind t owner bound])
  /-- A template is closed, with the nodes that stand in it. -/
  | template {b : Builder} {f : Frame} {h : TemplateHead} {m : Moment}
    (opened : f.opened = .template h)
    (fits : (Deed.addTemplate (.mk h f.body.children)).Fits p m) :
    Does p (b.attach f) m [.addTemplate (.mk h f.body.children)]

namespace Does

variable {p : Project} {α : Type} {x : Parse α} {m : Moment} {ds : List Deed}

/-- **The deeds lead to the session that the step leaves**, also when it fails. -/
theorem session_eq (h : Does p x m ds) : (m.past ds).session = (x.run.run m.session).2 := by
  induction h with
  | pure | throw => rfl
  | get _ ih => exact ih
  | still same => exact same.symm
  | write _ _ same => exact same.symm
  | bind _ run _ ih ih' =>
    rw [Moment.past_append, ih', ih, run_bind, run]
  | fail _ run ih => rw [ih, run_bind, run]
  | bound _ _ _ ih =>
    rw [Moment.past_append]
    exact ih
  | template opened _ =>
    unfold Builder.attach
    rw [opened]
    rfl

/-- The deeds of a step may be done one after the other. -/
theorem course (h : Does p x m ds) : Course p m ds := by
  induction h with
  | pure | throw | still => trivial
  | get _ ih => exact ih
  | write _ fits _ => exact ⟨fits, trivial⟩
  | bind _ _ _ ih ih' => exact course_append.2 ⟨ih, ih'⟩
  | fail _ _ ih => exact ih
  | bound _ _ fits ih => exact course_append.2 ⟨ih, fits, trivial⟩
  | template _ fits => exact ⟨fits, trivial⟩

end Does

namespace Project

/-- The moment before the first token of a file. -/
def beginning (p : Project) (path text : String) (registry : Registry) : Moment :=
  ⟨.start p.options (normalPath path) text (registry.addDefaults p.options), false⟩

/-- The deeds are the history of the parse of the file. -/
def History (p : Project) (path text : String) (registry : Registry) (ds : List Deed) : Prop :=
  Does p (parseFile p (includeDepth p (normalPath path) text) [] (normalPath path) text "ctrl"
    .none) (p.beginning path text registry) ds

/-- A history leads to the session at the end of the run. -/
theorem History.session_eq {p : Project} {path text : String} {registry : Registry}
    {ds : List Deed} (h : p.History path text registry ds) :
    ((p.beginning path text registry).past ds).session = (p.run path text registry).2 :=
  Does.session_eq h

end Project

end ServerMarkup
