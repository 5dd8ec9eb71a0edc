/-
# Calls that fail

A parse asks the resolver for types and members and reads files, and each of these calls can fail.
`Meets p x s c s'` says that the step `x`, run from the session `s`, comes to the call `c` in the
session `s'`.  A call that fails ends the run there, with the session it was made in (`Meets.run`),
and nothing else ends a run early: a step is `Told` if it has met a failing call whenever it fails,
and if all it does to a session besides is to go on from it (`Session.Onward`): the place of the file
stays, and no diagnostic is lost or says that the parse has failed.  All steps are told
(`told_parseFile`).
-/

import ServerMarkup.Proofs.Parse.Steps
import ServerMarkup.Proofs.Parse.Writing

namespace ServerMarkup

/-- What a parse asks of the resolver and the files. -/
inductive Call where
  | resolve (space name : String)
  | ask (q : Question)
  | read (path : String)
deriving DecidableEq, Repr

/-- Why the call fails, if it does. -/
def Project.failure? (p : Project) : Call → Option Failure
  | .resolve space name =>
    match p.resolver.resolve space name with
    | .ok _ => none
    | .error message => some (.resolver message)
  | .ask q => (p.resolver.breakdown q).map .resolver
  | .read path =>
    match p.files.read path with
    | .ok _ => none
    | .error reason => some (.unreadable path reason)

/-- The run of the step from the first session comes to the call, in the second session. -/
inductive Meets (p : Project) :
    {α : Type} → Parse α → Session → Call → Session → Prop where
  | resolve (space name : String) (s : Session) :
    Meets p (p.resolve space name) s (.resolve space name) s
  | ask (q : Question) (s : Session) : Meets p (p.ask q) s (.ask q) s
  | read (path : String) (s : Session) : Meets p (p.readFile path) s (.read path) s
  | first {α β : Type} {x : Parse α} (f : α → Parse β) {s c s'} (h : Meets p x s c s') :
    Meets p (x >>= f) s c s'
  | next {α β : Type} {x : Parse α} {f : α → Parse β} {s a s₁ c s'}
    (run : x.run.run s = (.ok a, s₁)) (h : Meets p (f a) s₁ c s') : Meets p (x >>= f) s c s'

/-- A call that fails ends the run, with the session it is made in. -/
theorem Meets.run {p : Project} {α : Type} {x : Parse α} {s s' : Session} {c : Call} {f : Failure}
    (h : Meets p x s c s') (fails : p.failure? c = some f) : x.run.run s = (.error f, s') := by
  induction h with
  | resolve space name s =>
    unfold Project.failure? at fails
    unfold Project.resolve
    cases hr : p.resolver.resolve space name with
    | ok type => simp [hr] at fails
    | error message =>
      obtain rfl : Failure.resolver message = f := by simpa [hr] using fails
      rfl
  | ask q s =>
    unfold Project.failure? at fails
    unfold Project.ask
    cases hq : p.resolver.breakdown q with
    | none => simp [hq] at fails
    | some message =>
      obtain rfl : Failure.resolver message = f := by simpa [hq] using fails
      rfl
  | read path s =>
    unfold Project.failure? at fails
    unfold Project.readFile
    cases hr : p.files.read path with
    | ok text => simp [hr] at fails
    | error reason =>
      obtain rfl : Failure.unreadable path reason = f := by simpa [hr] using fails
      rfl
  | first g h ih => rw [run_bind, ih fails]
  | next run h ih =>
    rw [run_bind, run]
    exact ih fails

/-! ### Sessions that go on -/

/-- The second session goes on from the first: it is for the same file, and has the diagnostics of
the first and others, of which none says that the parse has failed. -/
structure Session.Onward (s s' : Session) : Prop where
  span : s'.document.span = s.document.span
  diagnostics : ∃ ds, s'.diagnostics = s.diagnostics ++ ds ∧ ∀ d ∈ ds, d.code ≠ .parseFailure

namespace Session.Onward

/-- What keeps the place of the file and the diagnostics goes on from a session. -/
theorem of_eq {s s' : Session} (span : s'.document.span = s.document.span)
    (diagnostics : s'.diagnostics = s.diagnostics) : Onward s s' :=
  ⟨span, [], by rw [diagnostics, List.append_nil], nofun⟩

theorem refl (s : Session) : Onward s s :=
  of_eq rfl rfl

theorem trans {s s₁ s₂ : Session} (h : Onward s s₁) (h' : Onward s₁ s₂) : Onward s s₂ := by
  obtain ⟨span, ds, eq, codes⟩ := h
  obtain ⟨span', ds', eq', codes'⟩ := h'
  refine ⟨span'.trans span, ds ++ ds', by rw [eq', eq, List.append_assoc], ?_⟩
  rintro d mem
  exact (List.mem_append.1 mem).elim (codes d) (codes' d)

/-- A report that does not say that the parse has failed goes on from a session. -/
theorem report (s : Session) {code : DiagnosticCode} (h : code ≠ .parseFailure) (span : Span)
    (args : List String) : Onward s (s.report code span args) := by
  refine ⟨rfl, _, rfl, fun d mem => ?_⟩
  rw [List.mem_singleton] at mem
  exact mem ▸ h

end Session.Onward

/-! ### Steps -/

section
variable {p : Project} {α β : Type} {x : Parse α} {f : α → Parse β}

/-- When the step fails it has met a call that fails, and it goes on from each session. -/
structure Told (p : Project) (x : Parse α) : Prop where
  onward : Keeps Session.Onward x
  meets : ∀ s e s', x.run.run s = (.error e, s') → ∃ c, Meets p x s c s' ∧ p.failure? c = some e

namespace Told

theorem pure {a : α} : Told p (Pure.pure a) :=
  ⟨.refl, fun _ _ _ run => nomatch run⟩

theorem bind (hx : Told p x) (hf : ∀ a, Told p (f a)) : Told p (x >>= f) where
  onward := hx.onward.bind (fun _ _ _ => .trans) fun a => (hf a).onward
  meets s e s' run := by
    rw [run_bind] at run
    rcases hr : x.run.run s with ⟨_ | a, s₁⟩
    · rw [hr] at run
      cases run
      obtain ⟨c, met, fails⟩ := hx.meets s _ _ hr
      exact ⟨c, met.first f, fails⟩
    · rw [hr] at run
      obtain ⟨c, met, fails⟩ := (hf a).meets s₁ e s' run
      exact ⟨c, met.next hr, fails⟩

theorem get : Told p (get : Parse Session) :=
  ⟨.refl, fun _ _ _ run => nomatch run⟩

theorem modify {f : Session → Session} (h : ∀ s : Session, s.Onward (f s)) :
    Told p (modify f : Parse Unit) :=
  ⟨h, fun _ _ _ run => nomatch run⟩

theorem report {code : DiagnosticCode} (h : code ≠ .parseFailure) (span : Span)
    (args : List String) : Told p (report code span args) :=
  .modify fun s => .report s h span args

/-- Steps taken for one thing after another are told if each is. -/
theorem foldlM {γ : Type} {f : α → γ → Parse α} (h : ∀ a c, Told p (f a c)) (cs : List γ) (a : α) :
    Told p (cs.foldlM f a) := by
  induction cs generalizing a with
  | nil => exact .pure
  | cons c cs ih =>
    rw [List.foldlM_cons]
    exact (h a c).bind ih

end Told

end

/-! ### Questions -/

namespace Project

variable (p : Project)

/-- The question for a type can fail by its own call only. -/
theorem told_resolve (space name : String) : Told p (p.resolve space name) := by
  constructor
  · intro s
    unfold resolve
    split <;> exact .refl s
  · intro s e s' run
    refine ⟨.resolve space name, ?_⟩
    unfold resolve at run
    split at run
    · cases run
    · next message hr =>
      cases run
      exact ⟨.resolve space name s, by simp [failure?, hr]⟩

/-- A question can fail by its own call only. -/
theorem told_ask (q : Question) : Told p (p.ask q) := by
  constructor
  · intro s
    unfold ask
    split <;> exact .refl s
  · intro s e s' run
    refine ⟨.ask q, ?_⟩
    unfold ask at run
    split at run
    · cases run
    · next message hq =>
      cases run
      exact ⟨.ask q s, by simp [failure?, hq]⟩

/-- Reading a file can fail by its own call only. -/
theorem told_readFile (path : String) : Told p (p.readFile path) := by
  constructor
  · intro s
    unfold readFile
    split <;> exact .refl s
  · intro s e s' run
    refine ⟨.read path, ?_⟩
    unfold readFile at run
    split at run
    · cases run
    · next reason hr =>
      cases run
      exact ⟨.read path s, by simp [failure?, hr]⟩

end Project

/-- A step that only asks is told, unless it reports that the parse has failed. -/
theorem Asks.told {p : Project} {rs : List (DiagnosticCode × Span)} {α : Type} {x : Parse α}
    (h : Asks p rs x) (other : ∀ r ∈ rs, r.1 ≠ .parseFailure) : Told p x := by
  induction h with
  | pure a => exact .pure
  | resolve space name => exact p.told_resolve space name
  | ask q => exact p.told_ask q
  | read path => exact p.told_readFile path
  | names _ _ ih => exact Told.get.bind ih
  | report args mem => exact .report (other _ mem) _ args
  | bind _ _ ihx ihf => exact ihx.bind ihf

/-! ### Directives -/

/-- What a directive writes goes on from a session. -/
theorem Writes.onward {p : Project} {as : DirectiveAttributes} {main : Bool} {f : Session → Session}
    (h : Writes p as main f) (s : Session) : s.Onward (f s) := by
  cases h with
  | property base _ =>
    unfold Session.setPageProperty
    split
    · exact .refl s
    split
    · exact .of_eq rfl rfl
    · exact .report s (by decide) _ _
  | addImport value =>
    refine .of_eq ?_ rfl
    unfold Session.withDocument Document.addImport
    dsimp only
    split <;> rfl
  | _ => exact .of_eq rfl rfl

/-- Acting on a directive fails by a call only. -/
theorem Acts.told {p : Project} {as : DirectiveAttributes} {span : Span} {main : Bool} {α : Type}
    {x : Parse α} (h : Acts p as span main x) : Told p x := by
  induction h with
  | asks h =>
    refine h.told (DirectiveAttributes.forall_reports (C := fun c _ => c ≠ .parseFailure)
      (by decide) fun _ _ => ?_)
    exact ⟨by decide, by decide⟩
  | write h => exact .modify h.onward
  | reads _ _ ih => exact Told.get.bind ih
  | bind _ _ ihx ihf => exact ihx.bind ihf

/-! ### Tags -/

/-- Binding an attribute goes on from a session. -/
theorem Session.onward_bindAttribute (r : TypeResolver) (owner : Owner) (s : Session) (b : Bound)
    (a : Attribute) : s.Onward (bindAttribute r owner s b a).1 := by
  unfold bindAttribute
  split
  · exact .refl s
  · exact .refl s
  · dsimp only
    unfold declareField
    split
    · exact .refl s
    split
    · exact .report s (by decide) _ _
    · exact .of_eq rfl rfl
  · dsimp only
    split
    · exact .report s (by decide) _ _
    · exact .refl s

namespace Builder

variable {p : Project} (b : Builder)

/-- Binding an attribute fails by a call only. -/
theorem told_bindOne (owner : Owner) (bound : Bound) (a : Attribute) :
    Told p (bindOne p owner bound a) := by
  refine Told.get.bind fun s => ((p.asks_askAll _).told nofun).bind fun _ => ?_
  exact ⟨fun s => s.onward_bindAttribute p.resolver owner bound a, fun _ _ _ run => nomatch run⟩

theorem told_bind (owner : Owner) (as : List Attribute) : Told p (bind p owner as) :=
  .foldlM (told_bindOne owner) as .start

theorem told_attach (f : Frame) : Told p (b.attach f) := by
  unfold attach
  split
  · exact .pure
  · exact .pure
  · exact .pure
  · exact Told.bind (.modify fun _ => .of_eq rfl rfl) fun _ => .pure

theorem told_enter (hasContent : Bool) (f : Frame) : Told p (b.enter hasContent f) := by
  unfold enter
  split
  · exact .pure
  · exact b.told_attach f

theorem told_closeFrame (stop : Position) : Told p (b.closeFrame stop) := by
  unfold closeFrame
  split
  · exact .pure
  · exact told_attach _ _

theorem told_closeFrames (stop : Position) (frames : List Frame) :
    Told p (closeFrames stop frames b) := by
  induction frames generalizing b with
  | nil => exact .pure
  | cons f frames ih => exact (b.told_closeFrame stop).bind ih

theorem told_addScript (script : OpenScript) (stop : Position) : Told p (addScript script stop) :=
  .modify fun _ => .of_eq rfl rfl

theorem told_openTag (t : StartTag) : Told p (b.openTag p t) := by
  refine ((p.asks_askAll _).told nofun).bind fun _ => ?_
  unfold openAs
  dsimp only
  split
  · exact told_enter _ _ _
  · exact (told_bind _ _).bind fun _ => told_enter _ _ _
  · split
    · unfold openScript
      dsimp only
      split
      · exact .pure
      · exact (told_addScript _ _).bind fun _ => .pure
    split
    · have asks := (p.asks_controlType t.tag t.attributes).told (by simp [Project.unknownControl])
      exact asks.bind fun _ => (told_bind _ _).bind fun _ => told_enter _ _ _
    · exact told_enter _ _ _

theorem told_closeTag (tag : TagName) (stop : Position) : Told p (b.closeTag tag stop) := by
  unfold closeTag
  split
  · exact .pure
  · dsimp only
    split
    · exact b.told_closeFrame stop
    · exact (Told.report (by decide) _ _).bind fun _ => b.told_closeFrame stop

theorem told_scriptItem (script : OpenScript) (item : Item) (stop : Position) :
    Told p (b.scriptItem script item stop) := by
  unfold scriptItem
  split
  · exact (told_addScript _ _).bind fun _ => .pure
  · exact .pure

theorem told_finish (stop : Position) : Told p (b.finish stop) := by
  unfold finish
  split
  · exact (told_addScript _ _).bind fun _ => (b.told_closeFrames stop _).bind fun _ => .pure
  · exact (b.told_closeFrames stop _).bind fun _ => .pure

end Builder

/-! ### Files -/

section
variable {p : Project} {parsing : List String} {nested : Nested}

/-- Including a file is told if parsing it is. -/
theorem told_includeFile (hn : ∀ path text var outer, Told p (nested path text var outer))
    (b : Builder) (reference : String) (span : Span) :
    Told p (includeFile p parsing nested b reference span) := by
  unfold includeFile
  dsimp only
  split
  · exact (Told.report (by decide) _ _).bind fun _ => .pure
  split
  · exact (Told.report (by decide) _ _).bind fun _ => .pure
  · refine ((p.asks_readFile _).told nofun).bind fun text => ?_
    refine Told.bind (.modify fun _ => .of_eq ?_ rfl) fun _ => (hn _ _ _ _).bind fun _ => .pure
    unfold Session.withDocument Document.addInclude
    dsimp only
    split <;> rfl

/-- Building an item is told if parsing the files that it includes is. -/
theorem told_buildItem (hn : ∀ path text var outer, Told p (nested path text var outer))
    (b : Builder) (item : Item) : Told p (buildItem p parsing nested b item) := by
  unfold buildItem
  dsimp only
  split
  · exact b.told_scriptItem _ item _
  split
  · exact .pure
  · exact .pure
  · split
    · exact told_includeFile hn b _ _
    · exact .pure
  · exact (p.acts_direct _ _ _ _).told.bind fun _ => .pure
  · exact b.told_openTag _
  · exact b.told_closeTag _ _
  · exact .pure

end

/-- Every step of a parse is told, at any depth of included files. -/
theorem told_parseFile (p : Project) (depth : Nat) (parsing : List String)
    (path text var : String) (outer : Outer) :
    Told p (parseFile p depth parsing path text var outer) := by
  induction depth generalizing parsing path text var outer with
  | zero => exact .pure
  | succ depth ih =>
    exact (Told.foldlM (told_buildItem (ih (path :: parsing))) _ _).bind fun b => b.told_finish _

end ServerMarkup
