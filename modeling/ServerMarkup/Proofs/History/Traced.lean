/-
# Steps that have a history

`Traced p C E x Q` says that the step `x` has a history from each moment with `C`, and that it ends
at a moment with `E` if it does not fail; of its deeds and of what it returns `Q` is known.  All
steps but those of the builder have such a history by deeds of writing alone.

| step | begins and ends |
| --- | --- |
| resolving a type, reading a file | anywhere, by `Asks.traced` |
| acting on a directive | between directives, by `Project.traced_direct` |
| binding the attributes of a start tag | between directives, by `Builder.traced_bind` |
-/

import ServerMarkup.Proofs.History.Deeds
import ServerMarkup.Proofs.Parse.Writing

namespace ServerMarkup

/-- All deeds are deeds of writing. -/
def Writings (ds : List Deed) : Prop :=
  ∀ d ∈ ds, d.isWriting = true

theorem Writings.append {ds es : List Deed} (h : Writings ds) (k : Writings es) :
    Writings (ds ++ es) :=
  List.forall_mem_append.2 ⟨h, k⟩

/-- From each moment with `C` the step does some deeds, and if it does not fail it is the moment
`E` after them, and `Q` holds of the deeds and of what the step returns. -/
def Traced (p : Project) (C E : Moment → Prop) {α : Type} (x : Parse α)
    (Q : List Deed → α → Prop) : Prop :=
  ∀ m, C m → ∃ ds, Does p x m ds ∧
    ∀ a s, x.run.run m.session = (.ok a, s) → E (m.past ds) ∧ Q ds a

section
variable {p : Project} {C D E : Moment → Prop} {α β : Type} {x : Parse α} {f : α → Parse β}
  {Q : List Deed → α → Prop} {R : List Deed → β → Prop}

namespace Traced

theorem pure {a : α} (h : Q [] a) : Traced p C C (Pure.pure a) Q := by
  refine fun m hm => ⟨[], .pure a m, ?_⟩
  rintro b s run
  cases run
  exact ⟨hm, h⟩

theorem throw {e : Failure} : Traced p C E (throw e : Parse α) Q :=
  fun m _ => ⟨[], .throw e m, fun _ _ run => nomatch run⟩

/-- A step may read the session of the moment. -/
theorem get_bind {f : Session → Parse β} (h : ∀ m, C m → Traced p (· = m) E (f m.session) R) :
    Traced p C E (get >>= f) R := by
  intro m hm
  obtain ⟨ds, does, ends⟩ := h m hm m rfl
  exact ⟨ds, .get does, ends⟩

theorem bind (hx : Traced p C D x Q)
    (hf : ∀ ds a, Q ds a → Traced p D E (f a) fun es b => R (ds ++ es) b) :
    Traced p C E (x >>= f) R := by
  intro m hm
  obtain ⟨ds, does, ends⟩ := hx m hm
  rcases run : x.run.run m.session with ⟨e | a, s⟩
  · refine ⟨ds, .fail does run, fun b s' run' => ?_⟩
    rw [run_bind, run] at run'
    cases run'
  · obtain ⟨here, known⟩ := ends a s run
    obtain ⟨es, does', ends'⟩ := hf ds a known _ here
    refine ⟨ds ++ es, .bind does run does', fun b s' run' => ?_⟩
    have session : (m.past ds).session = s := by rw [does.session_eq, run]
    rw [run_bind, run] at run'
    rw [Moment.past_append]
    exact ends' b s' (by rwa [session])

theorem mono {Q' : List Deed → α → Prop} (h : Traced p C E x Q) (hQ : ∀ ds a, Q ds a → Q' ds a) :
    Traced p C E x Q' := by
  intro m hm
  obtain ⟨ds, does, ends⟩ := h m hm
  exact ⟨ds, does, fun a s run => ⟨(ends a s run).1, hQ ds a (ends a s run).2⟩⟩

/-- A step that has a history from some moments has it from fewer. -/
theorem from_of {C₀ : Moment → Prop} (h : Traced p C E x Q) (hC : ∀ m, C₀ m → C m) :
    Traced p C₀ E x Q :=
  fun m hm => h m (hC m hm)

/-- What is known of all that the step returns. -/
theorem and_gives {P : α → Prop} (h : Traced p C E x Q) (gives : Gives x P) :
    Traced p C E x fun ds a => Q ds a ∧ P a := by
  intro m hm
  obtain ⟨ds, does, ends⟩ := h m hm
  exact ⟨ds, does, fun a s run => ⟨(ends a s run).1, (ends a s run).2, gives _ a s run⟩⟩

/-- Steps by writing alone, one after the other. -/
theorem then_writings (hx : Traced p C D x fun ds _ => Writings ds)
    (hf : ∀ a, Traced p D E (f a) fun ds _ => Writings ds) :
    Traced p C E (x >>= f) fun ds _ => Writings ds :=
  hx.bind fun _ a written => (hf a).mono fun _ _ => written.append

/-- The session is left as it is, or changed by one deed of writing. -/
theorem changes {f : Session → α × Session} (h : ∀ m, C m →
    ((f m.session).2 = m.session ∧ E m ∧ Q [] (f m.session).1) ∨
      ∃ d : Deed, d.isWriting = true ∧ d.Fits p m ∧ (f m.session).2 = d.change m.session ∧
        E (m.after d) ∧ Q [d] (f m.session).1) :
    Traced p C E (modifyGet f) Q := by
  intro m hm
  have gives : (modifyGet f : Parse α).run.run m.session =
      (.ok (f m.session).1, (f m.session).2) := rfl
  obtain ⟨same, ends, known⟩ | ⟨d, writing, fits, change, ends, known⟩ := h m hm
  · refine ⟨[], .still same, fun a s run => ?_⟩
    rw [gives] at run
    cases run
    exact ⟨ends, known⟩
  · refine ⟨[d], .write writing fits change, fun a s run => ?_⟩
    rw [gives] at run
    cases run
    exact ⟨ends, known⟩

/-- The session is changed by one deed of writing. -/
theorem writes {f : Session → Session} {Q : List Deed → Unit → Prop} (d : Deed)
    (writing : d.isWriting = true) (change : ∀ s, f s = d.change s) (fits : ∀ m, C m → d.Fits p m)
    (ends : ∀ m, C m → E (m.after d)) (known : Q [d] ()) : Traced p C E (modify f) Q :=
  changes (f := fun s => ((), f s)) fun m hm =>
    .inr ⟨d, writing, fits m hm, change _, ends m hm, known⟩

end Traced

end

/-! ### Moments -/

namespace Moment

/-- Between directives a deed that is none of a main directive leaves it so. -/
theorem Steady.after {m : Moment} {d : Deed} (h : m.Steady)
    (same : (d.change m.session).described = m.session.described) (other : d.settles = false) :
    (m.after d).Steady := by
  rw [Steady, Moment.after, other, Bool.or_false]
  exact same.trans h

theorem Acting.after {m : Moment} {d : Deed} (h : m.Acting)
    (same : (d.change m.session).described = m.session.described) (other : d.settles = false) :
    (m.after d).Acting := by
  rw [Acting, Moment.after, other, Bool.or_false]
  exact ⟨same.trans h.1, h.2⟩

end Moment

/-- A step that only asks has a history of reports. -/
theorem Asks.traced {p : Project} {rs : List (DiagnosticCode × Span)} {α : Type} {x : Parse α}
    {C : Moment → Prop} (h : Asks p rs x)
    (stable : ∀ r ∈ rs, ∀ args m, C m → C (m.after (.report ⟨r.1, r.2, args⟩))) :
    Traced p C C x fun ds _ => Writings ds := by
  refine h.induct (C := fun x => Traced p C C x fun ds _ => Writings ds)
    (fun _ => .pure (List.forall_mem_nil _)) (fun _ => .throw) (fun f _ hf => ?_)
    (fun r mem args => ?_) fun x f hx hf => hx.then_writings hf
  · exact .get_bind fun m hm => (hf m.session).from_of fun m' same => same ▸ hm
  · exact .writes (.report ⟨r.1, r.2, args⟩) rfl (fun _ => rfl) (fun _ _ => trivial)
      (stable r mem args) (List.forall_mem_singleton.2 rfl)

section
variable {p : Project} {rs : List (DiagnosticCode × Span)} {α : Type} {x : Parse α}

theorem Asks.traced_steady (h : Asks p rs x) :
    Traced p Moment.Steady Moment.Steady x fun ds _ => Writings ds :=
  h.traced fun _ _ _ _ steady => steady.after rfl rfl

theorem Asks.traced_acting (h : Asks p rs x) :
    Traced p Moment.Acting Moment.Acting x fun ds _ => Writings ds :=
  h.traced fun _ _ _ _ acting => acting.after rfl rfl

end

/-! ### Directives -/

namespace Project

variable (p : Project)

/-- What a main directive says is written while it is acted on. -/
theorem traced_say {f : Session → Session} (d : Deed) (said : ∀ m : Moment, m.Acting → d.Fits p m)
    (writing : d.isWriting = true) (change : ∀ s, f s = d.change s)
    (same : ∀ s, (d.change s).described = s.described) (other : d.settles = false) :
    Traced p Moment.Acting Moment.Acting (modify f) fun ds _ => Writings ds :=
  .writes d writing change said (fun m acting => acting.after (same m.session) other)
    (List.forall_mem_singleton.2 writing)

theorem traced_inheritedType (kind : DirectiveKind) (as : DirectiveAttributes) :
    Traced p Moment.Acting Moment.Acting (p.inheritedType kind as) fun ds _ => Writings ds := by
  have none : Writings [] := List.forall_mem_nil _
  unfold inheritedType
  split
  · next name named =>
    refine (p.asks_resolveName _).traced_acting.then_writings fun type => ?_
    split
    · next type =>
      dsimp only
      split
      · exact .pure none
      · have space : Traced p Moment.Acting Moment.Acting
            (modify (·.withDocument fun d => { d with space := some type.space }))
            fun ds _ => Writings ds :=
          p.traced_say (.space type.space) (fun _ h => h) rfl (fun _ => rfl) (fun _ => rfl) rfl
        exact space.then_writings fun _ => .pure none
    · have told : Traced p Moment.Acting Moment.Acting
          (report .inheritNotFound name.span [name.value]) fun ds _ => Writings ds :=
        p.traced_say (.report _) (fun _ _ => trivial) rfl (fun _ => rfl) (fun _ => rfl) rfl
      exact told.then_writings fun _ => .pure none
  · exact .pure none

/-- An attribute of the main directive is left aside, sets a property or is reported. -/
theorem traced_setPageProperty (base : TypeRef) (a : Excerpt × Excerpt) :
    Traced p Moment.Acting Moment.Acting (modify (·.setPageProperty p.resolver base a))
      fun ds _ => Writings ds := by
  refine .changes (f := fun s => ((), s.setPageProperty p.resolver base a)) fun m acting => ?_
  dsimp only
  unfold Session.setPageProperty
  split
  · exact .inl ⟨rfl, acting, List.forall_mem_nil _⟩
  split
  · exact .inr ⟨.property _, rfl, acting, rfl, acting.after rfl rfl,
      List.forall_mem_singleton.2 rfl⟩
  · exact .inr ⟨.report _, rfl, trivial, rfl, acting.after rfl rfl, List.forall_mem_singleton.2 rfl⟩

theorem traced_setPageProperties (base : TypeRef) (as : DirectiveAttributes) :
    Traced p Moment.Acting Moment.Acting (p.setPageProperties base as)
      fun ds _ => Writings ds := by
  induction as with
  | nil => exact .pure (List.forall_mem_nil _)
  | cons a as ih =>
    refine (p.asks_askAll _).traced_acting.then_writings fun _ => ?_
    exact (p.traced_setPageProperty base a).then_writings fun _ => ih

/-- The first main directive is acted on from `describe` to `inherit`. -/
theorem traced_describe (kind : DirectiveKind) (as : DirectiveAttributes) :
    Traced p (fun m => m.Steady ∧ m.session.described = false) Moment.Steady (p.describe kind as)
      fun ds _ => Writings ds := by
  have ends (base : Option TypeRef) : Traced p Moment.Acting Moment.Steady
      (modify (·.withDocument fun d => { d with inherits := base })) fun ds _ => Writings ds := by
    refine .writes (.inherit base) rfl (fun _ => rfl) (fun _ h => h) (fun m acting => ?_)
      (List.forall_mem_singleton.2 rfl)
    exact acting.1.trans (Bool.or_true _).symm
  unfold describe
  refine Traced.then_writings (D := Moment.Acting) ?_ fun _ => ?_
  · refine .writes .describe rfl (fun _ => rfl) (fun _ h => h.2) (fun m ⟨steady, fresh⟩ => ?_)
      (List.forall_mem_singleton.2 rfl)
    exact ⟨rfl, (Bool.or_false _).trans (steady.symm.trans fresh)⟩
  extract_lets rest
  have onward : ∀ u, Traced p Moment.Acting Moment.Steady (rest u) fun ds _ => Writings ds := by
    intro u
    refine (p.traced_inheritedType kind as).then_writings fun base => ?_
    split
    · exact (p.traced_setPageProperties _ as).then_writings fun _ => ends _
    · exact ends _
  split
  · next language _ =>
    have said : Traced p Moment.Acting Moment.Acting
        (modify (·.withDocument fun d => { d with language := some language.value }))
        fun ds _ => Writings ds :=
      p.traced_say (.language language.value) (fun _ h => h) rfl (fun _ => rfl) (fun _ => rfl) rfl
    exact said.then_writings onward
  · exact onward ()

/-- A directive that is no main one writes between directives. -/
theorem traced_note {f : Session → Session} (d : Deed)
    (fits : ∀ m : Moment, m.Steady → d.Fits p m) (writing : d.isWriting = true)
    (change : ∀ s, f s = d.change s) (same : ∀ s, (d.change s).described = s.described)
    (other : d.settles = false) :
    Traced p Moment.Steady Moment.Steady (modify f) fun ds _ => Writings ds :=
  .writes d writing change fits (fun m steady => steady.after (same m.session) other)
    (List.forall_mem_singleton.2 writing)

theorem traced_report (code : DiagnosticCode) (span : Span) (args : List String) :
    Traced p Moment.Steady Moment.Steady (report code span args) fun ds _ => Writings ds :=
  p.traced_note (.report ⟨code, span, args⟩) (fun _ _ => trivial) rfl (fun _ => rfl)
    (fun _ => rfl) rfl

theorem traced_register (file : String) (as : DirectiveAttributes) (span : Span) :
    Traced p Moment.Steady Moment.Steady (p.register file as span) fun ds _ => Writings ds := by
  unfold register
  split
  · next tagPrefix _ =>
    dsimp only
    split
    · next space _ =>
      exact p.traced_note (.addNamespace _ (trimmed space.value)) (fun _ h => h) rfl
        (fun _ => rfl) (fun _ => rfl) rfl
    · next name src _ _ _ =>
      refine (p.asks_userControl _).traced_steady.then_writings fun type => ?_
      split
      · exact p.traced_report _ _ _
      · next type =>
        refine .get_bind fun m steady => ?_
        split
        · next registry added =>
          refine .changes (f := fun s => ((), { s with registry })) ?_
          rintro _ rfl
          refine .inr ⟨.addControl (trimmed tagPrefix.value) (trimmed name.value) type, rfl,
            steady, ?_, steady.after rfl rfl, List.forall_mem_singleton.2 rfl⟩
          rw [Deed.change, added]
          rfl
        · exact (p.traced_report _ _ _).from_of fun m' same => same ▸ steady
    · exact .pure (List.forall_mem_nil _)
  · exact .pure (List.forall_mem_nil _)

/-- Acting on a directive begins and ends between directives. -/
theorem traced_direct (file : String) (kind : DirectiveKind) (as : DirectiveAttributes)
    (span : Span) :
    Traced p Moment.Steady Moment.Steady (p.direct file kind as span) fun ds _ => Writings ds := by
  unfold direct
  split
  · refine .get_bind fun m steady => ?_
    split
    · exact (Traced.pure (List.forall_mem_nil _)).from_of fun m' same => same ▸ steady
    · next fresh =>
      refine (p.traced_describe kind as).from_of fun m' same => ?_
      exact same ▸ ⟨steady, Bool.eq_false_iff.2 fresh⟩
  split
  · exact p.traced_register file as span
  split
  · split
    · next space _ =>
      exact p.traced_note (.addImport (trimmed space.value)) (fun _ h => h) rfl (fun _ => rfl)
        (fun s => by rw [Deed.change, Session.withDocument]) rfl
    · exact .pure (List.forall_mem_nil _)
  · exact .pure (List.forall_mem_nil _)

end Project

/-! ### Attributes -/

namespace Builder

variable (p : Project)

/-- An attribute declares a field, is reported, or changes nothing but its node. -/
theorem bindAttribute_fst (r : TypeResolver) (owner : Owner) (s : Session) (bound : Bound)
    (a : Attribute) : (bindAttribute r owner s bound a).1 = s ∨
      (∃ field, (bindAttribute r owner s bound a).1 = (Deed.declare field).change s) ∨
        ∃ problem, (bindAttribute r owner s bound a).1 = (Deed.report problem).change s := by
  unfold bindAttribute
  split
  · exact .inl rfl
  · exact .inl rfl
  · dsimp only
    split
    · exact .inl rfl
    unfold Session.declareField
    split
    · exact .inr (.inr ⟨_, rfl⟩)
    · exact .inr (.inl ⟨_, rfl⟩)
  · dsimp only
    split
    · exact .inr (.inr ⟨_, rfl⟩)
    · exact .inl rfl

theorem traced_bindOne (owner : Owner) (bound : Bound) (a : Attribute) :
    Traced p Moment.Steady Moment.Steady (bindOne p owner bound a) fun ds _ => Writings ds := by
  refine .get_bind fun m steady => ?_
  refine Traced.then_writings (D := (· = m)) ((p.asks_askAll _).traced nofun) fun _ => ?_
  refine .changes fun m' same => ?_
  subst same
  dsimp only
  obtain same | ⟨field, declares⟩ | ⟨problem, told⟩ :=
    bindAttribute_fst p.resolver owner m'.session bound a
  · exact .inl ⟨same, steady, List.forall_mem_nil _⟩
  · exact .inr ⟨.declare field, rfl, steady, declares, steady.after rfl rfl,
      List.forall_mem_singleton.2 rfl⟩
  · exact .inr ⟨.report problem, rfl, trivial, told, steady.after rfl rfl,
      List.forall_mem_singleton.2 rfl⟩

theorem traced_writings_bind (owner : Owner) (as : List Attribute) :
    Traced p Moment.Steady Moment.Steady (bind p owner as) fun ds _ => Writings ds := by
  unfold bind
  generalize Bound.start = bound
  induction as generalizing bound with
  | nil => exact .pure (List.forall_mem_nil _)
  | cons a as ih =>
    rw [List.foldlM_cons]
    exact (traced_bindOne p owner bound a).then_writings ih

/-- **The attributes of a start tag are bound by deeds of writing**, and then are bound. -/
theorem traced_bind {t : StartTag} {as : List Attribute} (owner : Owner)
    (leaves : Leaves t.attributes as) :
    Traced p Moment.Steady Moment.Steady (bind p owner as) fun ds bound =>
      ∃ es, Writings es ∧ ds = es ++ [.bind t owner bound] := by
  intro m steady
  obtain ⟨ds, does, ends⟩ := traced_writings_bind p owner as m steady
  rcases run : (bind p owner as).run.run m.session with ⟨e | bound, s⟩
  · exact ⟨ds, does, fun _ _ none => nomatch none⟩
  · obtain ⟨steady', written⟩ := ends bound s run
    have session : (m.past ds).session = s := by rw [does.session_eq, run]
    have binds : bindAttributes p.resolver owner m.session as = ((m.past ds).session, bound) := by
      rw [session]
      exact bindAttributes_of_run run
    refine ⟨_, .bound does run ⟨steady', as, m.session, leaves, binds⟩, fun bound' s' same => ?_⟩
    cases same
    rw [Moment.past_append]
    exact ⟨steady'.after rfl rfl, ds, written, rfl⟩

end Builder

end ServerMarkup
