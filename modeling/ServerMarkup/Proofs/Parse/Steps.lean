/-
# What a step of a parse does

A step of a parse changes the session and may fail.  `Gives x P` says that what `x` returns has the
property `P`, and `Keeps R x` that the session it leaves is related to the one it found, whether it
fails or not.  So is `Quiet x`: it reports no closing tag that does not fit.  Only closing a tag
reports such a problem (`Builder.closeTag`): what the other steps do to a session leaves these
reports as they are.
-/

import ServerMarkup.Parse.File

namespace ServerMarkup

/-- The reports of closing tags that do not fit. -/
def Session.mismatches (s : Session) : List Diagnostic :=
  s.diagnostics.filter (·.code == .unexpectedClosingTag)

section
variable {α β : Type} {P : α → Prop} {Q : β → Prop} {x : Parse α} {f : α → Parse β}

/-- What the step returns has the property. -/
def Gives (x : Parse α) (P : α → Prop) : Prop :=
  ∀ s a s', x.run.run s = (.ok a, s') → P a

/-- The step reports no closing tag that does not fit. -/
def Quiet (x : Parse α) : Prop :=
  ∀ s, (x.run.run s).2.mismatches = s.mismatches

/-- The step leaves each session as one that is related to it. -/
def Keeps (R : Session → Session → Prop) (x : Parse α) : Prop :=
  ∀ s, R s (x.run.run s).2

/-- Two steps one after the other. -/
theorem run_bind (x : Parse α) (f : α → Parse β) (s : Session) :
    (x >>= f).run.run s = match x.run.run s with
      | (.ok a, s') => (f a).run.run s'
      | (.error e, s') => (.error e, s') := by
  simp only [ExceptT.run_bind, StateT.run_bind]
  rcases x.run.run s with ⟨_ | _, _⟩ <;> rfl

theorem Keeps.bind {R : Session → Session → Prop} (trans : ∀ s s₁ s₂, R s s₁ → R s₁ s₂ → R s s₂)
    (hx : Keeps R x) (hf : ∀ a, Keeps R (f a)) : Keeps R (x >>= f) := by
  intro s
  have first := hx s
  rw [run_bind]
  rcases hr : x.run.run s with ⟨_ | a, s₁⟩
  · rwa [hr] at first
  · rw [hr] at first
    exact trans s s₁ _ first (hf a s₁)

namespace Gives

theorem pure {a : α} (h : P a) : Gives (Pure.pure a) P := by
  rintro s b s' hr
  cases hr
  exact h

theorem bind (hx : Gives x P) (hf : ∀ a, P a → Gives (f a) Q) : Gives (x >>= f) Q := by
  intro s b s' hr
  rw [run_bind] at hr
  rcases hx' : x.run.run s with ⟨_ | a, s₁⟩
  · rw [hx'] at hr
    cases hr
  · rw [hx'] at hr
    exact hf a (hx s a s₁ hx') s₁ b s' hr

/-- Nothing need be known of the first step. -/
theorem after (hf : ∀ a, Gives (f a) Q) : Gives (x >>= f) Q :=
  bind (P := fun _ => True) (fun _ _ _ _ => trivial) fun a _ => hf a

theorem mono {P' : α → Prop} (h : Gives x P) (hP : ∀ a, P a → P' a) : Gives x P' :=
  fun s a s' hr => hP a (h s a s' hr)

end Gives

namespace Quiet

theorem pure {a : α} : Quiet (Pure.pure a) :=
  fun _ => rfl

theorem bind (hx : Quiet x) (hf : ∀ a, Quiet (f a)) : Quiet (x >>= f) :=
  Keeps.bind (R := fun s s' => s'.mismatches = s.mismatches) (fun _ _ _ h k => k.trans h) hx hf

theorem throw {e : Failure} : Quiet (throw e : Parse α) :=
  fun _ => rfl

theorem get : Quiet (get : Parse Session) :=
  fun _ => rfl

theorem modify {f : Session → Session} (h : ∀ s, (f s).mismatches = s.mismatches) :
    Quiet (modify f : Parse Unit) :=
  h

end Quiet

end

/-! ### Sessions -/

namespace Session

theorem mismatches_report (s : Session) (code : DiagnosticCode) (span : Span)
    (args : List String) : (s.report code span args).mismatches =
      s.mismatches ++ if code = .unexpectedClosingTag then [⟨code, span, args⟩] else [] := by
  by_cases h : code = .unexpectedClosingTag <;>
    simp [mismatches, report, List.filter_append, h]

theorem mismatches_report_of_ne (s : Session) {code : DiagnosticCode} (span : Span)
    (args : List String) (h : code ≠ .unexpectedClosingTag) :
    (s.report code span args).mismatches = s.mismatches := by
  rw [mismatches_report, if_neg h, List.append_nil]

theorem mismatches_declareField (s : Session) (type : TypeRef) (id : Excerpt) :
    (s.declareField type id).1.mismatches = s.mismatches := by
  unfold declareField
  split
  · exact s.mismatches_report_of_ne _ _ (by decide)
  · rfl

theorem mismatches_bindAttribute (r : TypeResolver) (owner : Owner) (s : Session) (b : Bound)
    (a : Attribute) : (bindAttribute r owner s b a).1.mismatches = s.mismatches := by
  unfold bindAttribute
  split
  · rfl
  · rfl
  · dsimp only
    split
    · rfl
    · exact s.mismatches_declareField _ _
  · dsimp only
    split
    · exact s.mismatches_report_of_ne _ _ (by decide)
    · rfl

theorem mismatches_setPageProperty (s : Session) (r : TypeResolver) (base : TypeRef)
    (a : Excerpt × Excerpt) : (s.setPageProperty r base a).mismatches = s.mismatches := by
  unfold setPageProperty
  split
  · rfl
  split
  · rfl
  · exact s.mismatches_report_of_ne _ _ (by decide)

end Session

/-! ### Questions -/

namespace Project

variable (p : Project)

/-- Questions have the same answer in every session, and leave it as it is. -/
theorem exists_run_ask (q : Question) : ∃ result, ∀ s, (p.ask q).run.run s = (result, s) := by
  unfold ask
  split
  · exact ⟨_, fun _ => rfl⟩
  · exact ⟨_, fun _ => rfl⟩

theorem exists_run_askAll (qs : List Question) :
    ∃ result, ∀ s, (p.askAll qs).run.run s = (result, s) := by
  induction qs with
  | nil => exact ⟨_, fun _ => rfl⟩
  | cons q qs ih =>
    obtain ⟨first, run⟩ := p.exists_run_ask q
    obtain ⟨rest, run'⟩ := ih
    cases first with
    | error e => exact ⟨.error e, fun s => by rw [askAll, run_bind, run]⟩
    | ok _ => exact ⟨rest, fun s => by rw [askAll, run_bind, run]; exact run' s⟩

end Project

/-- What is left to bind of the attributes of a tag: an `ItemType` may have given the type its
argument. -/
def Leaves (as rest : List Attribute) : Prop :=
  rest = as ∨ rest = as.eraseP (·.name.isNamed "itemtype")

/-- An `ItemType` that has given a control its type takes nothing away that is found in others. -/
theorem Leaves.filterMap_eq {α : Type} {as rest : List Attribute} {f : Attribute → Option α}
    (h : Leaves as rest) (none : ∀ a : Attribute, a.name.isNamed "itemtype" = true → f a = none) :
    rest.filterMap f = as.filterMap f := by
  obtain rfl | rfl := h
  · rfl
  induction as with
  | nil => rfl
  | cons a as ih =>
    by_cases h : a.name.isNamed "itemtype" = true
    · rw [List.eraseP_cons, h, cond_true, List.filterMap_cons, none a h]
    · rw [List.eraseP_cons, Bool.eq_false_iff.2 h, cond_false, List.filterMap_cons, ih,
        List.filterMap_cons]

/-- Finding the type of a control leaves its attributes to bind, but for an `ItemType`. -/
theorem leaves_controlType (p : Project) (tag : TagName) (as : List Attribute) :
    Gives (p.controlType tag as) fun x => Leaves as x.2 := by
  have all : Leaves as as := .inl rfl
  have generic : Gives (p.genericHtmlControl >>= fun type => pure (type, as))
      fun x => Leaves as x.2 := .after fun _ => .pure all
  unfold Project.controlType
  split
  · exact .after fun _ => .pure all
  · refine .after fun s => ?_
    dsimp only
    split
    · exact .pure all
    split
    · exact .after fun _ => generic
    · refine .after fun item => .after fun _ => ?_
      split
      · exact .pure (.inr rfl)
      · refine .after fun type => ?_
        split
        · exact .pure all
        · exact .after fun _ => generic

namespace Builder

variable {p : Project} {owner : Owner} {s s' : Session} {bound bound' : Bound}

/-- An attribute is bound, or one of its questions has no answer. -/
theorem run_bindOne (p : Project) (owner : Owner) (bound : Bound) (a : Attribute) (s : Session) :
    (bindOne p owner bound a).run.run s =
      match (p.askAll (Effect.questions p.resolver s.document owner bound.children a)).run.run s with
      | (.ok _, s') => (.ok (bindAttribute p.resolver owner s' bound a).2,
          (bindAttribute p.resolver owner s' bound a).1)
      | (.error e, s') => (.error e, s') := by
  have got : (get : Parse Session).run.run s = (.ok s, s) := rfl
  unfold bindOne
  rw [run_bind, got]
  dsimp only
  rw [run_bind]
  rcases (p.askAll _).run.run s with ⟨_ | _, _⟩ <;> rfl

theorem bindAttribute_of_run {a : Attribute}
    (run : (bindOne p owner bound a).run.run s = (.ok bound', s')) :
    bindAttribute p.resolver owner s bound a = (s', bound') := by
  obtain ⟨result, asked⟩ :=
    p.exists_run_askAll (Effect.questions p.resolver s.document owner bound.children a)
  rw [run_bindOne, asked] at run
  cases result with
  | error e => cases run
  | ok _ =>
    cases run
    rfl

/-- When all questions are answered, the attributes are bound one after the other. -/
theorem bindAttributes_of_run {as : List Attribute}
    (run : (bind p owner as).run.run s = (.ok bound, s')) :
    bindAttributes p.resolver owner s as = (s', bound) := by
  unfold bind at run
  unfold bindAttributes
  generalize Bound.start = b at run ⊢
  induction as generalizing s b with
  | nil =>
    cases run
    rfl
  | cons a as ih =>
    rw [List.foldlM_cons, run_bind] at run
    rcases first : (bindOne p owner b a).run.run s with ⟨_ | b₁, s₁⟩
    · rw [first] at run
      cases run
    · rw [first] at run
      have bound := bindAttribute_of_run first
      rw [List.foldl_cons]
      dsimp only
      rw [bound]
      exact ih _ run

end Builder

end ServerMarkup
