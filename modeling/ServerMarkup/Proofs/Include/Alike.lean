/-
# Steps that do alike

Two sessions are `Twin`s if they differ in generated names only, and in one included file that the
first has on record.  Two steps are `Alike` from twins if both fail for the same reason or both give
results that match, and the sessions are twins again: `Follows`.  What leaves the lists of the
builder aside does the same from both (`Follows.of_aside`), and binding attributes does so for nodes
with different variables (`Builder.follows_bind`).
-/

import ServerMarkup.Proofs.Include.Unnamed
import ServerMarkup.Proofs.Parse.Ledger

namespace ServerMarkup

/-- The class without its name. -/
def TemplateClass.unnamed (c : TemplateClass) : TemplateClass :=
  { c with className := "" }

/-- The script without variables. -/
def ScriptBlock.unnamed (s : ScriptBlock) : ScriptBlock :=
  { s with children := s.children.map Leaf.unnamed }

/-- The session `s` is as `t`, but for generated names, and has the file `i` included besides. -/
structure Twin (i : Include) (s t : Session) : Prop where
  same : s = t.withLedger s.ledger
  includes : s.document.includes = (t.document.addInclude i.path i.hash).includes
  templates : s.document.templates.map TemplateClass.unnamed =
    t.document.templates.map TemplateClass.unnamed
  scripts : s.document.scripts.map ScriptBlock.unnamed =
    t.document.scripts.map ScriptBlock.unnamed

/-- The two runs give results that match, or fail for the same reason, and their sessions are
twins. -/
inductive Alike (i : Include) {α β : Type} (R : α → β → Prop) :
    Except Failure α × Session → Except Failure β × Session → Prop where
  | done {a b s t} (result : R a b) (session : Twin i s t) : Alike i R (.ok a, s) (.ok b, t)
  | failed {e s t} (session : Twin i s t) : Alike i R (.error e, s) (.error e, t)

/-- From twins the two steps do alike. -/
def Follows (i : Include) {α β : Type} (R : α → β → Prop) (x : Parse α) (y : Parse β) : Prop :=
  ∀ s t, Twin i s t → Alike i R (x.run.run s) (y.run.run t)

theorem Document.includes_addInclude (d : Document) (path hash : String) :
    (d.addInclude path hash).includes =
      if d.includes.any (·.path == path) then d.includes else d.includes ++ [⟨path, hash⟩] := by
  unfold addInclude includesPath
  split <;> rfl

section
variable {i : Include} {α β γ δ : Type} {R : α → β → Prop} {S : γ → δ → Prop} {x : Parse α}
  {y : Parse β} {f : α → Parse γ} {g : β → Parse δ} {s t : Session}

/-- The file that is included makes a twin. -/
theorem twin_addInclude (s : Session) :
    Twin i (s.withDocument (·.addInclude i.path i.hash)) s := by
  have cases : s.withDocument (·.addInclude i.path i.hash) = s ∨
      s.withDocument (·.addInclude i.path i.hash) =
        s.withLedger { s.ledger with includes := s.ledger.includes ++ [i] } := by
    by_cases known : s.document.includesPath i.path = true
    · exact .inl (by simp [Session.withDocument, Document.addInclude, known])
    · exact .inr (by simp [Session.withDocument, Document.addInclude, known, Session.withLedger,
        Session.ledger])
  rcases cases with same | same
  · exact ⟨by rw [same]; rfl, rfl, by rw [same], by rw [same]⟩
  · exact ⟨by rw [same]; rfl, rfl, by rw [same]; rfl, by rw [same]; rfl⟩

namespace Twin

theorem isEmpty_scripts (h : Twin i s t) :
    s.ledger.scripts.isEmpty = t.ledger.scripts.isEmpty := by
  have same := congrArg List.length h.scripts
  rw [List.length_map, List.length_map] at same
  rw [Bool.eq_iff_iff, List.isEmpty_iff_length_eq_zero, List.isEmpty_iff_length_eq_zero]
  exact same ▸ Iff.rfl

end Twin

namespace Follows

theorem pure {a : α} {b : β} (h : R a b) : Follows i R (Pure.pure a) (Pure.pure b) :=
  fun _ _ twin => .done h twin

theorem bind (h : Follows i R x y) (hf : ∀ a b, R a b → Follows i S (f a) (g b)) :
    Follows i S (x >>= f) (y >>= g) := by
  intro s t twin
  have first := h s t twin
  rw [run_bind, run_bind]
  generalize x.run.run s = u, y.run.run t = v at first ⊢
  cases first with
  | done result session => exact hf _ _ result _ _ session
  | failed session => exact .failed session

/-- What is known of the results of the first step besides. -/
theorem and_gives {P : α → Prop} (h : Follows i R x y) (gives : Gives x P) :
    Follows i (fun a b => R a b ∧ P a) x y := by
  intro s t twin
  have alike := h s t twin
  have known := gives s
  generalize x.run.run s = u, y.run.run t = v at alike known ⊢
  cases alike with
  | done result session => exact .done ⟨result, known _ _ rfl⟩ session
  | failed session => exact .failed session

/-- What leaves the lists of the builder aside does the same from twins. -/
theorem of_aside {x : Parse α} (h : Aside x) : Follows i Eq x x := by
  intro s t twin
  have kept := h.ledger_eq t
  have run := h t s.ledger twin.isEmpty_scripts
  rw [← twin.same] at run
  rw [run]
  generalize x.run.run t = v at kept ⊢
  obtain ⟨result, t'⟩ := v
  have session : Twin i (t'.withLedger s.ledger) t' := by
    obtain ⟨-, includes, templates, scripts⟩ := twin
    have includes' := congrArg Ledger.includes kept
    refine ⟨rfl, ?_, ?_, ?_⟩
    · rw [Document.includes_addInclude] at includes ⊢
      exact includes.trans (by rw [show t'.document.includes = t.document.includes from includes'])
    · exact templates.trans (congrArg (·.templates.map TemplateClass.unnamed) kept.symm)
    · exact scripts.trans (congrArg (·.scripts.map ScriptBlock.unnamed) kept.symm)
  cases result with
  | ok a => exact .done rfl session
  | error e => exact .failed session

theorem modify {f g : Session → Session} (h : ∀ s t, Twin i s t → Twin i (f s) (g t)) :
    Follows i (fun _ _ => True) (modify f) (modify g) :=
  fun s t twin => .done trivial (h s t twin)

end Follows

/-! ### What the builder writes -/

/-- Twins stay twins if their classes and scripts are changed alike. -/
theorem Twin.withLedger (h : Twin i s t) {cs ds : List TemplateClass} {ss us : List ScriptBlock}
    (templates : cs.map TemplateClass.unnamed = ds.map TemplateClass.unnamed)
    (scripts : ss.map ScriptBlock.unnamed = us.map ScriptBlock.unnamed) :
    Twin i (s.withLedger ⟨s.ledger.includes, cs, ss⟩)
      (t.withLedger ⟨t.ledger.includes, ds, us⟩) := by
  have others (l : Ledger) : s.withLedger l = t.withLedger l := congrArg (·.withLedger l) h.same
  refine ⟨others _, ?_, templates, scripts⟩
  have includes := h.includes
  rw [Document.includes_addInclude] at includes ⊢
  exact includes

/-- A template class is recorded in both, under different names. -/
theorem Twin.addTemplateClass (h : Twin i s t) {c d : TemplateClass}
    (same : c.unnamed = d.unnamed) :
    Twin i (s.withDocument fun doc => { doc with templates := doc.templates ++ [c] })
      (t.withDocument fun doc => { doc with templates := doc.templates ++ [d] }) :=
  h.withLedger (by simp [h.templates, same]) h.scripts

/-- A finished script is recorded in both, with different variables. -/
theorem Twin.addScript (h : Twin i s t) {c d : ScriptBlock} (same : c.unnamed = d.unnamed) :
    Twin i (s.withDocument fun doc => { doc with scripts := doc.scripts ++ [c] })
      (t.withDocument fun doc => { doc with scripts := doc.scripts ++ [d] }) :=
  h.withLedger h.templates (by simp [h.scripts, same])

namespace Builder

/-- In one session the attribute binds alike to nodes that differ only in their variables. -/
theorem run_bindOne_unnamed (p : Project) {owner owner' : Owner}
    (same : owner.unnamed = owner'.unnamed) {b b' : Bound} (hb : b.unnamed = b'.unnamed)
    (a : Attribute) (s : Session) :
    ((bindOne p owner b a).run.run s).1.map Bound.unnamed =
        ((bindOne p owner' b' a).run.run s).1.map Bound.unnamed ∧
      ((bindOne p owner b a).run.run s).2 = ((bindOne p owner' b' a).run.run s).2 := by
  have asked : Effect.questions p.resolver s.document owner b.children a =
      Effect.questions p.resolver s.document owner' b'.children a := by
    have below : unnamedAll b.children = unnamedAll b'.children := congrArg Bound.children hb
    rw [← questions_unnamed, same, below, questions_unnamed]
  obtain ⟨result, run⟩ :=
    p.exists_run_askAll (Effect.questions p.resolver s.document owner' b'.children a)
  rw [run_bindOne, run_bindOne, asked, run]
  cases result with
  | error e => exact ⟨rfl, rfl⟩
  | ok _ =>
    obtain ⟨session, bound⟩ := bindAttribute_unnamed p.resolver owner s b a
    obtain ⟨session', bound'⟩ := bindAttribute_unnamed p.resolver owner' s b' a
    rw [same, hb] at session bound
    exact ⟨congrArg Except.ok (bound.trans bound'.symm), session.trans session'.symm⟩

/-- In one session attributes bind alike to nodes that differ only in their variables. -/
theorem run_bind_unnamed (p : Project) {owner owner' : Owner}
    (same : owner.unnamed = owner'.unnamed) (as : List Attribute) (s : Session) :
    ((Builder.bind p owner as).run.run s).1.map Bound.unnamed =
        ((Builder.bind p owner' as).run.run s).1.map Bound.unnamed ∧
      ((Builder.bind p owner as).run.run s).2 = ((Builder.bind p owner' as).run.run s).2 := by
  have onward (b b' : Bound) (hb : b.unnamed = b'.unnamed) :
      ((as.foldlM (bindOne p owner) b).run.run s).1.map Bound.unnamed =
          ((as.foldlM (bindOne p owner') b').run.run s).1.map Bound.unnamed ∧
        ((as.foldlM (bindOne p owner) b).run.run s).2 =
          ((as.foldlM (bindOne p owner') b').run.run s).2 := by
    induction as generalizing b b' s with
    | nil =>
      rw [List.foldlM_nil, List.foldlM_nil]
      exact ⟨congrArg Except.ok hb, rfl⟩
    | cons a as ih =>
      have first := run_bindOne_unnamed p same hb a s
      rw [List.foldlM_cons, List.foldlM_cons, run_bind, run_bind]
      generalize (bindOne p owner b a).run.run s = u, (bindOne p owner' b' a).run.run s = v at *
      obtain ⟨u, s'⟩ := u
      obtain ⟨v, _⟩ := v
      obtain ⟨bound, rfl⟩ := first
      cases u with
      | error e =>
        cases v with
        | error e' => exact ⟨by simpa [Except.map] using bound, rfl⟩
        | ok c' => cases bound
      | ok c =>
        cases v with
        | error e' => cases bound
        | ok c' => exact ih s' c c' (by simpa [Except.map] using bound)
  exact onward _ _ rfl

/-- Attributes do alike to nodes that differ only in their variables. -/
theorem follows_bind (p : Project) {owner owner' : Owner} (same : owner.unnamed = owner'.unnamed)
    (as : List Attribute) :
    Follows i (fun b b' => b.unnamed = b'.unnamed) (Builder.bind p owner as)
      (Builder.bind p owner' as) := by
  intro s t twin
  have alike := Follows.of_aside (mild_bind p owner as).aside s t twin
  have other := run_bind_unnamed p same as t
  generalize (Builder.bind p owner as).run.run s = u, (Builder.bind p owner as).run.run t = v,
    (Builder.bind p owner' as).run.run t = w at alike other ⊢
  obtain ⟨w, t'⟩ := w
  obtain ⟨bound, rfl⟩ := other
  cases alike with
  | done result twin =>
    cases w with
    | error e => cases bound
    | ok c => exact .done (by simpa [Except.map, result] using bound) twin
  | failed twin =>
    cases w with
    | error e =>
      obtain rfl : _ = e := by simpa [Except.map] using bound
      exact .failed twin
    | ok c => cases bound

theorem follows_addScript {script script' : OpenScript} (same : script.unnamed = script'.unnamed)
    (stop : Position) :
    Follows i (fun _ _ => True) (addScript script stop) (addScript script' stop) := by
  refine .modify fun s t twin => twin.addScript ?_
  rw [OpenScript.unnamed, OpenScript.unnamed, OpenScript.mk.injEq] at same
  obtain ⟨-, span, children⟩ := same
  rw [ScriptBlock.unnamed, ScriptBlock.unnamed, span, children]

end Builder

end

end ServerMarkup
