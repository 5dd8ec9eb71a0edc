/-
# Steps that keep to marks with a property

Let `P` be a property of marks.  A step *upholds* it if all marks of the session have it after the
step, when they had it before, also when the step fails (`Upholds`); what the step returns may be
known besides.  Steps that only ask uphold `P` if the spans of their reports have it.

A directive and an attribute uphold `P` if what is read of them has it, with all that the parser
makes of that: the span from a directive's attribute to its value, and the parts of names and the
trimmed texts that are cut from attributes (`Attribute.Sound`).
-/

import ServerMarkup.Proofs.Parse.Ledger
import ServerMarkup.Proofs.Parse.Steps
import ServerMarkup.Proofs.Parse.Writing
import ServerMarkup.Proofs.Spans.Marks

namespace ServerMarkup

/-! ### Sessions with a property -/

/-- All marks of the session have the property. -/
structure Session.Marked (P : Mark → Prop) (s : Session) : Prop where
  span : P s.document.span.mark
  fields : ∀ f ∈ s.document.fields, P f.span.mark
  templates : ∀ t ∈ s.document.templates, P t.span.mark
  scripts : ∀ b ∈ s.document.scripts, ∀ m ∈ b.marks, P m
  properties : ∀ b ∈ s.document.properties, ∀ m ∈ b.marks, P m
  diagnostics : ∀ d ∈ s.diagnostics, P d.span.mark

section
variable {P : Mark → Prop} {α β : Type} {Q : α → Prop} {R : β → Prop} {x : Parse α}
  {f : α → Parse β}

theorem Session.Marked.report {s : Session} (h : s.Marked P) {span : Span} (hp : P span.mark)
    (code : DiagnosticCode) (args : List String) : (s.report code span args).Marked P :=
  { h with
    diagnostics := List.forall_mem_append.2 ⟨h.diagnostics, List.forall_mem_singleton.2 hp⟩ }

/-- The session before the first token has the property, if the file has. -/
theorem Session.Marked.start {o : Options} {file text : String} {registry : Registry}
    (h : P (Span.mark ⟨file, .first, Position.first.across text.toList⟩)) :
    (Session.start o file text registry).Marked P := by
  obtain ⟨imports, eq⟩ := Session.exists_start o file text registry
  rw [eq]
  refine ⟨h, ?_, ?_, ?_, ?_, ?_⟩ <;> exact List.forall_mem_nil _

/-- What a session and the nodes of a file come to has the property. -/
theorem Session.Marked.completed {s : Session} (h : s.Marked P) {ns : List Node}
    (hn : ServerMarkup.Marked P ns) : ∀ m ∈ (s.completed ns).marks, P m := by
  unfold ParseOutput.marks Document.marks
  simp only [List.forall_mem_append, List.forall_mem_cons, List.forall_mem_map,
    List.forall_mem_flatMap]
  exact ⟨⟨⟨⟨⟨⟨h.span, h.fields⟩, h.templates⟩, h.scripts⟩, h.properties⟩, hn⟩, h.diagnostics⟩

/-- What a failure leaves of a session has the property, if the start of its file has. -/
theorem Session.Marked.failed {s : Session} (h : s.Marked P) (failure : Failure)
    (start : P (Span.empty s.document.span.file .first).mark) :
    ∀ m ∈ (s.failed failure).marks, P m := by
  have reported := (h.report start .parseFailure [failure.message]).diagnostics
  unfold ParseOutput.marks Document.marks
  simp only [List.forall_mem_append, List.forall_mem_cons, List.forall_mem_map,
    List.forall_mem_flatMap]
  refine ⟨⟨⟨⟨⟨⟨h.span, ?_⟩, ?_⟩, ?_⟩, h.properties⟩, throughout_nil⟩, reported⟩ <;>
    exact List.forall_mem_nil _

variable (P Q) in
/-- When all marks of a session have the property, so have those of the session after the step;
and what the step returns is as said. -/
def Upholds (x : Parse α) : Prop :=
  ∀ s, s.Marked P → (x.run.run s).2.Marked P ∧ ∀ a s', x.run.run s = (.ok a, s') → Q a

namespace Upholds

theorem pure {a : α} (h : Q a) : Upholds P Q (Pure.pure a) := by
  refine fun s hs => ⟨hs, ?_⟩
  rintro b s' run
  cases run
  exact h

theorem bind (hx : Upholds P Q x) (hf : ∀ a, Q a → Upholds P R (f a)) :
    Upholds P R (x >>= f) := by
  intro s hs
  obtain ⟨marked, gives⟩ := hx s hs
  rw [run_bind]
  rcases hr : x.run.run s with ⟨_ | a, s'⟩
  · rw [hr] at marked
    exact ⟨marked, fun _ _ none => nomatch none⟩
  · rw [hr] at marked
    exact hf a (gives a s' hr) s' marked

/-- What the first step returns need not be known. -/
theorem after (hx : Upholds P (fun _ => True) x) (hf : ∀ a, Upholds P R (f a)) :
    Upholds P R (x >>= f) :=
  hx.bind fun a _ => hf a

/-- What is known besides of what the step returns. -/
theorem and_gives {Q' : α → Prop} (h : Upholds P Q x) (gives : Gives x Q') :
    Upholds P (fun a => Q a ∧ Q' a) x :=
  fun s hs => ⟨(h s hs).1, fun a s' run => ⟨(h s hs).2 a s' run, gives s a s' run⟩⟩

theorem mono {Q' : α → Prop} (h : Upholds P Q x) (hQ : ∀ a, Q a → Q' a) : Upholds P Q' x :=
  fun s hs => ⟨(h s hs).1, fun a s' run => hQ a ((h s hs).2 a s' run)⟩

theorem throw {e : Failure} : Upholds P Q (throw e : Parse α) :=
  fun _ hs => ⟨hs, fun _ _ run => nomatch run⟩

theorem get : Upholds P (Session.Marked P) get := by
  refine fun s hs => ⟨hs, ?_⟩
  rintro b s' run
  cases run
  exact hs

theorem modify {f : Session → Session} (h : ∀ s, s.Marked P → (f s).Marked P) :
    Upholds P (fun _ => True) (modify f : Parse Unit) :=
  fun s hs => ⟨h s hs, fun _ _ _ => trivial⟩

theorem report {span : Span} (hp : P span.mark) (code : DiagnosticCode) (args : List String) :
    Upholds P (fun _ => True) (report code span args) :=
  .modify fun _ hs => hs.report hp code args

/-- Steps taken for one thing after another uphold what each of them does. -/
theorem foldlM {γ : Type} {f : α → γ → Parse α} {cs : List γ} {a : α} (ha : Q a)
    (h : ∀ a, Q a → ∀ c ∈ cs, Upholds P Q (f a c)) : Upholds P Q (cs.foldlM f a) := by
  induction cs generalizing a with
  | nil => exact .pure ha
  | cons c cs ih =>
    rw [List.foldlM_cons]
    refine (h a ha c List.mem_cons_self).bind fun a' ha' => ih ha' ?_
    exact fun a ha c hc => h a ha c (List.mem_cons_of_mem _ hc)

end Upholds

end

/-- A step that only asks upholds the property if the spans of its reports have it. -/
theorem Asks.upholds {P : Mark → Prop} {p : Project} {rs : List (DiagnosticCode × Span)} {α : Type}
    {x : Parse α} (h : Asks p rs x) (spans : ∀ r ∈ rs, P r.2.mark) :
    Upholds P (fun _ => True) x :=
  h.induct (C := Upholds P fun _ => True) (fun _ => .pure trivial) (fun _ => .throw)
    (fun _ _ hf => .bind .get fun s _ => hf s) (fun r mem => .report (spans r mem) r.1)
    fun _ _ => .after

/-! ### Directives -/

section
variable (P : Mark → Prop)

/-- A property that the mark of an excerpt does not owe to its text. -/
def Forgets : Prop :=
  ∀ e : Excerpt, P e.mark → P e.span.mark

/-- What is made of the attributes of a directive has the property: the values, the names, and the
spans from names to values. -/
def DirectiveAttributes.Sound (as : DirectiveAttributes) : Prop :=
  ∀ a ∈ as, P a.1.span.mark ∧ P a.2.mark ∧ P (a.1.span.join a.2.span).mark

end

section
variable {P : Mark → Prop} {p : Project} {as : DirectiveAttributes} {span : Span} {main : Bool}

theorem Writes.marked {f : Session → Session} (h : Writes p as main f) (sound : as.Sound P)
    {s : Session} (hs : s.Marked P) : (f s).Marked P := by
  cases h with
  | property base mem =>
    obtain ⟨name, value, span⟩ := sound _ mem
    unfold Session.setPageProperty
    split
    · exact hs
    split
    · refine { hs with properties := List.forall_mem_append.2 ⟨hs.properties, ?_⟩ }
      refine List.forall_mem_singleton.2 (List.forall_mem_cons.2 ⟨span, ?_⟩)
      exact List.forall_mem_singleton.2 value
    · exact hs.report name _ _
  | addImport value =>
    unfold Session.withDocument Document.addImport
    dsimp only
    split
    · exact hs
    · exact { hs with }
  | _ => exact { hs with }

/-- A directive upholds the property if what is read of it has it. -/
theorem Acts.upholds {α : Type} {x : Parse α} (h : Acts p as span main x) (forget : Forgets P)
    (sound : as.Sound P) (hp : P span.mark) : Upholds P (fun _ => True) x := by
  induction h with
  | asks h =>
    refine h.upholds (DirectiveAttributes.forall_reports (C := fun _ q => P q.mark) hp ?_)
    exact fun a mem => ⟨forget _ (sound a mem).2.1, forget _ (sound a mem).2.1⟩
  | write h => exact .modify fun s hs => h.marked sound hs
  | reads _ _ ih => exact Upholds.get.bind fun s _ => ih s
  | bind _ _ ihx ihf => exact ihx.after ihf

end

end ServerMarkup
