/-
# What only the main directive says

Whether a Page, Control or Master directive has been met, and what the file inherits, is written
down once, by the first of these directives (`Project.describe`).  All other steps of a parse are
silent about it (`silent_buildItem`), and once it has been said, so is the parse of whatever follows,
further main directives and included files as well (`silent_parseFile`).
-/

import ServerMarkup.Proofs.Include.References
import ServerMarkup.Proofs.Parse.Reports

namespace ServerMarkup

/-- Whether a main directive has been met, and what the file inherits. -/
def Session.said (s : Session) : Bool × Option TypeRef :=
  (s.described, s.document.inherits)

section
variable {α β : Type} {settled : Bool} {x : Parse α} {f : α → Parse β}

/-- The step says nothing of what the file inherits; if `settled` is set, only after something has
been said. -/
def Silent (settled : Bool) (x : Parse α) : Prop :=
  ∀ s, (settled = true → s.described = true) → (x.run.run s).2.said = s.said

namespace Silent

theorem pure {a : α} : Silent settled (Pure.pure a) :=
  fun _ _ => rfl

theorem bind (hx : Silent settled x) (hf : ∀ a, Silent settled (f a)) :
    Silent settled (x >>= f) := by
  refine Keeps.bind
    (R := fun s s' => (settled = true → s.described = true) → s'.said = s.said) ?_ hx hf
  intro s s₁ s₂ first second hs
  have same : s₁.described = s.described := congrArg Prod.fst (first hs)
  exact (second fun h => same.trans (hs h)).trans (first hs)

/-- Looking at the session says nothing. -/
theorem get_bind {f : Session → Parse β} (hf : ∀ s, (settled = true → s.described = true) →
    ((f s).run.run s).2.said = s.said) : Silent settled (get >>= f) :=
  hf

/-- A change that says nothing is silent. -/
theorem modify {f : Session → Session} (h : ∀ s, (f s).said = s.said) :
    Silent settled (modify f : Parse Unit) :=
  fun s _ => h s

section
variable {r : Except Failure α} {s s' : Session} (run : x.run.run s = (r, s'))
include run

/-- A step that is silent at any time says nothing. -/
theorem said_eq (h : Silent false x) : s'.said = s.said := by
  have same := h s Bool.noConfusion
  rwa [run] at same

/-- Behind a main directive it is enough to be silent there. -/
theorem said_eq_of_described (h : Silent true x) (described : s.described = true) :
    s'.said = s.said := by
  have same := h s fun _ => described
  rwa [run] at same

end

end Silent

/-- Reports say nothing. -/
theorem Reports.silent (h : Reports x) : Silent settled x := by
  intro s _
  obtain ⟨ds, same⟩ := h s
  rw [same]
  rfl

end

/-! ### Directives -/

/-- What a directive writes besides a main one says nothing. -/
theorem Writes.said {p : Project} {as : DirectiveAttributes} {f : Session → Session}
    (h : Writes p as false f) (s : Session) : (f s).said = s.said := by
  cases h with
  | described main | inherits main => cases main
  | property base _ =>
    unfold Session.setPageProperty
    split
    · rfl
    · split <;> rfl
  | addImport value =>
    unfold Session.withDocument Document.addImport
    dsimp only
    split <;> rfl
  | _ => rfl

/-- What a directive does besides describing the file is silent. -/
theorem Acts.silent {p : Project} {as : DirectiveAttributes} {span : Span} {settled : Bool}
    {α : Type} {x : Parse α} (h : Acts p as span false x) : Silent settled x := by
  generalize hm : false = main at h
  induction h with
  | asks h => exact h.reports.silent
  | write h => exact .modify (hm ▸ h).said
  | reads _ _ ih => exact .get_bind fun s hs => ih s s hs
  | bind _ _ ihx ihf => exact ihx.bind ihf

/-- A directive is silent unless it is the first to describe the file. -/
theorem Project.silent_direct (p : Project) {settled : Bool} (file : String) {kind : DirectiveKind}
    (as : DirectiveAttributes) (span : Span) (h : settled = true ∨ kind.isMain = false) :
    Silent settled (p.direct file kind as span) := by
  by_cases main : kind.isMain = true
  · unfold direct
    rw [if_pos main]
    refine .get_bind fun s hs => ?_
    have met := h.resolve_right (by simp [main])
    rw [if_pos (hs met)]
    rfl
  · have acts := p.acts_direct file kind as span
    rw [Bool.eq_false_iff.2 main] at acts
    exact acts.silent

/-! ### Tags -/

/-- Binding an attribute says nothing. -/
theorem said_bindAttribute (r : TypeResolver) (owner : Owner) (s : Session) (b : Bound)
    (a : Attribute) : (bindAttribute r owner s b a).1.said = s.said := by
  unfold bindAttribute
  split
  · rfl
  · rfl
  · dsimp only
    unfold Session.declareField
    split
    · rfl
    · split <;> rfl
  · dsimp only
    split <;> rfl

namespace Builder

variable {settled : Bool} (b : Builder)

/-- Binding attributes is silent. -/
theorem silent_bind (p : Project) (owner : Owner) (as : List Attribute) :
    Silent settled (bind p owner as) := by
  unfold bind
  generalize Bound.start = bound
  induction as generalizing bound with
  | nil => exact .pure
  | cons a as ih =>
    rw [List.foldlM_cons]
    refine Silent.bind (.get_bind fun s hs => ?_) ih
    refine ((p.asks_askAll _).reports.silent.bind fun _ => ?_) s hs
    exact fun s _ => said_bindAttribute p.resolver owner s bound a

theorem silent_attach (f : Frame) : Silent settled (b.attach f) := by
  unfold attach
  split
  · exact .pure
  · exact .pure
  · exact .pure
  · exact Silent.bind (.modify fun _ => rfl) fun _ => .pure

theorem silent_enter (hasContent : Bool) (f : Frame) : Silent settled (b.enter hasContent f) := by
  unfold enter
  split
  · exact .pure
  · exact b.silent_attach f

theorem silent_closeFrame (stop : Position) : Silent settled (b.closeFrame stop) := by
  unfold closeFrame
  split
  · exact .pure
  · exact silent_attach _ _

theorem silent_closeFrames (stop : Position) (frames : List Frame) :
    Silent settled (closeFrames stop frames b) := by
  induction frames generalizing b with
  | nil => exact .pure
  | cons f frames ih => exact (b.silent_closeFrame stop).bind ih

theorem silent_addScript (script : OpenScript) (stop : Position) :
    Silent settled (addScript script stop) :=
  .modify fun _ => rfl

/-- A start tag says nothing. -/
theorem silent_openTag (p : Project) (t : StartTag) : Silent settled (b.openTag p t) := by
  unfold openTag
  refine (p.asks_askAll _).reports.silent.bind fun _ => ?_
  unfold openAs
  dsimp only
  split
  · exact silent_enter _ _ _
  · exact (silent_bind p _ _).bind fun _ => silent_enter _ _ _
  · split
    · unfold openScript
      dsimp only
      split
      · exact .pure
      · exact (silent_addScript _ _).bind fun _ => .pure
    split
    · exact (p.asks_controlType _ _).reports.silent.bind fun _ => (silent_bind p _ _).bind fun _ =>
        silent_enter _ _ _
    · exact silent_enter _ _ _

/-- A closing tag says nothing. -/
theorem silent_closeTag (tag : TagName) (stop : Position) : Silent settled (b.closeTag tag stop) := by
  unfold closeTag
  split
  · exact .pure
  · dsimp only
    split
    · exact b.silent_closeFrame stop
    · exact (Reports.report _ _ _).silent.bind fun _ => b.silent_closeFrame stop

theorem silent_scriptItem (script : OpenScript) (item : Item) (stop : Position) :
    Silent settled (b.scriptItem script item stop) := by
  unfold scriptItem
  split
  · exact (silent_addScript _ _).bind fun _ => .pure
  · exact .pure

theorem silent_finish (stop : Position) : Silent settled (b.finish stop) := by
  unfold finish
  split
  · exact (silent_addScript _ _).bind fun _ => (b.silent_closeFrames stop _).bind fun _ => .pure
  · exact (b.silent_closeFrames stop _).bind fun _ => .pure

end Builder

/-! ### Files -/

/-- The item is neither a main directive nor a comment that includes a file. -/
def Item.isPlain (item : Item) : Bool :=
  match item.form with
  | .directive kind _ _ => !kind.isMain
  | .comment text _ => (includeReference? text.value).isNone
  | _ => true

section
variable {p : Project} {parsing : List String} {nested : Nested} {b : Builder} {item : Item}
  {settled : Bool}

/-- Including a file is silent if parsing it is. -/
theorem silent_includeFile (hn : ∀ path text var outer, Silent settled (nested path text var outer))
    (reference : String) (span : Span) :
    Silent settled (includeFile p parsing nested b reference span) := by
  unfold includeFile
  dsimp only
  split
  · exact (Reports.report _ _ _).silent.bind fun _ => .pure
  split
  · exact (Reports.report _ _ _).silent.bind fun _ => .pure
  · refine (p.asks_readFile _).reports.silent.bind fun text => ?_
    refine Silent.bind (.modify fun s => ?_) fun _ => (hn _ _ _ _).bind fun _ => .pure
    unfold Session.withDocument Document.addInclude
    dsimp only
    split <;> rfl

/-- **An item is silent** if it is plain, or if everything has been said and files are silent. -/
theorem silent_buildItem (h : item.isPlain = true ∨ settled = true ∧
    ∀ path text var outer, Silent settled (nested path text var outer)) :
    Silent settled (buildItem p parsing nested b item) := by
  unfold buildItem
  dsimp only
  split
  · exact b.silent_scriptItem _ item _
  · split
    · exact .pure
    · exact .pure
    · next text span hf =>
      split
      · next reference hr =>
        obtain plain | ⟨-, hn⟩ := h
        · rw [Item.isPlain, hf] at plain
          simp [hr] at plain
        · exact silent_includeFile hn reference span
      · exact .pure
    · next kind as span hf =>
      refine (p.silent_direct _ _ _ (h.symm.imp And.left fun plain => ?_)).bind fun _ => .pure
      rw [Item.isPlain, hf] at plain
      simpa using plain
    · exact b.silent_openTag p _
    · exact b.silent_closeTag _ _
    · exact .pure

/-- Items say nothing if they are plain, or behind a main directive. -/
theorem silent_foldlM {items : List Item} (h : (∀ item ∈ items, item.isPlain = true) ∨
    settled = true ∧ ∀ path text var outer, Silent settled (nested path text var outer)) :
    Silent settled (items.foldlM (buildItem p parsing nested) b) := by
  induction items generalizing b with
  | nil => exact .pure
  | cons item items ih =>
    rw [List.foldlM_cons]
    refine (silent_buildItem (h.imp_left fun all => all item List.mem_cons_self)).bind fun _ => ?_
    exact ih (h.imp_left fun all => fun i mem => all i (List.mem_cons_of_mem _ mem))

end

/-- **A file that is parsed after the main directive is silent.** -/
theorem silent_parseFile (p : Project) (depth : Nat) (parsing : List String) (path text var : String)
    (outer : Outer) : Silent true (parseFile p depth parsing path text var outer) := by
  induction depth generalizing parsing path text var outer with
  | zero => exact .pure
  | succ depth ih =>
    exact (silent_foldlM (.inr ⟨rfl, ih (path :: parsing)⟩)).bind fun b => b.silent_finish _

end ServerMarkup
