/-
# What an item reports

Each kind of item comes to reports of its own, one after the other (`ItemForm.Tells`):

| item | reports |
| --- | --- |
| start tag | at most one about its name, then at most one for each attribute, in their order |
| closing tag, comment | at most one |
| directive | one about a value or about itself, or some about names, in their order |
| any other | none |

`Tells L x` says that the reports by which the step `x` lengthens those of a session are as `L`
says, also when the step fails.  An item tells what its form says, unless it is the comment of a
file that is parsed in its place (`tells_buildItem`).
-/

import Mathlib.Data.List.Forall2
import ServerMarkup.Proofs.Fields.Declared
import ServerMarkup.Proofs.Parse.Asking
import ServerMarkup.Proofs.Parse.Steps
import ServerMarkup.Proofs.Parse.Writing

namespace ServerMarkup

/-- What is reported, and where. -/
abbrev Report := DiagnosticCode × Span

/-- The report of a diagnostic. -/
def Diagnostic.report (d : Diagnostic) : Report :=
  (d.code, d.span)

/-- No report, or one of some. -/
def AtMostOne (allowed rs : List Report) : Prop :=
  rs = [] ∨ ∃ r ∈ allowed, rs = [r]

/-- An attribute can come to the report: its name has no place, or the last part of its name has
none, or the ID that it declares is declared already. -/
inductive Attribute.Tells (a : Attribute) : Report → Prop where
  | name : Tells a (.propertyNotFound, a.name.span)
  | lastPart : Tells a (.propertyNotFound, (lastPart a).name.span)
  | id {e : Excerpt} (declared : a.id? = some e) : Tells a (.duplicateControlId, e.span)

/-- The reports of attributes, at most one for each and in their order. -/
def AttributesTell (rs : List Report) (as : List Attribute) : Prop :=
  List.SublistForall₂ (fun r a => a.Tells r) rs as

/-- The reports of names in a directive, at most one for each and in their order. -/
def NamesTell (rs : List Report) (as : DirectiveAttributes) : Prop :=
  List.SublistForall₂ (fun r a => r = (.propertyNotFound, a.1.span)) rs as

/-- The reports of a directive. -/
inductive DirectiveAttributes.Tells (as : DirectiveAttributes) (span : Span) :
    List Report → Prop where
  | value {a : Excerpt × Excerpt} (mem : a ∈ as) {code : DiagnosticCode}
    (known : code ≠ .duplicateControlRegister) : Tells as span [(code, a.2.span)]
  | registered : Tells as span [(.duplicateControlRegister, span)]
  | names {rs : List Report} (h : NamesTell rs as) : Tells as span rs

/-- The reports of an item. -/
def ItemForm.Tells (rs : List Report) : ItemForm → Prop
  | .comment _ span => AtMostOne [(.recursiveInclude, span), (.includeNotFound, span)] rs
  | .directive _ as span => as.Tells span rs
  | .startTag t => ∃ first rest, rs = first ++ rest ∧
      AtMostOne (Project.unknownControl t.tag) first ∧ AttributesTell rest t.attributes
  | .endTag tag => AtMostOne [(.unexpectedClosingTag, tag.span)] rs
  | .text _ | .code .. | .stray => rs = []

/-- What comes of one thing stands before what comes of those after it. -/
theorem sublistForall₂_cons {α β : Type} {R : α → β → Prop} {xs xs' : List α} {y : β} {ys : List β}
    (h : List.SublistForall₂ R xs [y]) (h' : List.SublistForall₂ R xs' ys) :
    List.SublistForall₂ R (xs ++ xs') (y :: ys) := by
  cases h with
  | nil => exact .cons_right h'
  | cons first rest =>
    cases rest
    exact .cons first h'
  | cons_right rest =>
    cases rest
    exact .cons_right h'

/-- What comes of some things comes of more. -/
theorem sublistForall₂_mono {α β : Type} {R : α → β → Prop} {xs : List α} {ys zs : List β}
    (h : List.SublistForall₂ R xs ys) (sub : ys.Sublist zs) : List.SublistForall₂ R xs zs := by
  obtain ⟨us, matched, part⟩ := List.sublistForall₂_iff.1 h
  exact List.sublistForall₂_iff.2 ⟨us, matched, part.trans sub⟩

section
variable {α β : Type} {L L₁ L₂ : List Report → Prop} {x : Parse α}
  {f : α → Parse β}

/-- The reports of the step come after those of the session, and are as said. -/
def Tells (L : List Report → Prop) (x : Parse α) : Prop :=
  ∀ s, ∃ ds, (x.run.run s).2.diagnostics = s.diagnostics ++ ds ∧ L (ds.map Diagnostic.report)

/-- The step reports nothing. -/
def Still (x : Parse α) : Prop :=
  Tells (· = []) x

namespace Tells

theorem mono (h : Tells L x) (sub : ∀ rs, L rs → L₁ rs) : Tells L₁ x := by
  intro s
  obtain ⟨ds, eq, told⟩ := h s
  exact ⟨ds, eq, sub _ told⟩

/-- Two steps one after the other; if the first fails, the second reports nothing. -/
theorem bind {P : α → Prop} (hx : Tells L₁ x) (gives : Gives x P)
    (hf : ∀ a, P a → Tells L₂ (f a)) (none : L₂ [])
    (both : ∀ rs rs', L₁ rs → L₂ rs' → L (rs ++ rs')) : Tells L (x >>= f) := by
  intro s
  obtain ⟨ds, eq, told⟩ := hx s
  rw [run_bind]
  rcases run : x.run.run s with ⟨_ | a, s₁⟩
  · rw [run] at eq
    refine ⟨ds, eq, ?_⟩
    rw [← List.append_nil (ds.map _)]
    exact both _ _ told none
  · rw [run] at eq
    obtain ⟨es, eq', told'⟩ := hf a (gives s a s₁ run) s₁
    dsimp only at eq ⊢
    refine ⟨ds ++ es, by rw [eq', eq, List.append_assoc], ?_⟩
    rw [List.map_append]
    exact both _ _ told told'

/-- Nothing need be known of what the first step gives. -/
theorem seq (hx : Tells L₁ x) (hf : ∀ a, Tells L₂ (f a)) (none : L₂ [])
    (both : ∀ rs rs', L₁ rs → L₂ rs' → L (rs ++ rs')) : Tells L (x >>= f) :=
  hx.bind (P := fun _ => True) (fun _ _ _ _ => trivial) (fun a _ => hf a) none both

theorem get_bind {f : Session → Parse β} (hf : ∀ s, Tells L (f s)) : Tells L (get >>= f) :=
  fun s => hf s s

theorem report {code : DiagnosticCode} {span : Span} (h : L [(code, span)])
    (args : List String) : Tells L (report code span args) :=
  fun _ => ⟨[⟨code, span, args⟩], rfl, h⟩

end Tells

namespace Still

theorem tells (h : Still x) (none : L []) : Tells L x :=
  h.mono fun _ silent => silent ▸ none

/-- What is reported after the step is all that is. -/
theorem andThen (hx : Still x) (hf : ∀ a, Tells L (f a)) (none : L []) : Tells L (x >>= f) := by
  refine hx.seq hf none ?_
  rintro _ rs rfl told
  exact told

theorem pure {a : α} : Still (Pure.pure a) :=
  fun _ => ⟨[], (List.append_nil _).symm, rfl⟩

theorem throw {e : Failure} : Still (throw e : Parse α) :=
  fun _ => ⟨[], (List.append_nil _).symm, rfl⟩

theorem bind (hx : Still x) (hf : ∀ a, Still (f a)) : Still (x >>= f) :=
  hx.andThen hf rfl

theorem modify {f : Session → Session} (same : ∀ s, (f s).diagnostics = s.diagnostics) :
    Still (modify f : Parse Unit) :=
  fun s => ⟨[], (same s).trans (List.append_nil _).symm, rfl⟩

end Still

/-- What is reported before a step that reports nothing is all that is. -/
theorem Tells.before (hx : Tells L x) (hf : ∀ a, Still (f a)) : Tells L (x >>= f) := by
  refine hx.seq hf rfl fun rs _ told silent => ?_
  rwa [silent, List.append_nil]

end

/-- A step that asks without a report. -/
theorem Asks.still {p : Project} {α : Type} {x : Parse α} (h : Asks p [] x) : Still x :=
  h.induct (C := Still) (fun _ => .pure) (fun _ => .throw) (fun _ _ => .get_bind)
    (fun _ mem => absurd mem List.not_mem_nil) fun _ _ => .bind

theorem AtMostOne.nil {allowed : List Report} : AtMostOne allowed [] :=
  .inl rfl

theorem AtMostOne.one {allowed : List Report} {r : Report}
    (mem : r ∈ allowed) : AtMostOne allowed [r] :=
  .inr ⟨r, mem, rfl⟩

/-! ### Start tags -/

namespace Project

/-- A tag whose type is not found is reported once. -/
theorem tells_controlType (p : Project) (tag : TagName) (as : List Attribute) :
    Tells (AtMostOne (unknownControl tag)) (p.controlType tag as) := by
  have still {α : Type} {x : Parse α} (h : Asks p [] x) :
      Tells (AtMostOne (unknownControl tag)) x := h.still.tells .nil
  have told {code : DiagnosticCode} (args : List String)
      (mem : (code, tag.span) ∈ unknownControl tag) :
      Tells (AtMostOne (unknownControl tag)) (report code tag.span args >>= fun _ =>
        p.genericHtmlControl >>= fun type => pure (type, as)) :=
    (Tells.report (.one mem) args).before fun _ =>
      (p.asks_genericHtmlControl.bind fun _ => .pure _).still
  unfold controlType
  split
  · exact still ((p.asks_htmlControl _).bind fun _ => .pure _)
  · refine .get_bind fun s => ?_
    dsimp only
    split
    · exact Still.pure.tells .nil
    split
    · exact told _ List.mem_cons_self
    · refine (p.asks_itemType _).still.andThen (fun item => ?_) .nil
      refine (p.asks_askAll _).still.andThen (fun _ => ?_) .nil
      split
      · exact Still.pure.tells .nil
      · refine (p.asks_resolveFirst _).still.andThen (fun type => ?_) .nil
        split
        · exact Still.pure.tells .nil
        · exact told _ (List.mem_cons_of_mem _ List.mem_cons_self)

end Project

/-- An attribute has its place on the node, or under the last part of its name. -/
theorem leaf_of_eq_place {r : TypeResolver} {d : Document} {owner : Owner} {a leaf : Attribute}
    {names : List String} (h : Effect.of r d owner a = .place names leaf) :
    leaf = a ∨ leaf = lastPart a := by
  unfold Effect.of at h
  split at h
  · cases h
  split at h
  · cases h
    exact .inr rfl
  split at h
  · cases h
  split at h
  · cases h
  · cases h
    exact .inl rfl

/-- Binding an attribute comes to one report at most. -/
theorem Session.tells_bindAttribute (r : TypeResolver) (owner : Owner) (s : Session) (b : Bound)
    (a : Attribute) : ∃ ds, (bindAttribute r owner s b a).1.diagnostics = s.diagnostics ++ ds ∧
      AttributesTell (ds.map Diagnostic.report) [a] := by
  have none : ∃ ds, s.diagnostics = s.diagnostics ++ ds ∧
      AttributesTell (ds.map Diagnostic.report) [a] := ⟨[], (List.append_nil _).symm, .nil⟩
  have one {code : DiagnosticCode} {span : Span} (args : List String) (h : a.Tells (code, span)) :
      ∃ ds, (s.report code span args).diagnostics = s.diagnostics ++ ds ∧
        AttributesTell (ds.map Diagnostic.report) [a] :=
    ⟨[⟨code, span, args⟩], rfl, .cons h .nil⟩
  unfold bindAttribute
  split
  · exact none
  · exact none
  · next id declares =>
    dsimp only
    split
    · exact none
    · unfold declareField
      split
      · exact one _ (.id (of_eq_declare declares).2)
      · exact none
  · next names leaf placed =>
    dsimp only
    split
    · obtain rfl | rfl := leaf_of_eq_place placed
      · exact one _ .name
      · exact one _ .lastPart
    · exact none

namespace Builder

theorem tells_bindOne (p : Project) (owner : Owner) (bound : Bound) (a : Attribute) :
    Tells (AttributesTell · [a]) (bindOne p owner bound a) := by
  refine .get_bind fun s => (p.asks_askAll _).still.andThen (fun _ => ?_) .nil
  exact fun s => s.tells_bindAttribute p.resolver owner bound a

/-- Attributes are reported in their order. -/
theorem tells_bind (p : Project) (owner : Owner) (as : List Attribute) :
    Tells (AttributesTell · as) (bind p owner as) := by
  unfold bind
  generalize Bound.start = bound
  induction as generalizing bound with
  | nil => exact Still.pure.tells .nil
  | cons a as ih =>
    rw [List.foldlM_cons]
    exact (tells_bindOne p owner bound a).seq ih .nil fun _ _ => sublistForall₂_cons

/-! ### Frames -/

variable {p : Project} {b : Builder}

theorem still_attach (b : Builder) (f : Frame) : Still (b.attach f) := by
  unfold attach
  split
  · exact .pure
  · exact .pure
  · exact .pure
  · refine Still.bind ?_ fun _ => .pure
    exact .modify fun _ => rfl

theorem still_enter (b : Builder) (hasContent : Bool) (f : Frame) :
    Still (b.enter hasContent f) := by
  unfold enter
  split
  · exact .pure
  · exact b.still_attach f

theorem still_closeFrame (b : Builder) (stop : Position) : Still (b.closeFrame stop) := by
  unfold closeFrame
  split
  · exact .pure
  · exact still_attach _ _

theorem still_closeFrames (stop : Position) (frames : List Frame) (b : Builder) :
    Still (closeFrames stop frames b) := by
  induction frames generalizing b with
  | nil => exact .pure
  | cons f frames ih => exact (b.still_closeFrame stop).bind ih

theorem still_addScript (script : OpenScript) (stop : Position) : Still (addScript script stop) :=
  .modify fun _ => rfl

theorem still_openScript (b : Builder) (t : StartTag) : Still (b.openScript t) := by
  unfold openScript
  dsimp only
  split
  · exact .pure
  · exact (still_addScript _ _).bind fun _ => .pure

theorem still_scriptItem (b : Builder) (script : OpenScript) (item : Item) (stop : Position) :
    Still (b.scriptItem script item stop) := by
  unfold scriptItem
  split
  · exact (still_addScript _ _).bind fun _ => .pure
  · exact .pure

theorem still_finish (b : Builder) (stop : Position) : Still (b.finish stop) := by
  have close : Still (closeFrames stop b.stack b >>= fun b => pure b.root) :=
    (still_closeFrames stop b.stack b).bind fun _ => .pure
  unfold finish
  split
  · exact (still_addScript _ _).bind fun _ => close
  · exact close

/-! ### Tags -/

/-- A start tag is reported before its attributes. -/
theorem tells_openTag (p : Project) (b : Builder) (t : StartTag) :
    Tells ((ItemForm.startTag t).Tells ·) (b.openTag p t) := by
  have none : (ItemForm.startTag t).Tells [] := ⟨[], [], rfl, .nil, .nil⟩
  have bound {owner : Owner} {f : Bound → Parse Builder} (hf : ∀ bound, Still (f bound)) :
      Tells (AttributesTell · t.attributes) (bind p owner t.attributes >>= f) :=
    (tells_bind p owner t.attributes).before hf
  refine (p.asks_askAll _).still.andThen (fun _ => ?_) none
  unfold openAs
  dsimp only
  split
  · exact (still_enter _ _ _).tells none
  · refine (bound fun _ => still_enter _ _ _).mono fun rs told => ?_
    exact ⟨[], rs, rfl, .nil, told⟩
  split
  · exact (b.still_openScript t).tells none
  split
  · refine (p.tells_controlType t.tag t.attributes).bind (leaves_controlType p t.tag t.attributes)
      (fun x left => ?_) .nil fun rs rs' told (later : AttributesTell rs' _) =>
        ⟨rs, rs', rfl, told, later⟩
    refine ((tells_bind p _ x.2).mono fun rs told => sublistForall₂_mono told ?_).before
      fun _ => still_enter _ _ _
    obtain same | less := left
    · rw [same]
    · rw [less]
      exact List.eraseP_sublist
  · exact (still_enter _ _ _).tells none

/-- A closing tag is reported once. -/
theorem tells_closeTag (b : Builder) (tag : TagName) (stop : Position) :
    Tells ((ItemForm.endTag tag).Tells ·) (b.closeTag tag stop) := by
  unfold closeTag
  split
  · exact Still.pure.tells .nil
  · dsimp only
    split
    · exact (b.still_closeFrame stop).tells .nil
    · exact (Tells.report (.one List.mem_cons_self) _).before fun _ => b.still_closeFrame stop

end Builder

/-! ### Directives -/

namespace Project

variable (p : Project)

/-- Setting a page property comes to one report at most. -/
theorem tells_setPageProperty (base : TypeRef) (a : Excerpt × Excerpt) :
    Tells (NamesTell · [a]) (modify (·.setPageProperty p.resolver base a)) := by
  intro s
  change ∃ ds, (s.setPageProperty p.resolver base a).diagnostics = _ ∧ _
  have none : ∃ ds, s.diagnostics = s.diagnostics ++ ds ∧
      NamesTell (ds.map Diagnostic.report) [a] := ⟨[], (List.append_nil _).symm, .nil⟩
  unfold Session.setPageProperty
  split
  · exact none
  split
  · exact none
  · exact ⟨[⟨.propertyNotFound, a.1.span, [base.fullName, a.1.value]⟩], rfl, .cons rfl .nil⟩

/-- The attributes of the main directive are reported in their order. -/
theorem tells_setPageProperties (base : TypeRef) (as : DirectiveAttributes) :
    Tells (NamesTell · as) (p.setPageProperties base as) := by
  induction as with
  | nil => exact Still.pure.tells .nil
  | cons a as ih =>
    refine (p.asks_askAll _).still.andThen (fun _ => ?_) .nil
    exact (p.tells_setPageProperty base a).seq (fun _ => ih) .nil fun _ _ => sublistForall₂_cons

/-- An inherited type that is not found is the only thing that is reported. -/
theorem tells_inheritedType {kind : DirectiveKind} {as : DirectiveAttributes} (span : Span)
    {f : Option TypeRef → Parse Unit} (some : ∀ base, Tells (as.Tells span) (f (some base)))
    (none : Still (f none)) : Tells (as.Tells span) (p.inheritedType kind as >>= f) := by
  unfold inheritedType
  split
  · next name named =>
    rw [bind_assoc]
    refine (p.asks_resolveName _).still.andThen (fun type => ?_) (.names .nil)
    split
    · next type =>
      dsimp only
      split
      · exact some type
      · rw [bind_assoc]
        exact Still.andThen (.modify fun _ => rfl) (fun _ => some type) (.names .nil)
    · obtain ⟨a, mem, same⟩ := DirectiveAttributes.mem_of_find? named
      rw [bind_assoc]
      refine (Tells.report ?_ _).before fun _ => none
      rw [← same]
      exact .value mem DiagnosticCode.noConfusion
  · exact some _

theorem tells_describe (kind : DirectiveKind) (as : DirectiveAttributes) (span : Span) :
    Tells (as.Tells span) (p.describe kind as) := by
  unfold describe
  refine Still.andThen (.modify fun _ => rfl) (fun _ => ?_) (.names .nil)
  extract_lets rest
  have told : ∀ u, Tells (as.Tells span) (rest u) := by
    intro u
    refine p.tells_inheritedType span (fun base => ?_) ?_
    · refine .before ((p.tells_setPageProperties base as).mono fun _ => .names) fun _ => ?_
      exact .modify fun _ => rfl
    · exact .modify fun _ => rfl
  split
  · exact Still.andThen (.modify fun _ => rfl) told (.names .nil)
  · exact told ()

theorem tells_register (file : String) (as : DirectiveAttributes) (span : Span) :
    Tells (as.Tells span) (p.register file as span) := by
  have none : as.Tells span [] := .names .nil
  unfold register
  split
  · dsimp only
    split
    · exact (Still.modify fun _ => rfl).tells none
    · next src =>
      refine (p.asks_userControl _).still.andThen (fun type => ?_) none
      split
      · obtain ⟨a, mem, same⟩ := DirectiveAttributes.mem_of_find? src
        refine .report ?_ _
        rw [← same]
        exact .value mem DiagnosticCode.noConfusion
      · refine .get_bind fun s => ?_
        split
        · exact (Still.modify fun _ => rfl).tells none
        · exact .report .registered _
    · exact Still.pure.tells none
  · exact Still.pure.tells none

theorem tells_direct (file : String) (kind : DirectiveKind) (as : DirectiveAttributes)
    (span : Span) : Tells (as.Tells span) (p.direct file kind as span) := by
  have none : as.Tells span [] := .names .nil
  unfold direct
  split
  · refine .get_bind fun s => ?_
    split
    · exact Still.pure.tells none
    · exact p.tells_describe kind as span
  split
  · exact p.tells_register file as span
  split
  · split
    · exact (Still.modify fun _ => rfl).tells none
    · exact Still.pure.tells none
  · exact Still.pure.tells none

end Project

/-! ### Items -/

/-- What is parsed in the place of a comment reports nothing in the files that are being parsed. -/
def Nested.Tells (parsing : List String) (nested : Nested) : Prop :=
  ∀ path text var outer, nameIn parsing path = false →
    ServerMarkup.Tells (∀ r ∈ ·, nameIn parsing r.2.file = false) (nested path text var outer)

/-- **An item tells what its form says**, or includes a file that tells of others. -/
theorem tells_buildItem (p : Project) {parsing : List String} {nested : Nested}
    (told : nested.Tells parsing) (b : Builder) (item : Item) :
    Tells (fun rs => item.form.Tells rs ∨ ∀ r ∈ rs, nameIn parsing r.2.file = false)
      (buildItem p parsing nested b item) := by
  have silent {b : Builder} : Tells
      (fun rs => item.form.Tells rs ∨ ∀ r ∈ rs, nameIn parsing r.2.file = false)
      (pure b : Parse Builder) := Still.pure.tells (.inr nofun)
  have form {x : Parse Builder} (h : Tells (item.form.Tells ·) x) :
      Tells (fun rs => item.form.Tells rs ∨ ∀ r ∈ rs, nameIn parsing r.2.file = false) x :=
    h.mono fun _ => .inl
  unfold buildItem
  dsimp only
  split
  · exact (b.still_scriptItem _ _ _).tells (.inr nofun)
  split
  · exact silent
  · exact silent
  · next text span is =>
    split
    · next reference _ =>
      unfold includeFile
      dsimp only
      split
      · refine form (x := report _ _ _ >>= fun _ => pure b) ?_
        rw [is]
        exact (Tells.report (.one List.mem_cons_self) _).before fun _ => .pure
      split
      · refine form (x := report _ _ _ >>= fun _ => pure b) ?_
        rw [is]
        exact (Tells.report (.one (List.mem_cons_of_mem _ List.mem_cons_self)) _).before
          fun _ => .pure
      · next away _ =>
        refine (p.asks_readFile _).still.andThen (fun text => ?_) (.inr nofun)
        refine Still.andThen (.modify fun _ => rfl) (fun _ => ?_) (.inr nofun)
        refine .before ((told _ _ _ _ ?_).mono fun _ others => .inr others) fun _ => .pure
        simpa using away
    · exact silent
  · next kind attributes span is =>
    refine form ?_
    rw [is]
    exact (p.tells_direct _ kind attributes span).before fun _ => .pure
  · next t is =>
    refine form ?_
    rw [is]
    exact Builder.tells_openTag p b t
  · next tag is =>
    refine form ?_
    rw [is]
    exact Builder.tells_closeTag b tag _
  · exact silent

end ServerMarkup
