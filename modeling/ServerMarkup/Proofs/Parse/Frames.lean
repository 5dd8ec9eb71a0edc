/-
# What an item does to the open tags

Of a builder only the *outline* counts for the nesting of tags: which start tags its frames have
been opened for, and whether a server script is open.  Leaves, bodies and variables leave it as it
is, and so does a tag that has no content.

| item | outline |
| --- | --- |
| start tag that can have content | one more frame, or an open script (`Builder.opens_openTag`) |
| other start tag | the same |
| closing tag | one frame less, or the script closed |
| any other | the same (`gives_buildItem_of_still`) |
-/

import ServerMarkup.Proofs.Parse.Items
import ServerMarkup.Proofs.Parse.Ledger

namespace ServerMarkup

namespace Opened

/-- The span of the node or template. -/
def span : Opened → Span
  | element h => h.span
  | control h => h.span
  | collection h => h.span
  | template h => h.span

end Opened

/-- A start tag: where it begins, and its name. -/
structure Heading where
  start : Position
  tag : TagName
deriving DecidableEq, Repr

/-- The start tags that are open, innermost first; a server script is open inside the others. -/
structure Outline where
  frames : List Heading
  /-- Where the start tag of the open server script begins. -/
  script : Option Position
deriving DecidableEq, Repr

namespace Outline

/-- The outline with one more frame. -/
def push (o : Outline) (h : Heading) : Outline :=
  { o with frames := h :: o.frames }

/-- The outline with the innermost frame taken away. -/
def pop (o : Outline) : Outline :=
  { o with frames := o.frames.tail }

end Outline

/-- The start tag that a frame has been opened for. -/
def Frame.heading (f : Frame) : Heading :=
  ⟨f.opened.span.start, f.tag⟩

/-- Where a start tag begins, and its name. -/
def StartTag.heading (t : StartTag) : Heading :=
  ⟨t.span.start, t.tag⟩

namespace Builder

/-! ### What does not depend on the current body -/

section
variable {α : Type} {view : Builder → α} (kept : ∀ b f, view (b.withBody f) = view b)
include kept

theorem view_addTemplate (b : Builder) (t : Template) : view (b.addTemplate t) = view b := by
  unfold addTemplate
  split <;> exact kept b _

theorem view_addTemplates (b : Builder) (ts : List Template) :
    view (ts.foldl addTemplate b) = view b := by
  induction ts generalizing b with
  | nil => rfl
  | cons t ts ih => rw [List.foldl_cons, ih, view_addTemplate kept]

theorem view_attach (b : Builder) (f : Frame) : Gives (b.attach f) (view · = view b) := by
  unfold attach
  split
  · exact .pure (kept b _)
  · exact .pure (kept b _)
  · exact .pure (kept b _)
  · exact .after fun _ => .pure (view_addTemplate kept b _)

end

/-! ### Outlines -/

variable {b : Builder}

/-- The open tags. -/
def outline (b : Builder) : Outline :=
  ⟨b.stack.map Frame.heading, b.script.map (·.span.start)⟩

@[simp] theorem outline_withBody (b : Builder) (f : Body → Body) :
    (b.withBody f).outline = b.outline := by
  unfold withBody
  split
  · rfl
  · next top rest h => simp [outline, h, Frame.heading]

@[simp] theorem outline_append (b : Builder) (ns : List Node) :
    (b.append ns).outline = b.outline :=
  b.outline_withBody _

@[simp] theorem outline_newVar (b : Builder) : b.newVar.2.outline = b.outline :=
  b.outline_withBody _

@[simp] theorem outline_addLeaf (b : Builder) (span : Span) (content : LeafContent) :
    (b.addLeaf span content).outline = b.outline := by
  simp [addLeaf]

@[simp] theorem outline_addTemplate (b : Builder) (t : Template) :
    (b.addTemplate t).outline = b.outline :=
  view_addTemplate outline_withBody b t

theorem outline_addTemplates (b : Builder) (ts : List Template) :
    (ts.foldl addTemplate b).outline = b.outline :=
  view_addTemplates outline_withBody b ts

/-! ### Frames -/

theorem gives_attach (b : Builder) (f : Frame) :
    Gives (b.attach f) fun b' => b'.outline = b.outline :=
  view_attach outline_withBody b f

theorem quiet_attach (b : Builder) (f : Frame) : Quiet (b.attach f) := by
  unfold attach
  split
  · exact .pure
  · exact .pure
  · exact .pure
  · exact Quiet.bind (.modify fun _ => rfl) fun _ => .pure

theorem gives_enter (b : Builder) (hasContent : Bool) (f : Frame) :
    Gives (b.enter hasContent f) fun b' =>
      b'.outline = if hasContent then b.outline.push f.heading else b.outline := by
  unfold enter
  split
  · exact .pure rfl
  · exact b.gives_attach f

theorem quiet_enter (b : Builder) (hasContent : Bool) (f : Frame) :
    Quiet (b.enter hasContent f) := by
  unfold enter
  split
  · exact .pure
  · exact b.quiet_attach f

/-! ### Start tags -/

theorem quiet_addScript (script : OpenScript) (stop : Position) : Quiet (addScript script stop) :=
  .modify fun _ => rfl

/-- Whether a start tag opens a server script. -/
structure OpensScript (t : StartTag) : Prop where
  plain : t.tag.tagPrefix = none
  script : sameName t.tag.localName "script" = true
  opened : t.ending = .opened

/-- What a start tag does to the open tags: it opens a server script, or a frame if it can have
content. -/
def Opens (b : Builder) (t : StartTag) (b' : Builder) : Prop :=
  b'.outline = (if hasContent t then b.outline.push t.heading else b.outline) ∨
    OpensScript t ∧ b'.outline = { b.outline with script := some t.span.start }

variable (b)

theorem opens_enter {b₀ : Builder} {t : StartTag} {f : Frame} (hb : b.outline = b₀.outline)
    (hf : f.heading = t.heading) : Gives (b.enter (hasContent t) f) (b₀.Opens t) := by
  refine (b.gives_enter _ f).mono fun b' h => .inl ?_
  rw [h, hb, hf]

theorem opens_openTemplate (t : StartTag) (property : String) :
    Gives (b.openTemplate t property) (b.Opens t) :=
  b.newVar.2.opens_enter b.outline_newVar rfl

theorem opens_openCollection (p : Project) (t : StartTag) (m : Member) :
    Gives (b.openCollection p t m) (b.Opens t) :=
  .after fun _ => b.newVar.2.opens_enter b.outline_newVar rfl

theorem opens_openControl (p : Project) (t : StartTag) :
    Gives (b.openControl p t) (b.Opens t) :=
  .after fun _ => .after fun _ => b.newVar.2.opens_enter b.outline_newVar rfl

theorem opens_openElement (t : StartTag) : Gives (b.openElement t) (b.Opens t) :=
  b.newVar.2.opens_enter b.outline_newVar rfl

theorem opens_openScript {t : StartTag} (plain : t.tag.tagPrefix = none)
    (script : sameName t.tag.localName "script" = true) :
    Gives (b.openScript t) (b.Opens t) := by
  have outline := b.outline_newVar
  unfold openScript
  dsimp only
  split
  · next opened =>
    refine .pure (.inr ⟨⟨plain, script, eq_of_beq opened⟩, ?_⟩)
    rw [← outline]
    rfl
  · next closed =>
    refine .after fun _ => .pure (.inl ?_)
    rw [outline, if_neg]
    simp [hasContent, closed]

/-- A start tag opens a server script, or a frame if it can have content. -/
theorem opens_openTag (p : Project) (t : StartTag) : Gives (b.openTag p t) (b.Opens t) := by
  unfold openTag
  refine .after fun _ => ?_
  unfold openAs
  dsimp only
  split
  · exact b.opens_openTemplate t _
  · exact b.opens_openCollection p t _
  · split
    · next script =>
      simp only [Bool.and_eq_true, Option.isNone_iff_eq_none] at script
      exact b.opens_openScript script.1.1 script.2
    split
    · exact b.opens_openControl p t
    · exact b.opens_openElement t

theorem quiet_openTag (p : Project) (t : StartTag) : Quiet (b.openTag p t) := by
  unfold openTag
  refine ((p.asks_askAll _).mild nofun).quiet.bind fun _ => ?_
  unfold openAs
  dsimp only
  split
  · exact quiet_enter _ _ _
  · exact (mild_bind p _ _).quiet.bind fun _ => quiet_enter _ _ _
  · split
    · unfold openScript
      dsimp only
      split
      · exact .pure
      · exact (quiet_addScript _ _).bind fun _ => .pure
    split
    · exact (p.mild_controlType _ _).quiet.bind fun _ => (mild_bind p _ _).quiet.bind fun _ =>
        quiet_enter _ _ _
    · exact quiet_enter _ _ _

/-! ### Closing tags -/

theorem gives_closeFrame (stop : Position) :
    Gives (b.closeFrame stop) fun b' => b'.outline = b.outline.pop := by
  unfold closeFrame
  split
  · next h => exact .pure (by simp [outline, Outline.pop, h])
  · next top rest h =>
    refine (gives_attach _ _).mono ?_
    intro b' hb
    rw [hb]
    simp [outline, Outline.pop, h]

theorem quiet_closeFrame (stop : Position) : Quiet (b.closeFrame stop) := by
  unfold closeFrame
  split
  · exact .pure
  · exact quiet_attach _ _

/-- A closing tag takes the innermost frame away. -/
theorem gives_closeTag (tag : TagName) (stop : Position) :
    Gives (b.closeTag tag stop) fun b' => b'.outline = b.outline.pop := by
  unfold closeTag
  split
  · next h => exact .pure (by simp [outline, Outline.pop, h])
  · dsimp only
    split
    · exact b.gives_closeFrame stop
    · exact .after fun _ => b.gives_closeFrame stop

/-- **A closing tag reports that it does not fit exactly if its name is not that of the innermost
frame.** -/
theorem mismatches_closeTag {top : Frame} {rest : List Frame} (h : b.stack = top :: rest)
    (tag : TagName) (stop : Position) (s : Session) :
    ((b.closeTag tag stop).run.run s).2.mismatches = s.mismatches ++
      if top.tag.agrees tag then []
      else [⟨.unexpectedClosingTag, tag.span, [tag.text, top.tag.text]⟩] := by
  unfold closeTag
  split
  · next h' => simp [h] at h'
  · next top' rest' h' =>
    obtain ⟨rfl, rfl⟩ := List.cons.inj (h.symm.trans h')
    dsimp only
    split
    · next fits => rw [b.quiet_closeFrame stop s, List.append_nil]
    · next other =>
      rw [run_bind]
      exact (b.quiet_closeFrame stop _).trans (s.mismatches_report _ _ _)

/-! ### Scripts -/

theorem span_addToScript (script : OpenScript) (t : Token) :
    (addToScript script t).span = script.span := by
  unfold addToScript
  split <;> rfl

theorem span_addTokens (script : OpenScript) (ts : List Token) :
    (ts.foldl addToScript script).span = script.span := by
  induction ts generalizing script with
  | nil => rfl
  | cons t ts ih => rw [List.foldl_cons, ih, span_addToScript]

/-- The first closing tag in a server script closes it, and all else belongs to it. -/
theorem gives_scriptItem {script : OpenScript} (h : b.script = some script) (item : Item)
    (stop : Position) : Gives (b.scriptItem script item stop) fun b' =>
      b'.outline = { b.outline with
        script := if item.form.isEndTag then none else b.outline.script } := by
  unfold scriptItem
  split
  · next hf =>
    exact .after fun _ => .pure (by simp [outline, hf, ItemForm.isEndTag])
  · next hf =>
    refine .pure ?_
    have other : item.form.isEndTag = false := by
      unfold ItemForm.isEndTag
      split
      · next tag he => exact absurd he (hf tag)
      · rfl
    simp [outline, h, other, span_addTokens]

theorem quiet_scriptItem (script : OpenScript) (item : Item) (stop : Position) :
    Quiet (b.scriptItem script item stop) := by
  unfold scriptItem
  split
  · exact (quiet_addScript _ _).bind fun _ => .pure
  · exact .pure

end Builder

/-! ### Items -/

variable (p : Project) (parsing : List String) (nested : Nested)

theorem gives_includeFile (b : Builder) (reference : String) (span : Span) :
    Gives (includeFile p parsing nested b reference span) fun b' => b'.outline = b.outline := by
  unfold includeFile
  dsimp only
  split
  · exact .after fun _ => .pure rfl
  split
  · exact .after fun _ => .pure rfl
  · refine .after fun text => .after fun _ => .after fun body => .pure ?_
    rw [Builder.outline_addTemplates, Builder.outline_append, Builder.outline_newVar]

/-- An included file is reported for what it is, and not for a closing tag. -/
theorem quiet_includeFile (b : Builder) (reference : String) (span : Span)
    (quiet : ∀ path text var outer, Quiet (nested path text var outer)) :
    Quiet (includeFile p parsing nested b reference span) := by
  unfold includeFile
  dsimp only
  split
  · exact (mild_report _ _ (by decide)).quiet.bind fun _ => .pure
  split
  · exact (mild_report _ _ (by decide)).quiet.bind fun _ => .pure
  · exact ((p.asks_readFile _).mild nofun).quiet.bind fun _ =>
      Quiet.bind (.modify fun _ => rfl) fun _ =>
      (quiet _ _ _ _).bind fun _ => .pure

section
variable {b : Builder} {item : Item}

/-- An item that is no tag leaves the open tags as they are. -/
theorem gives_buildItem_of_still (h : b.script = none) (still : item.form.isStill = true) :
    Gives (buildItem p parsing nested b item) fun b' => b'.outline = b.outline := by
  unfold buildItem
  simp only [h]
  split
  · exact .pure (by simp)
  · exact .pure (by simp)
  · split
    · exact gives_includeFile p parsing nested b _ _
    · exact .pure rfl
  · exact .after fun _ => .pure (by simp)
  · next hf => simp [hf, ItemForm.isStill] at still
  · next hf => simp [hf, ItemForm.isStill] at still
  · exact .pure rfl

theorem gives_buildItem_of_startTag {t : StartTag} (h : b.script = none)
    (hf : item.form = .startTag t) : Gives (buildItem p parsing nested b item) (b.Opens t) := by
  unfold buildItem
  simp only [h, hf]
  exact b.opens_openTag p t

theorem gives_buildItem_of_endTag {tag : TagName} (h : b.script = none)
    (hf : item.form = .endTag tag) :
    Gives (buildItem p parsing nested b item) fun b' => b'.outline = b.outline.pop := by
  unfold buildItem
  simp only [h, hf]
  exact b.gives_closeTag tag _

theorem gives_buildItem_of_script {script : OpenScript} (h : b.script = some script) :
    Gives (buildItem p parsing nested b item) fun b' =>
      b'.outline = { b.outline with
        script := if item.form.isEndTag then none else b.outline.script } := by
  unfold buildItem
  simp only [h]
  exact b.gives_scriptItem h item _

/-- Only closing a tag, outside a server script, reports a closing tag that does not fit, unless a
file is included that does. -/
theorem quiet_buildItem (closes : b.script = none → item.form.isEndTag = false)
    (includes : ∀ text span, item.form = .comment text span →
      includeReference? text.value ≠ none →
        ∀ path text var outer, Quiet (nested path text var outer)) :
    Quiet (buildItem p parsing nested b item) := by
  unfold buildItem
  dsimp only
  split
  · exact b.quiet_scriptItem _ item _
  · next h =>
    split
    · exact .pure
    · exact .pure
    · next text span hf =>
      split
      · next reference hr =>
        exact quiet_includeFile p parsing nested b reference span
          (includes text span hf (by simp [hr]))
      · exact .pure
    · exact (p.mild_direct _ _ _ _).quiet.bind fun _ => .pure
    · exact b.quiet_openTag p _
    · next hf => simp [hf, ItemForm.isEndTag] at closes; simp [closes] at h
    · exact .pure

/-- What a closing tag outside a server script reports. -/
theorem mismatches_buildItem {tag : TagName} {top : Frame} {rest : List Frame}
    (h : b.script = none) (hf : item.form = .endTag tag) (hs : b.stack = top :: rest)
    (s : Session) : ((buildItem p parsing nested b item).run.run s).2.mismatches =
      s.mismatches ++ if top.tag.agrees tag then []
        else [⟨.unexpectedClosingTag, tag.span, [tag.text, top.tag.text]⟩] := by
  unfold buildItem
  simp only [h, hf]
  exact b.mismatches_closeTag hs tag _ s

end

end ServerMarkup
