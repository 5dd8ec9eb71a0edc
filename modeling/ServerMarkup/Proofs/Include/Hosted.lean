/-
# An included file in its place

The builder of an included file knows of the including one only what stands around the comment
(`Builder.place`).  `Builder.host` puts its frames over those of the including builder and what
stands at its top at the end of that builder's current body, as if the items were those of the
including file.  `Hosts b n d` says that this gives `d`, up to names, if `b` is the builder at the
comment and `n` that of the included file.  All that builders do preserves it, so the two go side by
side: `Hosts.follows_openTag` and after.
-/

import ServerMarkup.Proofs.Content.Held
import ServerMarkup.Proofs.Include.Alike
import ServerMarkup.Proofs.Include.References

namespace ServerMarkup

/-- The body with what stands in another one at its end. -/
def Body.extend (b n : Body) : Body :=
  { b with children := b.children ++ n.children, templates := b.templates ++ n.templates }

theorem Opened.unnamed_endingAt (o : Opened) (stop : Position) :
    (o.endingAt stop).unnamed = o.unnamed.endingAt stop := by
  cases o <;> rfl

namespace Builder

/-- What a file that is included at the current place knows of it. -/
def place (b : Builder) : Outer :=
  ⟨b.enclosing.1, b.enclosing.2, b.inTemplate⟩

/-- A comment puts the tree of the file that it includes at the current place. -/
theorem run_include {p : Project} {parsing : List String} {nested : Nested} {b : Builder}
    {item : Item} {reference path text : String} (outside : b.script = none)
    (names : item.form.reference? = some reference)
    (resolved : resolveReference b.file reference = path) (fresh : nameIn parsing path = false)
    (readable : p.files.read path = .ok text) (session : Session) :
    (buildItem p parsing nested b item).run.run session =
      (nested path text b.newVar.1 b.place >>= fun body => pure
        (body.templates.foldl addTemplate (b.newVar.2.append body.children))).run.run
          (session.withDocument (·.addInclude path (contentHash text))) := by
  obtain ⟨e, span, comment, names⟩ := ItemForm.eq_comment names
  have found := Files.isFile_of_read readable
  simp only [buildItem, outside, comment, names, includeFile, resolved, fresh, found,
    Project.readFile, readable]
  rfl

/-- The builder with what another one has built at its current place. -/
def host (b n : Builder) : Builder :=
  let around := b.withBody (·.extend n.root)
  { around with stack := n.stack ++ around.stack, script := n.script }

/-- The builder `d` has built at the current place of `b` what `n` has built on its own, up to
names. -/
structure Hosts (b n d : Builder) : Prop where
  outer : n.outer = b.place
  same : d.unnamed = (b.host n).unnamed

section
variable (b n : Builder)

theorem host_withBody {f : Body → Body}
    (h : n.stack = [] → ∀ body : Body, body.extend (f n.root) = f (body.extend n.root)) :
    b.host (n.withBody f) = (b.host n).withBody f := by
  unfold host withBody
  cases hn : n.stack with
  | nil => cases hb : b.stack <;> simp [h hn]
  | cons top rest => cases hb : b.stack <;> simp

theorem host_append (ns : List Node) : b.host (n.append ns) = (b.host n).append ns :=
  b.host_withBody n fun _ body => by simp [Body.extend, Body.append]

theorem unnamed_host_newVar : (b.host n.newVar.2).unnamed = (b.host n).unnamed := by
  cases hn : n.stack with
  | nil =>
    have same : b.host n.newVar.2 = b.host n := by
      simp [newVar, withBody, hn, host, Body.extend]
    rw [same]
  | cons top rest =>
    have same : b.host n.newVar.2 = (b.host n).newVar.2 :=
      b.host_withBody n fun none => by simp [hn] at none
    rw [same, unnamed_newVar]

theorem map_opened_withBody (f : Body → Body) :
    (b.withBody f).stack.map Frame.opened = b.stack.map Frame.opened := by
  unfold withBody
  split
  · rfl
  · next top rest hs => simp [hs]

theorem enclosing_withBody (f : Body → Body) : (b.withBody f).enclosing = b.enclosing := by
  unfold withBody enclosing
  cases hs : b.stack <;> simp

theorem any_isTemplate_withBody (f : Body → Body) :
    (b.withBody f).stack.any (·.opened.isTemplate) = b.stack.any (·.opened.isTemplate) := by
  have same := congrArg (·.any Opened.isTemplate) (b.map_opened_withBody f)
  simpa [List.any_map, Function.comp_def] using same

/-- At the top of the included file what stands around is what stands around the comment. -/
theorem enclosing_host (hn : n.stack = []) : (b.host n).enclosing = b.enclosing := by
  rw [← b.enclosing_withBody (·.extend n.root)]
  simp [host, hn, enclosing]

/-- A node around the current place that has a type keeps templates. -/
theorem addTemplate_of_typed {b : Builder} (typed : b.enclosing.1 ≠ none) (t : Template) :
    b.addTemplate t = b.withBody fun body => { body with templates := body.templates ++ [t] } := by
  unfold enclosing at typed
  unfold addTemplate
  cases hs : b.stack with
  | nil => rfl
  | cons top rest =>
    rw [hs] at typed
    cases ho : top.opened with
    | element h => simp [ho] at typed
    | template h => simp [ho] at typed
    | control h => simp [ho]
    | collection h => simp [ho]

theorem host_addTemplate (t : Template) (typed : n.stack = [] → b.enclosing.1 ≠ none) :
    b.host (n.addTemplate t) = (b.host n).addTemplate t := by
  have hosted := b.host_withBody n
    (f := fun body => { body with templates := body.templates ++ [t] })
    fun _ body => by simp [Body.extend]
  cases hn : n.stack with
  | nil =>
    have around : (b.host n).enclosing.1 ≠ none := by
      rw [b.enclosing_host n hn]
      exact typed hn
    rw [addTemplate_of_typed around, ← hosted]
    simp [addTemplate, hn]
  | cons top rest =>
    have head : (b.host n).stack.head? = n.stack.head? := by simp [host, hn]
    unfold addTemplate
    rw [head]
    split
    · exact b.host_append n _
    · exact b.host_append n _
    · exact hosted

end

theorem unnamed_addToScript {s s' : OpenScript} (same : s.unnamed = s'.unnamed) (t : Token) :
    (addToScript s t).unnamed = (addToScript s' t).unnamed := by
  obtain ⟨-, span, children⟩ := OpenScript.mk.inj same
  unfold addToScript
  split
  · simp [OpenScript.unnamed, Leaf.unnamed, span, children]
  · exact same

theorem unnamed_addTokens {s s' : OpenScript} (same : s.unnamed = s'.unnamed) (ts : List Token) :
    (ts.foldl addToScript s).unnamed = (ts.foldl addToScript s').unnamed := by
  induction ts generalizing s s' with
  | nil => exact same
  | cons t ts ih => exact ih (unnamed_addToScript same t)

namespace Hosts

variable {b n d : Builder}

/-- Both have the same type around their current places. -/
theorem enclosing_eq (h : b.Hosts n d) : d.enclosing = n.enclosing := by
  have same := congrArg Builder.enclosing h.same
  rw [enclosing_unnamed, enclosing_unnamed] at same
  rw [same]
  cases hn : n.stack with
  | nil =>
    have here : n.enclosing = (n.outer.type, n.outer.collection) := by simp [enclosing, hn]
    rw [here, b.enclosing_host n hn, h.outer]
    rfl
  | cons top rest => simp [host, hn, enclosing]

/-- Both are in templates, or neither is. -/
theorem inTemplate_eq (h : b.Hosts n d) : d.inTemplate = n.inTemplate := by
  have same := congrArg Builder.inTemplate h.same
  rw [inTemplate_unnamed, inTemplate_unnamed] at same
  have place : n.outer.template = b.inTemplate := by rw [h.outer]; rfl
  rw [same, inTemplate, inTemplate, place, inTemplate]
  simp only [host, outer_withBody, List.any_append, any_isTemplate_withBody]
  cases b.outer.template <;> cases b.stack.any (·.opened.isTemplate) <;> simp

theorem script_eq (h : b.Hosts n d) :
    n.script.map OpenScript.unnamed = d.script.map OpenScript.unnamed :=
  (congrArg Builder.script h.same).symm

theorem newVar (h : b.Hosts n d) : b.Hosts n.newVar.2 d.newVar.2 :=
  ⟨n.outer_newVar.trans h.outer, by rw [unnamed_newVar, unnamed_host_newVar, h.same]⟩

theorem append (h : b.Hosts n d) {ns ms : List Node} (same : unnamedAll ns = unnamedAll ms) :
    b.Hosts (n.append ns) (d.append ms) := by
  refine ⟨(n.outer_withBody _).trans h.outer, ?_⟩
  rw [unnamed_append, host_append, unnamed_append, h.same, same]

theorem addLeaf (h : b.Hosts n d) (span : Span) (content : LeafContent) :
    b.Hosts (n.addLeaf span content) (d.addLeaf span content) :=
  h.newVar.append rfl

/-- A template at the top of the included file joins the node around the comment, if this has a
type. -/
theorem addTemplate (h : b.Hosts n d) {t u : Template} (same : t.unnamed = u.unnamed)
    (typed : n.stack = [] → b.enclosing.1 ≠ none) :
    b.Hosts (n.addTemplate t) (d.addTemplate u) := by
  refine ⟨(n.outer_addTemplate t).trans h.outer, ?_⟩
  rw [unnamed_addTemplate, h.same, ← same, ← unnamed_addTemplate, b.host_addTemplate n t typed]

/-- The same tag is opened in both. -/
theorem push (h : b.Hosts n d) {f g : Frame} (same : f.unnamed = g.unnamed) :
    b.Hosts { n with stack := f :: n.stack } { d with stack := g :: d.stack } := by
  refine ⟨h.outer, ?_⟩
  have frames := h.same
  simp only [unnamed, host, List.map_cons, List.cons_append, same, Builder.mk.injEq] at frames ⊢
  obtain ⟨file, outer, root, stack, script⟩ := frames
  exact ⟨file, outer, root, by rw [stack], script⟩

/-- The innermost tag of the included file is that of both. -/
theorem pop (h : b.Hosts n d) {f : Frame} {rest : List Frame} (hn : n.stack = f :: rest) :
    ∃ g below, d.stack = g :: below ∧ f.unnamed = g.unnamed ∧
      b.Hosts { n with stack := rest } { d with stack := below } := by
  have frames := h.same
  simp only [unnamed, host, hn, List.map_cons, List.cons_append, Builder.mk.injEq] at frames
  obtain ⟨file, outer, root, stack, script⟩ := frames
  obtain ⟨g, below, hd, same, others⟩ := List.map_eq_cons_iff.1 stack
  refine ⟨g, below, hd, same.symm, h.outer, ?_⟩
  simp only [unnamed, host, Builder.mk.injEq]
  exact ⟨file, outer, root, others, script⟩

theorem withScript (h : b.Hosts n d) {s s' : Option OpenScript}
    (same : s.map OpenScript.unnamed = s'.map OpenScript.unnamed) :
    b.Hosts { n with script := s } { d with script := s' } := by
  refine ⟨h.outer, ?_⟩
  have others := h.same
  simp only [unnamed, host, Builder.mk.injEq] at others ⊢
  obtain ⟨file, outer, root, stack, -⟩ := others
  exact ⟨file, outer, root, stack, same.symm⟩

/-! ### Frames -/

variable {i : Include} {f g : Frame}

/-- A closed frame joins what is around it in both. -/
theorem follows_attach (h : b.Hosts n d) (same : f.unnamed = g.unnamed)
    (typed : f.opened.isTemplate = true → n.stack = [] → b.enclosing.1 ≠ none) :
    Follows i b.Hosts (n.attach f) (d.attach g) := by
  rw [Frame.unnamed, Frame.unnamed, Frame.mk.injEq, Body.unnamed, Body.unnamed,
    Body.mk.injEq] at same
  obtain ⟨opened, -, -, children, templates, -⟩ := same
  unfold attach
  cases hf : f.opened with
  | element head =>
    cases hg : g.opened <;> simp only [hf, hg, Opened.unnamed, reduceCtorEq] at opened
    refine .pure (h.append ?_)
    simp [unnamedAll, Node.unnamed, children, Opened.element.inj opened]
  | control head =>
    cases hg : g.opened <;> simp only [hf, hg, Opened.unnamed, reduceCtorEq] at opened
    refine .pure (h.append ?_)
    simp [unnamedAll, Node.unnamed, children, templates, Opened.control.inj opened]
  | collection head =>
    cases hg : g.opened <;> simp only [hf, hg, Opened.unnamed, reduceCtorEq] at opened
    refine .pure (h.append ?_)
    simp [unnamedAll, Node.unnamed, children, templates, Opened.collection.inj opened]
  | template head =>
    cases hg : g.opened <;> simp only [hf, hg, Opened.unnamed, reduceCtorEq] at opened
    next head' =>
    have heads := Opened.template.inj opened
    refine Follows.bind (R := fun _ _ => True) (.modify fun s t twin => twin.addTemplateClass ?_) ?_
    · have class' := congrArg (fun h : TemplateHead => (h.property, h.span)) heads
      simp only [TemplateHead.unnamed, Prod.mk.injEq] at class'
      simp [TemplateClass.unnamed, class']
    · intro _ _ _
      refine .pure (h.addTemplate ?_ (typed (by rw [hf]; rfl)))
      simp [Template.unnamed, heads, children]

/-- A tag that can have content is opened in both; what has none joins what is around it. -/
theorem follows_enter (h : b.Hosts n d) (same : f.unnamed = g.unnamed)
    (typed : f.opened.isTemplate = true → n.enclosing.1 ≠ none) (hasContent : Bool) :
    Follows i b.Hosts (n.enter hasContent f) (d.enter hasContent g) := by
  unfold enter
  split
  · exact .pure (h.push same)
  · refine h.follows_attach same fun template hn => ?_
    have around := typed template
    simp only [enclosing, hn, h.outer] at around
    exact around

/-- The innermost tag of the included file is closed in both. -/
theorem follows_closeFrame (h : b.Hosts n d) (sound : n.Sound) (inside : n.stack ≠ [])
    (stop : Position) : Follows i b.Hosts (n.closeFrame stop) (d.closeFrame stop) := by
  cases hn : n.stack with
  | nil => exact absurd hn inside
  | cons f rest =>
    obtain ⟨g, below, hd, same, popped⟩ := h.pop hn
    have typed : f.opened.isTemplate = true → rest = [] → b.enclosing.1 ≠ none := by
      rintro template rfl
      have frames := sound.frames
      rw [hn] at frames
      cases frames with
      | cons _ _ hosted =>
        have around := hosted template
        rw [typeAround, h.outer] at around
        exact around
    unfold closeFrame
    simp only [hn, hd]
    refine popped.follows_attach ?_ (by simpa using typed)
    simp only [Frame.unnamed, Frame.mk.injEq, Opened.unnamed_endingAt] at same ⊢
    obtain ⟨opened, tag, body⟩ := same
    exact ⟨by rw [opened], tag, body⟩

theorem follows_closeTag (h : b.Hosts n d) (sound : n.Sound) (inside : n.stack ≠ [])
    (tag : TagName) (stop : Position) :
    Follows i b.Hosts (n.closeTag tag stop) (d.closeTag tag stop) := by
  have close := h.follows_closeFrame (i := i) sound inside stop
  cases hn : n.stack with
  | nil => exact absurd hn inside
  | cons f rest =>
    obtain ⟨g, below, hd, same, -⟩ := h.pop hn
    have name := congrArg Frame.tag same
    change f.tag = g.tag at name
    unfold closeTag
    simp only [hn, hd, name]
    split
    · exact close
    · refine (Follows.of_aside ?_).bind fun _ _ _ => close
      exact .modify fun _ _ => rfl

/-! ### Start tags -/

theorem follows_openTemplate (h : b.Hosts n d) (typed : n.enclosing.1 ≠ none) (t : StartTag)
    (property : String) :
    Follows i b.Hosts (n.openTemplate t property) (d.openTemplate t property) := by
  refine h.newVar.follows_enter ?_ (fun _ => ?_) _
  · rfl
  · rw [Builder.newVar, enclosing_withBody]
    exact typed

theorem follows_openElement (h : b.Hosts n d) (t : StartTag) :
    Follows i b.Hosts (n.openElement t) (d.openElement t) := by
  refine h.newVar.follows_enter ?_ ?_ _
  · rfl
  · exact fun template => Bool.noConfusion template

theorem follows_openCollection (h : b.Hosts n d) (p : Project) (t : StartTag) (m : Member) :
    Follows i b.Hosts (n.openCollection p t m) (d.openCollection p t m) := by
  refine (follows_bind p ?_ t.attributes).bind fun bound bound' same => ?_
  · exact congrArg (Owner.mk m.type "" false) h.newVar.inTemplate_eq.symm
  · obtain ⟨bindings, children, -, -⟩ := Bound.mk.inj same
    refine h.newVar.follows_enter ?_ ?_ _
    · simp [Frame.unnamed, Opened.unnamed, CollectionHead.unnamed, Body.unnamed, Body.start,
        bindings, children]
    · exact fun template => Bool.noConfusion template

theorem follows_openControl (h : b.Hosts n d) (p : Project) (t : StartTag) :
    Follows i b.Hosts (n.openControl p t) (d.openControl p t) := by
  refine (Follows.of_aside (p.mild_controlType t.tag t.attributes).aside).bind ?_
  rintro ⟨type, attributes⟩ _ rfl
  refine (follows_bind p ?_ attributes).bind fun bound bound' same => ?_
  · exact congrArg (Owner.mk type "" true) h.newVar.inTemplate_eq.symm
  · obtain ⟨bindings, children, id, field⟩ := Bound.mk.inj same
    refine h.newVar.follows_enter ?_ ?_ _
    · simp [Frame.unnamed, Opened.unnamed, Body.unnamed, Body.start, bindings, children, id, field]
    · exact fun template => Bool.noConfusion template

theorem follows_openScript (h : b.Hosts n d) (t : StartTag) :
    Follows i b.Hosts (n.openScript t) (d.openScript t) := by
  unfold openScript
  dsimp only
  split
  · exact .pure (h.newVar.withScript rfl)
  · exact (follows_addScript rfl _).bind fun _ _ _ => .pure h.newVar

/-- A start tag opens the same in both. -/
theorem follows_openTag (h : b.Hosts n d) (p : Project) (t : StartTag) :
    Follows i b.Hosts (n.openTag p t) (d.openTag p t) := by
  unfold openTag tagQuestions
  rw [h.enclosing_eq]
  refine (Follows.of_aside ((p.asks_askAll _).mild nofun).aside).bind fun _ _ _ => ?_
  unfold openAs
  rw [h.enclosing_eq]
  dsimp only
  split
  · next m hm =>
    refine h.follows_openTemplate (fun none => ?_) t _
    rw [none] at hm
    simp at hm
  · exact h.follows_openCollection p t _
  · split
    · exact h.follows_openScript t
    split
    · exact h.follows_openControl p t
    · exact h.follows_openElement t

/-- In a script an item does the same in both. -/
theorem follows_scriptItem (h : b.Hosts n d) {script script' : OpenScript}
    (same : script.unnamed = script'.unnamed) (item : Item) (stop : Position) :
    Follows i b.Hosts (n.scriptItem script item stop) (d.scriptItem script' item stop) := by
  unfold scriptItem
  split
  · exact (follows_addScript same _).bind fun _ _ _ => .pure (h.withScript rfl)
  · refine .pure (h.withScript ?_)
    simp [unnamed_addTokens same]

end Hosts

end Builder

end ServerMarkup
