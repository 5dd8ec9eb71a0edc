/-
# The marks of a tree that is being built

If the items of a file are sound for a property of marks (`ItemsSound`), and so are those of the
files that it includes, then all that is built of them has the property (`upholds_parseFile`).  An
open tag ends where a later item or the file ends, so the span of a start tag has to keep the
property when it is drawn out to any of these ends (`Spanned`).
-/

import ServerMarkup.Proofs.Include.Calls
import ServerMarkup.Proofs.Spans.Bound

namespace ServerMarkup

section
variable (P : Mark → Prop) (ends : List Position)

/-- The span has the property, also when it is drawn out to one of the ends. -/
structure Spanned (span : Span) : Prop where
  here : P span.mark
  further : ∀ stop ∈ ends, P ({ span with stop } : Span).mark

/-- All marks of a start tag have the property, wherever the tag ends. -/
structure StartTag.Sound (t : StartTag) : Prop where
  span : Spanned P ends t.span
  tag : ∀ m ∈ t.tag.marks, P m
  name : P t.tag.span.mark
  attributes : ∀ a ∈ t.attributes, a.Sound P

/-- All marks of what an item is have the property. -/
def ItemForm.Sound : ItemForm → Prop
  | .text e => P e.mark
  | .code _ e span => P span.mark ∧ P e.mark
  | .comment _ span => P span.mark
  | .directive _ as span => P span.mark ∧ as.Sound P
  | .startTag t => t.Sound P ends
  | .endTag tag => P tag.span.mark
  | .stray => True

/-- All marks of an item have the property, and those of its tokens, which may go to a script. -/
structure Item.Sound (item : Item) : Prop where
  form : item.form.Sound P ends
  tokens : ∀ t ∈ item.tokens, P t.span.mark ∧ P t.text.mark

end

/-- Where an item ends. -/
def Item.stop (item : Item) : Position :=
  (item.tokens.getLast?.map (·.span.stop)).getD .first

/-- The ends of the items, and of the file. -/
def endsOf (stop : Position) (items : List Item) : List Position :=
  items.map Item.stop ++ [stop]

/-- The items are sound, each with the ends of those that follow it. -/
def ItemsSound (P : Mark → Prop) (stop : Position) : List Item → Prop
  | [] => True
  | item :: items => item.Sound P (endsOf stop items) ∧ ItemsSound P stop items

/-- What is recorded of a directive is the value of one of its attributes. -/
theorem mem_recordOf {as : DirectiveAttributes} {e : String × Excerpt} (h : e ∈ recordOf as) :
    ∃ a ∈ as, a.2 = e.2 := by
  refine List.foldlRecOn as _ (motive := fun table => ∀ e ∈ table, ∃ a ∈ as, a.2 = e.2)
    (List.forall_mem_nil _) ?_ e h
  intro table ih a mem e he
  unfold recordEntry at he
  split at he
  · obtain ⟨e', mem', rfl⟩ := List.mem_map.1 he
    split
    · exact ⟨a, mem, rfl⟩
    · exact ih e' mem'
  · rcases List.mem_append.1 he with earlier | last
    · exact ih e earlier
    · obtain rfl := List.mem_singleton.1 last
      exact ⟨a, mem, rfl⟩

/-! ### Bodies and frames -/

namespace Opened

/-- The marks of the node or template besides that of its span. -/
def inner : Opened → List Mark
  | element h => h.tag.marks ++ h.attributes.flatMap Attribute.marks
  | control h => h.tag.marks ++ h.id.toList.map Excerpt.mark ++ h.bindings.marks
  | collection h => h.bindings.marks
  | template _ => []

@[simp] theorem span_endingAt (o : Opened) (stop : Position) :
    (o.endingAt stop).span = { o.span with stop } := by
  cases o <;> rfl

@[simp] theorem inner_endingAt (o : Opened) (stop : Position) :
    (o.endingAt stop).inner = o.inner := by
  cases o <;> rfl

end Opened

section
variable (P : Mark → Prop) (ends : List Position)

/-- All marks of what stands in a body have the property. -/
structure Body.Marked (b : Body) : Prop where
  children : ServerMarkup.Marked P b.children
  templates : TemplatesMarked P b.templates

/-- All marks of a frame have the property, wherever it is closed. -/
structure Frame.Marked (f : Frame) : Prop where
  span : Spanned P ends f.opened.span
  inner : ∀ m ∈ f.opened.inner, P m
  body : f.body.Marked P

/-- All marks of a script have the property, wherever it ends. -/
structure OpenScript.Marked (s : OpenScript) : Prop where
  span : Spanned P ends s.span
  children : ∀ l ∈ s.children, ∀ m ∈ l.marks, P m

/-- All marks of a builder have the property. -/
structure Builder.Marked (b : Builder) : Prop where
  root : b.root.Marked P
  stack : ∀ f ∈ b.stack, f.Marked P ends
  script : ∀ s, b.script = some s → s.Marked P ends

end

variable {P : Mark → Prop} {ends ends' : List Position}

theorem Spanned.mono {span : Span} (h : Spanned P ends span) (sub : ends' ⊆ ends) :
    Spanned P ends' span :=
  ⟨h.here, fun stop mem => h.further stop (sub mem)⟩

theorem Body.marked_start {var : String} {ns : List Node} (h : ServerMarkup.Marked P ns) :
    (Body.start var ns).Marked P :=
  ⟨h, templatesThroughout_nil⟩

namespace Builder

variable {b : Builder}

theorem Marked.mono (h : b.Marked P ends) (sub : ends' ⊆ ends) : b.Marked P ends' :=
  ⟨h.root, fun f mem => { h.stack f mem with span := (h.stack f mem).span.mono sub },
    fun s hs => { h.script s hs with span := (h.script s hs).span.mono sub }⟩

theorem marked_start (file var : String) (outer : Outer) : (start file var outer).Marked P ends :=
  ⟨Body.marked_start throughout_nil, List.forall_mem_nil _, nofun⟩

theorem Marked.withBody (h : b.Marked P ends) {f : Body → Body}
    (hf : ∀ body, body.Marked P → (f body).Marked P) : (b.withBody f).Marked P ends := by
  unfold Builder.withBody
  split
  · exact { h with root := hf _ h.root }
  · next top rest hs =>
    obtain ⟨first, others⟩ := List.forall_mem_cons.1 (hs ▸ h.stack)
    exact { h with stack := List.forall_mem_cons.2 ⟨{ first with body := hf _ first.body }, others⟩ }

theorem Marked.newVar (h : b.Marked P ends) : b.newVar.2.Marked P ends :=
  h.withBody (f := fun body => { body with next := body.next + 1 })
    fun _ hb => ⟨hb.children, hb.templates⟩

theorem Marked.append (h : b.Marked P ends) {ns : List Node} (hn : ServerMarkup.Marked P ns) :
    (b.append ns).Marked P ends :=
  h.withBody fun _ hb => { hb with children := throughout_append.2 ⟨hb.children, hn⟩ }

theorem Marked.addLeaf (h : b.Marked P ends) {span : Span} {content : LeafContent}
    (hp : P span.mark) (hc : ∀ m ∈ content.marks, P m) : (b.addLeaf span content).Marked P ends :=
  h.newVar.append (throughout_leaf.2 (List.forall_mem_cons.2 ⟨hp, hc⟩))

theorem Marked.addTemplate (h : b.Marked P ends) {t : Template} (ht : TemplatesMarked P [t]) :
    (b.addTemplate t).Marked P ends := by
  unfold Builder.addTemplate
  split
  · exact h.append (templatesThroughout_cons.1 ht).2.1
  · exact h.append (templatesThroughout_cons.1 ht).2.1
  · exact h.withBody fun _ hb => { hb with templates := templatesThroughout_append.2 ⟨hb.templates, ht⟩ }

theorem Marked.addTemplates (h : b.Marked P ends) {ts : List Template}
    (ht : TemplatesMarked P ts) : (ts.foldl Builder.addTemplate b).Marked P ends := by
  induction ts generalizing b with
  | nil => exact h
  | cons t ts ih =>
    have split : TemplatesMarked P ([t] ++ ts) := ht
    obtain ⟨first, others⟩ := templatesThroughout_append.1 split
    exact ih (h.addTemplate first) others

/-! ### Opening and closing -/

theorem upholds_attach (h : b.Marked P ends) {f : Frame} (span : P f.opened.span.mark)
    (inner : ∀ m ∈ f.opened.inner, P m) (body : f.body.Marked P) :
    Upholds P (Builder.Marked P ends) (b.attach f) := by
  unfold attach
  split
  · next head hf =>
    rw [hf] at span inner
    exact .pure (h.append (throughout_element.2 ⟨List.forall_mem_cons.2 ⟨span, inner⟩, body.children⟩))
  · next head hf =>
    rw [hf] at span inner
    exact .pure (h.append (marked_control.2
      ⟨List.forall_mem_cons.2 ⟨span, inner⟩, body.templates, body.children⟩))
  · next head hf =>
    rw [hf] at span inner
    exact .pure (h.append (marked_collection.2
      ⟨List.forall_mem_cons.2 ⟨span, inner⟩, body.templates, body.children⟩))
  · next head hf =>
    rw [hf] at span
    refine Upholds.after (.modify fun s hs => ?_) fun _ => .pure (h.addTemplate
      (templatesThroughout_cons.2 ⟨span, body.children, templatesThroughout_nil⟩))
    refine { hs with templates := List.forall_mem_append.2 ⟨hs.templates, ?_⟩ }
    exact List.forall_mem_singleton.2 span

theorem upholds_enter (h : b.Marked P ends) (hasContent : Bool) {f : Frame}
    (hf : f.Marked P ends) : Upholds P (Builder.Marked P ends) (b.enter hasContent f) := by
  unfold enter
  split
  · exact .pure { h with stack := List.forall_mem_cons.2 ⟨hf, h.stack⟩ }
  · exact upholds_attach h hf.span.here hf.inner hf.body

theorem upholds_closeFrame (h : b.Marked P ends) {stop : Position} (mem : stop ∈ ends) :
    Upholds P (Builder.Marked P ends) (b.closeFrame stop) := by
  unfold closeFrame
  split
  · exact .pure h
  · next top rest hs =>
    obtain ⟨first, others⟩ := List.forall_mem_cons.1 (hs ▸ h.stack)
    refine upholds_attach (b := { b with stack := rest }) { h with stack := others } ?_ ?_ first.body
    · rw [Opened.span_endingAt]
      exact first.span.further stop mem
    · rw [Opened.inner_endingAt]
      exact first.inner

theorem upholds_closeFrames {stop : Position} (mem : stop ∈ ends) (frames : List Frame)
    (h : b.Marked P ends) : Upholds P (Builder.Marked P ends) (closeFrames stop frames b) := by
  induction frames generalizing b with
  | nil => exact .pure h
  | cons f frames ih => exact (upholds_closeFrame h mem).bind fun _ => ih

theorem upholds_addScript {script : OpenScript} (hs : script.Marked P ends) {stop : Position}
    (hp : P ({ script.span with stop } : Span).mark) :
    Upholds P (fun _ => True) (addScript script stop) := by
  refine .modify fun s marked => ?_
  refine { marked with scripts := List.forall_mem_append.2 ⟨marked.scripts, ?_⟩ }
  exact List.forall_mem_singleton.2
    (List.forall_mem_cons.2 ⟨hp, List.forall_mem_flatMap.2 hs.children⟩)

/-- The attributes that are left to bind are some of the tag's, in their order. -/
theorem gives_controlType (p : Project) (tag : TagName) (as : List Attribute) :
    Gives (p.controlType tag as) fun x => x.2.Sublist as := by
  refine (leaves_controlType p tag as).mono fun ⟨_, rest⟩ left => ?_
  obtain rfl | rfl := left
  · exact List.Sublist.refl rest
  · exact List.eraseP_sublist

theorem upholds_controlType (p : Project) {tag : TagName} (hp : P tag.span.mark)
    (as : List Attribute) : Upholds P (fun x => x.2 ⊆ as) (p.controlType tag as) := by
  have asks := (p.asks_controlType tag as).upholds (P := P) (by simp [Project.unknownControl, hp])
  exact (asks.and_gives (gives_controlType p tag as)).mono fun _ h => h.2.subset

/-- **A start tag keeps to the property** if it is sound for it. -/
theorem upholds_openTag (p : Project) (forget : Forgets P) (h : b.Marked P ends) {t : StartTag}
    (ht : t.Sound P ends) : Upholds P (Builder.Marked P ends) (b.openTag p t) := by
  have frame {opened : Opened} {children : List Node} {var : String} (span : opened.span = t.span)
      (inner : ∀ m ∈ opened.inner, P m) (children_ : ServerMarkup.Marked P children) :
      Frame.Marked P ends ⟨opened, t.tag, .start var children⟩ :=
    ⟨span ▸ ht.span, inner, Body.marked_start children_⟩
  refine ((p.asks_askAll _).upholds nofun).after fun _ => ?_
  unfold openAs
  dsimp only
  split
  · exact upholds_enter h.newVar _ (frame rfl (List.forall_mem_nil _) throughout_nil)
  · refine (upholds_bind p _ forget ht.attributes).bind fun bound hb => ?_
    exact upholds_enter h.newVar _ (frame rfl hb.bindings hb.children)
  split
  · unfold openScript
    dsimp only
    have script : OpenScript.Marked P ends ⟨b.newVar.1, t.span, []⟩ :=
      ⟨ht.span, List.forall_mem_nil _⟩
    split
    · refine .pure { h.newVar with script := fun s hs => ?_ }
      exact Option.some.inj hs ▸ script
    · exact (upholds_addScript script ht.span.here).after fun _ => .pure h.newVar
  split
  · refine (upholds_controlType p ht.name t.attributes).bind fun x sub => ?_
    refine (upholds_bind p _ forget fun a mem => ht.attributes a (sub mem)).bind fun bound hb => ?_
    refine upholds_enter h.newVar _ (frame rfl ?_ hb.children)
    refine List.forall_mem_append.2 ⟨List.forall_mem_append.2 ⟨ht.tag, ?_⟩, hb.bindings⟩
    simpa using hb.id
  · refine upholds_enter h.newVar _ (frame rfl (List.forall_mem_append.2 ⟨ht.tag, ?_⟩) throughout_nil)
    exact List.forall_mem_flatMap.2 fun a mem => (ht.attributes a mem).marks

theorem upholds_closeTag (h : b.Marked P ends) {tag : TagName} (hp : P tag.span.mark)
    {stop : Position} (mem : stop ∈ ends) :
    Upholds P (Builder.Marked P ends) (b.closeTag tag stop) := by
  unfold closeTag
  split
  · exact .pure h
  · dsimp only
    split
    · exact upholds_closeFrame h mem
    · exact (Upholds.report hp _ _).after fun _ => upholds_closeFrame h mem

/-! ### Scripts -/

theorem marked_addToScript (forget : Forgets P) {script : OpenScript} (hs : script.Marked P ends)
    {t : Token} (ht : P t.span.mark ∧ P t.text.mark) : (addToScript script t).Marked P ends := by
  unfold addToScript
  split
  · next span content found =>
    refine { hs with children := List.forall_mem_append.2 ⟨hs.children, ?_⟩ }
    refine List.forall_mem_singleton.2 ?_
    unfold scriptContent? at found
    split at found
    · cases found
      exact List.forall_mem_cons.2 ⟨forget _ ht.2, List.forall_mem_singleton.2 ht.2⟩
    · cases found
      exact List.forall_mem_cons.2 ⟨ht.1, List.forall_mem_singleton.2 ht.2⟩
    · cases found
  · exact hs

theorem upholds_scriptItem (forget : Forgets P) (h : b.Marked P ends) {script : OpenScript}
    (hs : b.script = some script) {item : Item} {stop : Position} (mem : stop ∈ ends)
    (tokens : ∀ t ∈ item.tokens, P t.span.mark ∧ P t.text.mark) :
    Upholds P (Builder.Marked P ends) (b.scriptItem script item stop) := by
  have marked := h.script script hs
  unfold scriptItem
  split
  · refine (upholds_addScript marked (marked.span.further stop mem)).after fun _ => ?_
    exact .pure { h with script := nofun }
  · refine .pure { h with script := fun s same => ?_ }
    obtain rfl := Option.some.inj same
    exact List.foldlRecOn item.tokens addToScript marked
      fun _ hs _ mem => marked_addToScript forget hs (tokens _ mem)

theorem upholds_finish (h : b.Marked P ends) {stop : Position} (mem : stop ∈ ends) :
    Upholds P (Body.Marked P) (b.finish stop) := by
  have closes : Upholds P (Body.Marked P)
      (closeFrames stop b.stack b >>= fun b' => pure b'.root) :=
    (upholds_closeFrames mem _ h).bind fun _ hb => .pure hb.root
  unfold finish
  split
  · next script hs =>
    have marked := h.script script hs
    exact (upholds_addScript marked (marked.span.further stop mem)).after fun _ => closes
  · exact closes

end Builder

/-! ### Files -/

section
variable {p : Project} {f : Parsing} {nested : Nested} {b : Builder} {item : Item}
  {items : List Item} {stop : Position}

/-- The files that a file includes keep to the property. -/
def Nested.Upholds (P : Mark → Prop) (p : Project) (f : Parsing) (nested : Nested) : Prop :=
  ∀ path text var outer, Includes p f ⟨path, text, f.paths⟩ →
    ServerMarkup.Upholds P (Body.Marked P) (nested path text var outer)

theorem upholds_includeFile (hn : nested.Upholds P p f) (h : b.Marked P ends)
    (file : b.file = f.file) (mem : item ∈ itemsOf (tokenize f.file f.text)) {reference : String}
    (names : item.form.reference? = some reference) {span : Span} (hp : P span.mark) :
    Upholds P (Builder.Marked P ends) (includeFile p f.paths nested b reference span) := by
  unfold includeFile
  dsimp only
  split
  · exact (Upholds.report hp _ _).after fun _ => .pure h
  next fresh =>
  split
  · exact (Upholds.report hp _ _).after fun _ => .pure h
  · have reads := ((p.asks_readFile (resolveReference b.file reference)).upholds (P := P)
      nofun).and_gives (gives_readFile p _)
    refine reads.bind fun text ⟨_, readable⟩ => ?_
    rw [file] at fresh readable ⊢
    refine Upholds.after (.modify fun s hs => ?_) fun _ => ?_
    · unfold Session.withDocument Document.addInclude
      dsimp only
      split
      · exact hs
      · exact { hs with }
    · refine (hn _ _ _ _ (.comment mem names rfl (Bool.eq_false_iff.2 fresh) readable)).bind ?_
      exact fun body hb => .pure ((h.newVar.append hb.children).addTemplates hb.templates)

/-- **An item keeps to the property** if it is sound for it. -/
theorem upholds_buildItem (forget : Forgets P) (hn : nested.Upholds P p f)
    (file : b.file = f.file) (mem : item ∈ itemsOf (tokenize f.file f.text))
    (sound : item.Sound P (endsOf stop items)) (h : b.Marked P (endsOf stop (item :: items))) :
    Upholds P (Builder.Marked P (endsOf stop items)) (buildItem p f.paths nested b item) := by
  have here : item.stop ∈ endsOf stop (item :: items) := List.mem_cons_self
  have later : endsOf stop items ⊆ endsOf stop (item :: items) := List.subset_cons_self _ _
  have form := sound.form
  unfold buildItem
  dsimp only
  split
  · next script hs =>
    exact (Builder.upholds_scriptItem forget h hs here sound.tokens).mono fun _ hb => hb.mono later
  cases hf : item.form with
  | text e =>
    rw [hf] at form
    exact .pure ((h.mono later).addLeaf (forget _ form) (List.forall_mem_singleton.2 form))
  | code kind e span =>
    rw [hf] at form
    exact .pure ((h.mono later).addLeaf form.1 (List.forall_mem_singleton.2 form.2))
  | comment e span =>
    rw [hf] at form
    dsimp only
    split
    · next reference names =>
      exact upholds_includeFile hn (h.mono later) file mem (by rw [hf]; exact names) form
    · exact .pure (h.mono later)
  | directive kind as span =>
    rw [hf] at form
    refine ((p.acts_direct _ kind as span).upholds forget form.2 form.1).after fun _ => .pure ?_
    refine (h.mono later).addLeaf form.1 (List.forall_mem_map.2 fun e he => ?_)
    obtain ⟨a, ha, same⟩ := mem_recordOf he
    exact same ▸ (form.2 a ha).2.1
  | startTag t =>
    rw [hf] at form
    exact Builder.upholds_openTag p forget (h.mono later) form
  | endTag tag =>
    rw [hf] at form
    exact (Builder.upholds_closeTag h form here).mono fun _ hb => hb.mono later
  | stray => exact .pure (h.mono later)

theorem upholds_buildItems (forget : Forgets P) (hn : nested.Upholds P p f)
    (file : b.file = f.file) (mem : ∀ item ∈ items, item ∈ itemsOf (tokenize f.file f.text))
    (sound : ItemsSound P stop items) (h : b.Marked P (endsOf stop items)) :
    Upholds P (Body.Marked P) (buildItems p f.paths nested b items stop) := by
  have built : Upholds P (fun b' => b'.Marked P [stop])
      (items.foldlM (buildItem p f.paths nested) b) := by
    induction items generalizing b with
    | nil => exact .pure h
    | cons item items ih =>
      obtain ⟨first, others⟩ := List.forall_mem_cons.1 mem
      rw [List.foldlM_cons]
      refine ((upholds_buildItem forget hn file first sound.1 h).and_gives
        (file_buildItem item)).bind fun b' hb => ?_
      exact ih (hb.2.trans file) others sound.2 hb.1
  exact built.bind fun b' hb => Builder.upholds_finish hb List.mem_cons_self

end

/-- The end of a file. -/
def Parsing.stop (f : Parsing) : Position :=
  ((tokenize f.file f.text).getLast?.map (·.span.stop)).getD .first

/-- **A file keeps to the property**, with all that it includes, if their items are sound for it. -/
theorem upholds_parseFile {p : Project} (forget : Forgets P) (depth : Nat) {f : Parsing}
    (sound : ∀ g, Relation.ReflTransGen (Includes p) f g →
      ItemsSound P g.stop (itemsOf (tokenize g.file g.text))) (var : String) (outer : Outer) :
    Upholds P (Body.Marked P) (parseFile p depth f.around f.file f.text var outer) := by
  induction depth generalizing f var outer with
  | zero => exact .pure (Body.marked_start throughout_nil)
  | succ depth ih =>
    refine upholds_buildItems (f := f) forget (fun path text var outer step => ?_) rfl
      (fun _ => id) (sound f .refl) (Builder.marked_start ..)
    exact ih (fun g chain => sound g (.head step chain)) var outer

end ServerMarkup
