/-
# What a builder holds

A builder holds what the leaves in its bodies and in the open script hold, and the session holds the
scripts that are finished.  `Builder.held` is all of it together.  The order in which it is held
changes when a frame is closed and when a script is finished, so it is counted: `Adds b cs x` says
that `x`, if it returns a builder, leaves all that `b` holds and adds `cs`, and nothing else unless a
file is included, which brings what it holds itself.

Nothing is lost on the way because the frames are `Sound`.  Elements and templates pass the
templates that close in them on as nodes and keep none, so closing them may forget their list of
templates; and a template opens only in a typed node, so none is left in a file that is not
included.
-/

import ServerMarkup.Proofs.Content.Leaves
import ServerMarkup.Proofs.Parse.Frames

namespace ServerMarkup

/-! ### Sound frames -/

/-- Whether the node has a type, and so may have templates. -/
def Opened.isTyped : Opened → Bool
  | control _ | collection _ => true
  | element _ | template _ => false

namespace Opened

@[simp] theorem isTyped_endingAt (o : Opened) (stop : Position) :
    (o.endingAt stop).isTyped = o.isTyped := by
  cases o <;> rfl

@[simp] theorem isTemplate_endingAt (o : Opened) (stop : Position) :
    (o.endingAt stop).isTemplate = o.isTemplate := by
  cases o <;> rfl

end Opened

/-- The type of the node around the place behind the open tags. -/
def typeAround (outer : Outer) : List Frame → Option TypeRef
  | [] => outer.type
  | top :: _ =>
    match top.opened with
    | .control h => some h.type
    | .collection h => some h.type
    | .element _ | .template _ => none

/-- Only typed nodes have templates, and templates stand only in typed nodes. -/
inductive SoundFrames (outer : Outer) : List Frame → Prop where
  | nil : SoundFrames outer []
  | cons {top rest} (below : SoundFrames outer rest)
      (kept : top.opened.isTyped = false → top.body.templates = [])
      (hosted : top.opened.isTemplate = true → typeAround outer rest ≠ none) :
      SoundFrames outer (top :: rest)

namespace Builder

/-- The frames are sound, and the file itself has templates only if it stands in a typed node. -/
structure Sound (b : Builder) : Prop where
  frames : SoundFrames b.outer b.stack
  root : b.outer.type = none → b.root.templates = []

theorem sound_start (file var : String) (outer : Outer) : (start file var outer).Sound :=
  ⟨.nil, fun _ => rfl⟩

theorem enclosing_fst (b : Builder) : b.enclosing.1 = typeAround b.outer b.stack := by
  unfold enclosing typeAround
  cases b.stack with
  | nil => rfl
  | cons top rest =>
    dsimp only
    cases top.opened <;> rfl

variable {b : Builder}

theorem Sound.withBody {f : Body → Body} (h : b.Sound)
    (same : ∀ body, (f body).templates = body.templates) : (b.withBody f).Sound := by
  obtain ⟨frames, root⟩ := h
  unfold Builder.withBody
  split
  · exact ⟨frames, fun none => (same _).trans (root none)⟩
  · next top rest hs =>
    rw [hs] at frames
    cases frames with
    | cons below kept hosted =>
      exact ⟨.cons below (fun plain => (same _).trans (kept plain)) hosted, root⟩

theorem outer_withBody (b : Builder) (f : Body → Body) : (b.withBody f).outer = b.outer := by
  unfold withBody
  split <;> rfl

theorem outer_newVar (b : Builder) : b.newVar.2.outer = b.outer :=
  b.outer_withBody _

theorem outer_addLeaf (b : Builder) (span : Span) (content : LeafContent) :
    (b.addLeaf span content).outer = b.outer :=
  (b.newVar.2.outer_withBody _).trans b.outer_newVar

theorem Sound.newVar (h : b.Sound) : b.newVar.2.Sound :=
  h.withBody (f := fun body => { body with next := body.next + 1 }) fun _ => rfl

theorem Sound.append (h : b.Sound) (ns : List Node) : (b.append ns).Sound :=
  h.withBody fun _ => rfl

theorem Sound.addLeaf (h : b.Sound) (span : Span) (content : LeafContent) :
    (b.addLeaf span content).Sound :=
  h.newVar.append _

/-- A template is kept by the typed node around it. -/
theorem Sound.addTemplate (h : b.Sound) (around : typeAround b.outer b.stack ≠ none)
    (t : Template) : (b.addTemplate t).Sound := by
  unfold Builder.addTemplate
  split
  · exact h.append _
  · exact h.append _
  · next notElement notTemplate =>
    obtain ⟨frames, root⟩ := h
    unfold Builder.withBody
    split
    · next hs =>
      rw [hs] at around
      exact ⟨frames, fun none => absurd none around⟩
    · next top rest hs =>
      rw [hs] at frames notElement notTemplate
      cases frames with
      | cons below kept hosted =>
        refine ⟨.cons below (fun plain => ?_) hosted, root⟩
        cases ho : top.opened <;> simp_all [Opened.isTyped]

end Builder

/-! ### Contents -/

/-- What the leaves in the body hold. -/
def Body.contents (b : Body) : List LeafContent :=
  ServerMarkup.contents b.children ++ templateContents b.templates

/-- What the parts of the script hold. -/
def OpenScript.contents (s : OpenScript) : List LeafContent :=
  s.children.map Leaf.content

namespace Builder

/-- What the leaves in the bodies and in the open script hold. -/
def contents (b : Builder) : List LeafContent :=
  b.root.contents ++ b.stack.flatMap (·.body.contents) ++
    (b.script.map OpenScript.contents).getD []

/-- What the builder and the scripts of the session hold. -/
def held (b : Builder) (s : Session) : List LeafContent :=
  b.contents ++ s.document.scriptContents

variable {b : Builder} {cs : List LeafContent}

theorem contents_withBody {f : Body → Body}
    (h : ∀ body, (f body).contents.Perm (body.contents ++ cs)) :
    (b.withBody f).contents.Perm (b.contents ++ cs) := by
  have count (body : Body) (c : LeafContent) :
      (f body).contents.count c = body.contents.count c + cs.count c := by
    rw [(h body).count_eq, List.count_append]
  rw [List.perm_iff_count]
  intro c
  unfold withBody contents
  split
  · next hs =>
    simp only [List.count_append, count, hs]
    omega
  · next top rest hs =>
    simp only [List.count_append, List.flatMap_cons, count, hs]
    omega

theorem contents_newVar (b : Builder) : b.newVar.2.contents.Perm b.contents := by
  have same : b.newVar.2.contents.Perm (b.contents ++ []) :=
    b.contents_withBody fun body => by simp [Body.contents]
  rwa [List.append_nil] at same

theorem contents_append (b : Builder) (ns : List Node) :
    (b.append ns).contents.Perm (b.contents ++ ServerMarkup.contents ns) := by
  refine b.contents_withBody fun body => ?_
  rw [List.perm_iff_count]
  intro c
  simp only [Body.contents, Body.append, ServerMarkup.contents_append, List.count_append]
  omega

theorem contents_addLeaf (b : Builder) (span : Span) (content : LeafContent) :
    (b.addLeaf span content).contents.Perm (b.contents ++ [content]) :=
  (contents_append _ _).trans (b.contents_newVar.append_right _)

theorem contents_addTemplate (b : Builder) (t : Template) :
    (b.addTemplate t).contents.Perm (b.contents ++ ServerMarkup.contents t.children) := by
  unfold addTemplate
  split
  · exact b.contents_append _
  · exact b.contents_append _
  · refine b.contents_withBody fun body => ?_
    rw [Body.contents, templateContents_append, templateContents_cons, templateContents_nil,
      List.append_nil, ← List.append_assoc]
    exact .refl _

end Builder

/-! ### Steps that add contents -/

/-- The builder `b'` and the session `s'` hold what `b` and `s` do and `cs`, and what included files
have brought, if there are any by then. -/
structure Grown (b : Builder) (s : Session) (cs : List LeafContent) (b' : Builder) (s' : Session) :
    Prop where
  outer : b'.outer = b.outer
  sound : b'.Sound
  brings : ∃ brought, (b'.held s').Perm (b.held s ++ cs ++ brought) ∧
    (s'.document.includes = [] → s.document.includes = [] ∧ brought = [])

namespace Grown

variable {b b₁ b' : Builder} {s s₁ s' : Session} {cs ds : List LeafContent}

/-- Nothing is brought. -/
theorem alone (outer : b'.outer = b.outer) (sound : b'.Sound)
    (includes : s'.document.includes = s.document.includes)
    (held : (b'.held s').Perm (b.held s ++ cs)) : Grown b s cs b' s' :=
  ⟨outer, sound, [], by rwa [List.append_nil], fun none => ⟨includes ▸ none, rfl⟩⟩

theorem held (h : Grown b s cs b' s') (none : s'.document.includes = []) :
    s.document.includes = [] ∧ (b'.held s').Perm (b.held s ++ cs) := by
  obtain ⟨brought, held, nothing⟩ := h.brings
  obtain ⟨none₀, rfl⟩ := nothing none
  rw [List.append_nil] at held
  exact ⟨none₀, held⟩

/-- What has been held and what has been added are held. -/
theorem mem_held (h : Grown b s cs b' s') {c : LeafContent} (mem : c ∈ b.held s ∨ c ∈ cs) :
    c ∈ b'.held s' := by
  obtain ⟨brought, held, -⟩ := h.brings
  exact held.mem_iff.2 (List.mem_append_left _ (List.mem_append.2 mem))

theorem trans (first : Grown b s cs b₁ s₁) (second : Grown b₁ s₁ ds b' s') :
    Grown b s (cs ++ ds) b' s' := by
  obtain ⟨brought₁, held₁, nothing₁⟩ := first.brings
  obtain ⟨brought₂, held₂, nothing₂⟩ := second.brings
  refine ⟨second.outer.trans first.outer, second.sound, brought₁ ++ brought₂, ?_, fun none => ?_⟩
  · rw [List.perm_iff_count] at held₁ held₂ ⊢
    intro c
    have h₁ := held₁ c
    have h₂ := held₂ c
    simp only [List.count_append] at h₁ h₂ ⊢
    omega
  · obtain ⟨none₁, rfl⟩ := nothing₂ none
    obtain ⟨none₀, rfl⟩ := nothing₁ none₁
    exact ⟨none₀, rfl⟩

end Grown

/-- The step adds `cs` to what the builder `b` and the session hold. -/
def Adds (b : Builder) (cs : List LeafContent) (x : Parse Builder) : Prop :=
  b.Sound → ∀ s b' s', x.run.run s = (.ok b', s') → Grown b s cs b' s'

/-- The step leaves the included files and the scripts as they are. -/
def Spares {α : Type} (x : Parse α) : Prop :=
  ∀ s, (x.run.run s).2.document.includes = s.document.includes ∧
    (x.run.run s).2.document.scripts = s.document.scripts

theorem Aside.spares {α : Type} {x : Parse α} (h : Aside x) : Spares x :=
  fun s => ⟨congrArg Ledger.includes (h.ledger_eq s), congrArg Ledger.scripts (h.ledger_eq s)⟩

namespace Adds

variable {α : Type} {b b₁ : Builder} {cs ds : List LeafContent}

/-- The step returns a builder that holds more. -/
theorem pure (outer : b₁.outer = b.outer) (sound : b.Sound → b₁.Sound)
    (held : b₁.contents.Perm (b.contents ++ cs)) : Adds b cs (Pure.pure b₁) := by
  rintro sound₀ s b' s' hr
  cases hr
  refine .alone outer (sound sound₀) rfl ?_
  rw [List.perm_iff_count] at held ⊢
  intro c
  have := held c
  simp only [Builder.held, List.count_append] at this ⊢
  omega

/-- The step goes on after one that spares what the session holds. -/
theorem after {x : Parse α} {f : α → Parse Builder} {P : α → Prop} (spares : Spares x)
    (gives : Gives x P) (hf : ∀ a, P a → Adds b cs (f a)) : Adds b cs (x >>= f) := by
  intro sound s b' s' hr
  obtain ⟨includes, scripts⟩ := spares s
  rw [run_bind] at hr
  rcases hx : x.run.run s with ⟨_ | a, s₁⟩
  · rw [hx] at hr
    cases hr
  · rw [hx] at hr includes scripts
    have grown := hf a (gives s a s₁ hx) sound s₁ b' s' hr
    have same : b.held s₁ = b.held s := by
      rw [Builder.held, Builder.held, Document.scriptContents, Document.scriptContents, scripts]
    exact ⟨grown.outer, grown.sound, includes ▸ same ▸ grown.brings⟩

theorem after_aside {x : Parse α} {f : α → Parse Builder} (aside : Aside x)
    (hf : ∀ a, Adds b cs (f a)) : Adds b cs (x >>= f) :=
  after (P := fun _ => True) aside.spares (fun _ _ _ _ => trivial) fun a _ => hf a

/-- The step goes on from a builder that holds more. -/
theorem onward {x : Parse Builder} (outer : b₁.outer = b.outer) (sound : b.Sound → b₁.Sound)
    (held : b₁.contents.Perm (b.contents ++ ds)) (hx : Adds b₁ cs x) : Adds b (ds ++ cs) x := by
  intro sound₀ s b' s' hr
  have grown := hx (sound sound₀) s b' s' hr
  obtain ⟨brought, holds, nothing⟩ := grown.brings
  refine ⟨grown.outer.trans outer, grown.sound, brought, ?_, nothing⟩
  rw [List.perm_iff_count] at held holds ⊢
  intro c
  have h₁ := held c
  have h₂ := holds c
  simp only [Builder.held, List.count_append] at h₁ h₂ ⊢
  omega

/-- The step goes on with the next variable. -/
theorem newVar {x : Parse Builder} (hx : Adds b.newVar.2 cs x) : Adds b cs x := by
  have held : b.newVar.2.contents.Perm (b.contents ++ []) := by
    rw [List.append_nil]
    exact b.contents_newVar
  exact onward b.outer_newVar Builder.Sound.newVar held hx

/-- Two steps one after the other. -/
theorem bind {x : Parse Builder} {f : Builder → Parse Builder} (hx : Adds b cs x)
    (hf : ∀ b₁, b₁.outer = b.outer → Adds b₁ ds (f b₁)) : Adds b (cs ++ ds) (x >>= f) := by
  intro sound s b' s' hr
  rw [run_bind] at hr
  rcases hr₁ : x.run.run s with ⟨_ | b₁, s₁⟩
  · rw [hr₁] at hr
    cases hr
  · rw [hr₁] at hr
    have first := hx sound s b₁ s₁ hr₁
    have second := hf b₁ first.outer first.sound s₁ b' s' hr
    exact first.trans second

end Adds

namespace Builder

variable (b : Builder)

/-- What joins a body does not change the nodes around it. -/
theorem typeAround_withBody (f : Body → Body) :
    typeAround (b.withBody f).outer (b.withBody f).stack = typeAround b.outer b.stack := by
  unfold withBody
  split
  · next hs => rw [hs]
  · next top rest hs => rw [hs]; rfl

theorem typeAround_addTemplate (t : Template) :
    typeAround (b.addTemplate t).outer (b.addTemplate t).stack = typeAround b.outer b.stack := by
  unfold addTemplate
  split <;> exact b.typeAround_withBody _

theorem adds_append (ns : List Node) :
    Adds b (ServerMarkup.contents ns) (Pure.pure (b.append ns)) :=
  .pure (b.outer_withBody _) (·.append ns) (b.contents_append ns)

theorem outer_addTemplate (t : Template) : (b.addTemplate t).outer = b.outer :=
  view_addTemplate outer_withBody b t

/-! ### Frames -/

/-- A closed frame passes on what it holds. -/
theorem adds_attach {f : Frame} (kept : f.opened.isTyped = false → f.body.templates = [])
    (hosted : f.opened.isTemplate = true → typeAround b.outer b.stack ≠ none) :
    Adds b f.body.contents (b.attach f) := by
  unfold attach
  split
  · next h ho =>
    have none := kept (by rw [ho]; rfl)
    have same := b.adds_append [.element h f.body.children]
    simpa [Body.contents, none] using same
  · next h ho =>
    refine .pure (b.outer_withBody _) (·.append _) ((b.contents_append _).trans ?_)
    rw [contents_control, Body.contents]
    exact List.perm_append_comm.append_left _
  · next h ho =>
    refine .pure (b.outer_withBody _) (·.append _) ((b.contents_append _).trans ?_)
    rw [contents_collection, Body.contents]
    exact List.perm_append_comm.append_left _
  · next h ho =>
    have none := kept (by rw [ho]; rfl)
    have around := hosted (by rw [ho]; rfl)
    refine .after (P := fun _ => True) (fun s => ⟨rfl, rfl⟩) (fun _ _ _ _ => trivial) fun _ _ => ?_
    refine .pure (b.outer_addTemplate _) (·.addTemplate around _)
      ((b.contents_addTemplate _).trans ?_)
    simp [Body.contents, none, Template.children]

/-- A frame is opened with what it holds from the start. -/
theorem adds_enter {f : Frame} (hasContent : Bool)
    (kept : f.opened.isTyped = false → f.body.templates = [])
    (hosted : f.opened.isTemplate = true → typeAround b.outer b.stack ≠ none) :
    Adds b f.body.contents (b.enter hasContent f) := by
  unfold enter
  split
  · refine .pure rfl (fun sound => ⟨.cons sound.frames kept hosted, sound.root⟩) ?_
    rw [List.perm_iff_count]
    intro c
    simp only [contents, List.flatMap_cons, List.count_append]
    omega
  · exact b.adds_attach kept hosted

theorem adds_closeFrame (stop : Position) : Adds b [] (b.closeFrame stop) := by
  unfold closeFrame
  split
  · exact .pure rfl id (by rw [List.append_nil])
  · next top rest hs =>
    intro sound
    have frames := sound.frames
    rw [hs] at frames
    cases frames with
    | cons below kept hosted =>
      have closed := adds_attach { b with stack := rest }
        (f := { top with opened := top.opened.endingAt stop })
        (by simpa using kept) (by simpa using hosted)
      intro s b' s' hr
      have grown := closed ⟨below, sound.root⟩ s b' s' hr
      obtain ⟨brought, holds, nothing⟩ := grown.brings
      refine ⟨grown.outer, grown.sound, brought, holds.trans (.append_right _ ?_), nothing⟩
      rw [List.perm_iff_count]
      intro c
      simp only [held, contents, hs, List.flatMap_cons, List.count_append, List.count_nil]
      omega

theorem adds_closeFrames (stop : Position) (frames : List Frame) :
    Adds b [] (closeFrames stop frames b) := by
  induction frames generalizing b with
  | nil => exact .pure rfl id (by rw [List.append_nil])
  | cons f rest ih => exact (b.adds_closeFrame stop).bind fun b₁ _ => ih b₁

theorem adds_closeTag (tag : TagName) (stop : Position) : Adds b [] (b.closeTag tag stop) := by
  unfold closeTag
  split
  · exact .pure rfl id (by rw [List.append_nil])
  · dsimp only
    split
    · exact b.adds_closeFrame stop
    · exact .after_aside (.modify fun _ _ => rfl) fun _ => b.adds_closeFrame stop

/-! ### Start tags -/

theorem gives_bind (p : Project) (owner : Owner) (as : List Attribute) :
    Gives (bind p owner as) fun bound => ServerMarkup.contents bound.children = [] := by
  intro s bound s' hr
  have held := contents_bindAttributes p.resolver owner s as
  rwa [bindAttributes_of_run hr] at held

theorem adds_openTemplate (t : StartTag) (property : String)
    (around : typeAround b.outer b.stack ≠ none) : Adds b [] (b.openTemplate t property) := by
  refine .newVar (b.newVar.2.adds_enter (hasContent t) (fun _ => rfl) fun _ => ?_)
  rwa [newVar, typeAround_withBody]

theorem adds_openElement (t : StartTag) : Adds b [] (b.openElement t) :=
  .newVar (b.newVar.2.adds_enter (hasContent t) (fun _ => rfl) fun h => Bool.noConfusion h)

theorem contents_start {var : String} {ns : List Node} (h : ServerMarkup.contents ns = []) :
    (Body.start var ns).contents = [] := by
  simp [Body.contents, Body.start, h]

theorem adds_openCollection (p : Project) (t : StartTag) (m : Member) :
    Adds b [] (b.openCollection p t m) := by
  refine .newVar (.after (mild_bind p _ _).aside.spares (gives_bind p _ _) fun bound hb => ?_)
  rw [← contents_start hb]
  exact b.newVar.2.adds_enter (hasContent t) (fun _ => rfl) fun h => Bool.noConfusion h

theorem adds_openControl (p : Project) (t : StartTag) : Adds b [] (b.openControl p t) := by
  refine .after_aside (p.mild_controlType _ _).aside fun _ => ?_
  refine .newVar (.after (mild_bind p _ _).aside.spares (gives_bind p _ _) fun bound hb => ?_)
  rw [← contents_start hb]
  exact b.newVar.2.adds_enter (hasContent t) (fun _ => rfl) fun h => Bool.noConfusion h

/-- A finished script is held by the session. -/
theorem adds_addScript {b₁ : Builder} {cs : List LeafContent} (script : OpenScript)
    (stop : Position) (outer : b₁.outer = b.outer) (sound : b.Sound → b₁.Sound)
    (held : (b₁.contents ++ script.contents).Perm (b.contents ++ cs)) :
    Adds b cs (addScript script stop >>= fun _ => Pure.pure b₁) := by
  rintro sound₀ s b' s' hr
  cases hr
  refine .alone outer (sound sound₀) rfl ?_
  rw [List.perm_iff_count] at held ⊢
  intro c
  have := held c
  simp only [Builder.held, Document.scriptContents, Session.withDocument, List.flatMap_append,
    List.flatMap_singleton, OpenScript.contents, List.count_append] at this ⊢
  omega

theorem adds_openScript (t : StartTag) (outside : b.script = none) :
    Adds b [] (b.openScript t) := by
  have outside' : b.newVar.2.script = none := by
    unfold newVar withBody
    dsimp only
    split <;> exact outside
  refine .newVar ?_
  unfold openScript
  dsimp only
  split
  · refine .pure rfl (fun sound => ⟨sound.frames, sound.root⟩) ?_
    simp [contents, outside', OpenScript.contents]
  · exact adds_addScript _ _ _ rfl id (.refl _)

/-- A start tag adds nothing by itself. -/
theorem adds_openTag (p : Project) (t : StartTag) (outside : b.script = none) :
    Adds b [] (b.openTag p t) := by
  unfold openTag
  refine .after_aside ((p.asks_askAll _).mild nofun).aside fun _ => ?_
  unfold openAs
  dsimp only
  split
  · next m hm =>
    refine b.adds_openTemplate t _ ?_
    rw [← b.enclosing_fst]
    intro none
    split at hm <;> simp [none] at hm
  · exact b.adds_openCollection p t _
  · split
    · exact b.adds_openScript t outside
    split
    · exact b.adds_openControl p t
    · exact b.adds_openElement t

end Builder

end ServerMarkup
