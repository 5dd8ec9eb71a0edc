/-
# The tree nests like the source

While a file is built, the open tags stand one in another: each frame holds what has come since its
tag, and the frame around it what had come before (`Builder.Placed`).  An item adds at the end of
what the innermost frame holds, or closes that frame where the item ends, so this stays so, and when
all frames are closed every container of the tree is tidy and holds what stands in it, if a tag has
opened it (`tree_nests`).
-/

import ServerMarkup.Proofs.Content.Conservation
import ServerMarkup.Proofs.Naming.Distinct
import ServerMarkup.Proofs.Spans.Built
import ServerMarkup.Proofs.Spans.Collections
import ServerMarkup.Proofs.Spans.Placed

namespace ServerMarkup

/-- What stands in the container begins behind its first character. -/
def Container.Leads (c : Container) : Prop :=
  ∀ p ∈ c.nodes ++ c.templates, c.span.start.offset < p.start.offset

/-- What stands in the container is tidy, templates come in order, and all lies in its span, behind
its first character, if a tag has opened it; other containers are collections of attributes. -/
def Container.Nests (items : List Item) (c : Container) : Prop :=
  (c.Tidy ∧ c.templates.Pairwise Span.Before) ∧
    (c.Opened items ∧ c.Holds ∧ c.Leads ∨ c.kind = .collection ∧ c.Named items)

section
variable (items : List Item) (file : String)

/-- What stands in the body comes between two offsets, in order, and nests. -/
structure Body.Placed (lo hi : Nat) (b : Body) : Prop where
  nodes : InOrder file lo hi (b.children.map Node.span)
  templates : InOrder file lo hi (b.templates.map Template.span)
  apart : ∀ p ∈ b.children.map Node.span, ∀ q ∈ b.templates.map Template.span, p.Apart q
  below : Contained (Container.Nests items) b.children
  hosted : TemplatesContained (Container.Nests items) b.templates

/-- A tag has opened the frame, and what stands in it comes from there up to an offset. -/
structure Frame.Placed (hi : Nat) (f : Frame) : Prop where
  source : f.opened.span.file = file
  opened : ∃ item ∈ items, ∃ t, item.form = .startTag t ∧ t.span.start = f.opened.span.start
  start : f.opened.span.start.offset < hi
  body : f.body.Placed items file (f.opened.span.start.offset + 1) hi

/-- What stands in the frames comes up to an offset, and in those around them up to their tags. -/
def StackPlaced (root : Body) : Nat → List Frame → Prop
  | hi, [] => root.Placed items file 0 hi
  | hi, f :: rest => f.Placed items file hi ∧ StackPlaced root f.opened.span.start.offset rest

/-- All that the builder holds comes up to an offset. -/
def Builder.Placed (hi : Nat) (b : Builder) : Prop :=
  StackPlaced items file b.root hi b.stack

end

variable {items : List Item} {file : String} {lo hi mid : Nat}

/-! ### Bodies -/

namespace Body.Placed

variable {b : Body}

theorem mono (h : b.Placed items file lo mid) (le : mid ≤ hi) : b.Placed items file lo hi :=
  { h with
    nodes := h.nodes.mono (Nat.le_refl lo) le
    templates := h.templates.mono (Nat.le_refl lo) le }

/-- Nodes that come later. -/
theorem append (h : b.Placed items file lo mid) {ns : List Node}
    (hn : InOrder file mid hi (ns.map Node.span)) (nests : Contained (Container.Nests items) ns)
    (below : lo ≤ mid) (above : mid ≤ hi) : (b.append ns).Placed items file lo hi where
  nodes := by
    rw [Body.append, List.map_append]
    exact h.nodes.append hn below above
  templates := h.templates.mono (Nat.le_refl lo) above
  apart := by
    rw [Body.append, List.map_append]
    refine List.forall_mem_append.2 ⟨h.apart, fun p hp q hq => .inr ?_⟩
    exact Nat.le_trans (h.templates.each q hq).stop (hn.each p hp).start
  below := throughout_append.2 ⟨h.below, nests⟩
  hosted := h.hosted

/-- A template that comes later. -/
theorem addTemplate (h : b.Placed items file lo mid) {t : Template}
    (ht : t.span.Between file mid hi) (nests : TemplatesContained (Container.Nests items) [t])
    (below : lo ≤ mid) (above : mid ≤ hi) :
    Body.Placed items file lo hi { b with templates := b.templates ++ [t] } where
  nodes := h.nodes.mono (Nat.le_refl lo) above
  templates := by
    rw [List.map_append]
    exact h.templates.append (.singleton ht) below above
  apart := by
    intro p hp q hq
    rw [List.map_append] at hq
    obtain earlier | last := List.mem_append.1 hq
    · exact h.apart p hp q earlier
    · rw [List.mem_singleton.1 last]
      exact .inl (Nat.le_trans (h.nodes.each p hp).stop ht.start)
  below := h.below
  hosted := templatesThroughout_append.2 ⟨h.hosted, nests⟩

/-- The collections that attributes of a tag make stand in the tag. -/
theorem start {t : StartTag} (ht : t.Placed file lo hi)
    (opens : ∃ item ∈ items, item.form = .startTag t) {as : List Attribute}
    (sub : as.Sublist t.attributes) {ns : List Node} (h : Derived (as.map Attribute.span) ns)
    (var : String) :
    (Body.start var ns).Placed items file (t.span.start.offset + 1) t.span.stop.offset := by
  have order := ht.attributes.sublist (sub.map _)
  refine ⟨order.sublist h.top, .nil, fun _ _ => List.forall_mem_nil _, ?_, templatesThroughout_nil⟩
  refine h.below.mono fun c hc => ⟨?_, .inr ⟨hc.kind, ?_⟩⟩
  · rw [Container.Tidy, hc.templates]
    exact ⟨(order.sublist hc.nodes).tidy .nil fun _ _ => List.forall_mem_nil _, .nil⟩
  · obtain ⟨item, mem, form⟩ := opens
    obtain ⟨a, own, span⟩ := List.mem_map.1 hc.span
    exact ⟨item, mem, t, form, a, sub.subset own, span⟩

end Body.Placed

/-! ### Frames -/

namespace Frame.Placed

variable {f : Frame}

theorem mono (h : f.Placed items file mid) (le : mid ≤ hi) : f.Placed items file hi :=
  { h with start := Nat.lt_of_lt_of_le h.start le, body := h.body.mono le }

/-- A frame that ends behind what stands in it nests. -/
theorem nests (h : f.Placed items file hi) (stop : hi ≤ f.opened.span.stop.offset)
    (kind : ContainerKind) {ts : List Span}
    (sub : ts.Sublist (f.body.templates.map Template.span)) :
    Container.Nests items ⟨kind, f.opened.span, f.body.children.map Node.span, ts⟩ := by
  have templates := h.body.templates.sublist sub
  have between : ∀ p ∈ f.body.children.map Node.span ++ ts,
      p.Between file (f.opened.span.start.offset + 1) hi :=
    List.forall_mem_append.2 ⟨h.body.nodes.each, templates.each⟩
  have tidy := h.body.nodes.tidy templates fun p hp q hq => h.body.apart p hp q (sub.subset hq)
  refine ⟨⟨tidy, templates.before⟩, .inl ⟨h.opened, fun p mem => ?_, fun p mem => ?_⟩⟩
  · obtain ⟨own, start, -, last⟩ := between p mem
    exact ⟨own.trans h.source.symm, Nat.le_of_succ_le start, Nat.le_trans last stop⟩
  · exact (between p mem).start

end Frame.Placed

namespace StackPlaced

variable {root : Body} {stack : List Frame}

theorem mono (h : StackPlaced items file root mid stack) (le : mid ≤ hi) :
    StackPlaced items file root hi stack := by
  cases stack with
  | nil => exact Body.Placed.mono h le
  | cons f rest => exact ⟨h.1.mono le, h.2⟩

end StackPlaced

/-! ### Builders -/

namespace Builder

variable {b : Builder}

theorem Placed.mono (h : b.Placed items file mid) (le : mid ≤ hi) : b.Placed items file hi :=
  StackPlaced.mono h le

theorem placed_start (file var : String) (outer : Outer) :
    (start file var outer).Placed items file 0 :=
  ⟨.nil, .nil, fun _ => nofun, throughout_nil, templatesThroughout_nil⟩

theorem Placed.withBody (h : b.Placed items file lo) {f : Body → Body}
    (hf : ∀ start body, start ≤ lo → body.Placed items file start lo →
      (f body).Placed items file start hi) (le : lo ≤ hi) :
    (b.withBody f).Placed items file hi := by
  unfold Placed at h
  unfold Builder.withBody
  split
  · next hs =>
    rw [hs] at h
    unfold Placed
    rw [hs]
    exact hf 0 _ (Nat.zero_le lo) h
  · next top rest hs =>
    rw [hs] at h
    obtain ⟨first, others⟩ := h
    have body := hf _ _ first.start first.body
    exact ⟨⟨first.source, first.opened, Nat.lt_of_lt_of_le first.start le, body⟩, others⟩

theorem Placed.newVar (h : b.Placed items file lo) : b.newVar.2.Placed items file lo :=
  h.withBody (f := fun body => { body with next := body.next + 1 })
    (fun _ _ _ hb => { hb with }) (Nat.le_refl lo)

theorem Placed.append (h : b.Placed items file lo) {ns : List Node}
    (hn : InOrder file lo hi (ns.map Node.span)) (nests : Contained (Container.Nests items) ns)
    (le : lo ≤ hi) : (b.append ns).Placed items file hi :=
  h.withBody (fun _ _ start hb => hb.append hn nests start le) le

theorem Placed.addLeaf (h : b.Placed items file lo) {span : Span} (hp : span.Between file lo hi)
    (content : LeafContent) (le : lo ≤ hi) : (b.addLeaf span content).Placed items file hi :=
  h.newVar.append (.singleton hp) (contained_leaf _) le

/-- A template that closes where its nodes have come to an end. -/
theorem Placed.addTemplate (h : b.Placed items file lo) {t : Template}
    (ht : t.span.Between file lo hi) (hn : InOrder file lo hi (t.children.map Node.span))
    (nests : TemplatesContained (Container.Nests items) [t]) (le : lo ≤ hi) :
    (b.addTemplate t).Placed items file hi := by
  have below := (templatesThroughout_cons.1 nests).2.1
  unfold Builder.addTemplate
  split
  · exact h.append hn below le
  · exact h.append hn below le
  · exact h.withBody (fun _ _ start hb => hb.addTemplate ht nests start le) le

/-- A frame that is closed behind what stands in it adds what it has come to. -/
theorem placed_attach (h : b.Placed items file lo) {f : Frame} (hf : f.Placed items file hi)
    (below : lo ≤ f.opened.span.start.offset) (stop : hi ≤ f.opened.span.stop.offset) :
    Gives (b.attach f) (Placed items file f.opened.span.stop.offset) := by
  have filled := Nat.lt_of_lt_of_le hf.start stop
  have le : lo ≤ f.opened.span.stop.offset := Nat.le_trans below (Nat.le_of_lt filled)
  have span : f.opened.span.Between file lo f.opened.span.stop.offset :=
    ⟨hf.source, below, filled, Nat.le_refl _⟩
  have own := hf.nests stop
  have nodes := hf.body.nodes.mono (Nat.le_succ_of_le below) stop
  unfold attach
  split
  · next head ho =>
    rw [ho] at span own le ⊢
    exact .pure (h.append (.singleton span)
      (contained_element.2 ⟨own .element (List.nil_sublist _), hf.body.below⟩) le)
  · next head ho =>
    rw [ho] at span own le ⊢
    exact .pure (h.append (.singleton span) (contained_control.2
      ⟨own .control (List.Sublist.refl _), hf.body.hosted, hf.body.below⟩) le)
  · next head ho =>
    rw [ho] at span own le ⊢
    exact .pure (h.append (.singleton span) (contained_collection.2
      ⟨own .collection (List.Sublist.refl _), hf.body.hosted, hf.body.below⟩) le)
  · next head ho =>
    rw [ho] at span own nodes le ⊢
    exact .after fun _ => .pure (h.addTemplate (t := .mk head f.body.children) span nodes
      (templatesThroughout_cons.2
        ⟨own .template (List.nil_sublist _), hf.body.below, templatesThroughout_nil⟩) le)

/-- A frame that a tag opens stays open, or is closed where the tag ends. -/
theorem placed_enter (h : b.Placed items file lo) (hasContent : Bool) {f : Frame} {t : StartTag}
    (ht : t.Placed file lo hi) (opens : ∃ item ∈ items, item.form = .startTag t)
    (same : f.opened.span = t.span)
    (body : f.body.Placed items file (t.span.start.offset + 1) t.span.stop.offset) :
    Gives (b.enter hasContent f) (Placed items file hi) := by
  have span := ht.span
  have placed : f.Placed items file t.span.stop.offset := by
    obtain ⟨item, mem, form⟩ := opens
    rw [← same] at span body ⊢
    exact ⟨span.file, ⟨item, mem, t, form, by rw [same]⟩, span.filled, body⟩
  unfold enter
  split
  · refine .pure ⟨placed.mono span.stop, h.mono ?_⟩
    rw [same]
    exact span.start
  · refine (placed_attach h placed ?_ ?_).mono fun b' hb => hb.mono ?_
    all_goals rw [same]
    exacts [span.start, span.stop]

/-- A frame is closed behind all that stands in it. -/
theorem placed_closeFrame (h : b.Placed items file lo) {stop : Position} (le : lo ≤ stop.offset) :
    Gives (b.closeFrame stop) (Placed items file stop.offset) := by
  unfold closeFrame
  split
  · exact .pure (h.mono le)
  · next top rest hs =>
    unfold Placed at h
    rw [hs] at h
    obtain ⟨first, others⟩ := h
    have closed : Frame.Placed items file lo { top with opened := top.opened.endingAt stop } := by
      refine ⟨?_, ?_, ?_, ?_⟩
      all_goals dsimp only; rw [Opened.span_endingAt]
      exacts [first.source, first.opened, first.start, first.body]
    have below : StackPlaced items file b.root top.opened.span.start.offset rest := others
    have attached := placed_attach (b := { b with stack := rest }) below closed
    dsimp only at attached
    rw [Opened.span_endingAt] at attached
    exact attached (Nat.le_refl _) le

theorem placed_closeFrames {stop : Position} (frames : List Frame) :
    ∀ (b : Builder) lo, b.Placed items file lo → lo ≤ stop.offset →
      Gives (closeFrames stop frames b) (Placed items file stop.offset) := by
  induction frames with
  | nil => exact fun b lo h le => .pure (h.mono le)
  | cons f frames ih =>
    exact fun b lo h le => (placed_closeFrame h le).bind fun b' hb =>
      ih b' _ hb (Nat.le_refl _)

/-- **When all frames are closed, all of the file has its place.** -/
theorem placed_finish (h : b.Placed items file lo) {stop : Position} (le : lo ≤ stop.offset) :
    Gives (b.finish stop) (Body.Placed items file 0 stop.offset) := by
  have closes : Gives (closeFrames stop b.stack b >>= fun b' => pure b'.root)
      (Body.Placed items file 0 stop.offset) := by
    intro s body s' run
    rw [run_bind] at run
    rcases hr : (closeFrames stop b.stack b).run.run s with ⟨_ | b', s₁⟩
    · rw [hr] at run
      cases run
    · rw [hr] at run
      cases run
      have placed := placed_closeFrames b.stack b lo h le s b' s' hr
      have empty := (b.gives_closeFrames stop rfl s b' s' hr).1
      unfold Placed at placed
      rwa [empty] at placed
  unfold finish
  split
  · exact .after fun _ => closes
  · exact closes

/-- **What a start tag opens has its place.** -/
theorem placed_openTag (p : Project) (h : b.Placed items file lo) {t : StartTag}
    (ht : t.Placed file lo hi) (opens : ∃ item ∈ items, item.form = .startTag t) :
    Gives (b.openTag p t) (Placed items file hi) := by
  have le : lo ≤ hi :=
    Nat.le_trans ht.span.start (Nat.le_trans (Nat.le_of_lt ht.span.filled) ht.span.stop)
  have enter {as : List Attribute} (sub : as.Sublist t.attributes) {ns : List Node}
      (derived : Derived (as.map Attribute.span) ns) {opened : Opened} (same : opened.span = t.span)
      (var : String) : Gives (b.newVar.2.enter (hasContent t) ⟨opened, t.tag, .start var ns⟩)
        (Placed items file hi) :=
    placed_enter h.newVar _ ht opens same (Body.Placed.start ht opens sub derived var)
  have bare {opened : Opened} (same : opened.span = t.span) (var : String) :
      Gives (b.newVar.2.enter (hasContent t) ⟨opened, t.tag, .start var []⟩)
        (Placed items file hi) :=
    enter (List.nil_sublist _) derived_nil same var
  unfold openTag
  refine .after fun _ => ?_
  unfold openAs
  dsimp only
  split
  · exact bare rfl _
  · exact (derived_bind p _ _).bind fun bound derived => enter (List.Sublist.refl _) derived rfl _
  split
  · unfold openScript
    dsimp only
    split
    · exact .pure (h.newVar.mono le)
    · exact .after fun _ => .pure (h.newVar.mono le)
  split
  · refine (gives_controlType p _ _).bind fun x sub => ?_
    exact (derived_bind p _ _).bind fun bound derived => enter sub derived rfl _
  · exact bare rfl _

theorem placed_closeTag (h : b.Placed items file lo) (tag : TagName) {stop : Position}
    (le : lo ≤ stop.offset) : Gives (b.closeTag tag stop) (Placed items file stop.offset) := by
  unfold closeTag
  split
  · exact .pure (h.mono le)
  · dsimp only
    split
    · exact placed_closeFrame h le
    · exact .after fun _ => placed_closeFrame h le

theorem placed_scriptItem (h : b.Placed items file lo) (script : OpenScript) (item : Item)
    {stop : Position} (le : lo ≤ stop.offset) :
    Gives (b.scriptItem script item stop) (Placed items file stop.offset) := by
  unfold scriptItem
  split
  · exact .after fun _ => .pure (h.mono le)
  · exact .pure (h.mono le)

end Builder

/-! ### Items -/

section
variable (p : Project) (parsing : List String) (nested : Nested) {b b' : Builder}
  {s s' : Session}

/-- A file that is included is on record, so without such files an include comment leaves the
builder as it is. -/
theorem eq_of_includeFile (hn : nested.Sound) {reference : String} {span : Span}
    (run : (includeFile p parsing nested b reference span).run.run s = (.ok b', s'))
    (alone : s'.document.includes = []) : b' = b := by
  unfold includeFile at run
  dsimp only at run
  split at run
  · cases run
    rfl
  split at run
  · cases run
    rfl
  · exfalso
    rw [run_bind] at run
    split at run
    · next text s₁ read =>
      have recorded := includes_addInclude s₁.document (resolveReference b.file reference)
        (contentHash text)
      change (nested _ text b.newVar.1 _ >>= _).run.run (s₁.withDocument (·.addInclude _ _)) = _
        at run
      rw [run_bind] at run
      split at run
      · next body s₂ built =>
        cases run
        exact recorded ((hn _ _ _ _ _ _ _ built).1.1 alone)
      · cases run
    · cases run

/-- **An item adds behind all that has come before it**, and up to where it ends. -/
theorem placed_buildItem (hn : nested.Sound) {item : Item} (mem : item ∈ items)
    (h : b.Placed items file lo) (le : lo ≤ item.stop.offset)
    (placed : item.form.Placed file lo item.stop.offset)
    (run : (buildItem p parsing nested b item).run.run s = (.ok b', s'))
    (alone : s'.document.includes = []) : b'.Placed items file item.stop.offset := by
  have of {x : Parse Builder} (hx : Gives x (Builder.Placed items file item.stop.offset))
      (run : x.run.run s = (.ok b', s')) : b'.Placed items file item.stop.offset :=
    hx s b' s' run
  unfold buildItem at run
  dsimp only at run
  split at run
  · exact of (Builder.placed_scriptItem h _ item le) run
  cases hf : item.form with
  | text e =>
    rw [hf] at run placed
    exact of (.pure (h.addLeaf placed _ le)) run
  | code kind e span =>
    rw [hf] at run placed
    exact of (.pure (h.addLeaf placed _ le)) run
  | comment e span =>
    rw [hf] at run
    dsimp only at run
    split at run
    · rw [eq_of_includeFile p parsing nested hn run alone]
      exact h.mono le
    · exact of (.pure (h.mono le)) run
  | directive kind as span =>
    rw [hf] at run placed
    exact of (.after fun _ => .pure (h.addLeaf placed _ le)) run
  | startTag t =>
    rw [hf] at run placed
    exact of (Builder.placed_openTag p h placed ⟨item, mem, hf⟩) run
  | endTag tag =>
    rw [hf] at run
    exact of (Builder.placed_closeTag h tag le) run
  | stray =>
    rw [hf] at run
    exact of (.pure (h.mono le)) run

/-- What has been built of some items stands up to where they end. -/
theorem placed_foldlM (hn : nested.Sound) {some : List Item} (sub : some ⊆ items)
    (run : (some.foldlM (buildItem p parsing nested) b).run.run s = (.ok b', s')) (sound : b.Sound)
    (alone : s'.document.includes = []) (h : b.Placed items file lo)
    (placed : ItemsPlaced file hi lo some) : b'.Placed items file hi := by
  induction some generalizing b s lo with
  | nil =>
    cases run
    exact h.mono placed
  | cons item rest ih =>
    obtain ⟨le, first, others⟩ := placed
    rw [List.foldlM_cons, run_bind] at run
    split at run
    · next b₁ s₁ built =>
      have grown := adds_buildItem p parsing nested hn sound s b₁ s₁ built
      have alone₁ := ((adds_foldlM p parsing nested hn grown.sound run).held alone).1
      exact ih (fun i hi => sub (List.mem_cons_of_mem item hi)) run grown.sound
        (placed_buildItem p parsing nested hn (sub List.mem_cons_self) h le first built alone₁)
        others
    · cases run

end

/-! ### The tree of a file -/

/-- **All of a file that includes no other one has its place.** -/
theorem Project.placed_of_run {p : Project} {path text : String} {registry : Registry} {body : Body}
    {s : Session} (run : p.run path text registry = (.ok body, s))
    (alone : s.document.includes = []) :
    ∃ hi, body.Placed (itemsOf (tokenize (normalPath path) text)) (normalPath path) 0 hi := by
  obtain ⟨b, s₁, built, finish⟩ := Project.exists_finish_of_run run
  have held := holds_tokenize (normalPath path) text
  have sound := sound_parseFile p (includeDepth p (normalPath path) text - 1) [normalPath path]
  have grown := adds_foldlM p _ _ sound (Builder.sound_start _ _ .none) built
  have alone₁ := ((b.held_finish grown.sound finish).2 alone).1
  have order := held.itemsPlaced 0 (Nat.zero_le _) fun u mem =>
    ⟨Nat.zero_le _, held.stop_le_end mem⟩
  have placed := placed_foldlM p _ _ sound (List.Subset.refl _) built
    (Builder.sound_start _ _ .none) alone₁ (Builder.placed_start _ _ _) order
  exact ⟨_, Builder.placed_finish placed (Nat.le_refl _) s₁ body s finish⟩

/-- A container with the span of an attribute is opened by no tag. -/
theorem Container.Named.not_opened {file text : String} {c : Container}
    (named : c.Named (itemsOf (tokenize file text))) :
    ¬ c.Opened (itemsOf (tokenize file text)) := by
  rintro ⟨item, mem, t, form, start⟩
  obtain ⟨item', mem', t', form', a, own, span⟩ := named
  have held := holds_tokenize file text
  exact held.start_ne_of_attribute mem form mem' form' own (by rw [span, start])

/-- **The tree nests like the source.**  In a file that includes no other one the nodes at the top
are tidy, and so is what stands in each container; and it lies in the span of the container if a tag
has opened that, as it has all but the collections of attributes. -/
theorem tree_nests {p : Project} {path text : String} {registry : Registry} {body : Body}
    {s : Session} (run : p.run path text registry = (.ok body, s))
    (alone : s.document.includes = []) :
    let items := itemsOf (tokenize (normalPath path) text)
    let d := (s.completed body.children).document
    Tidy (d.children.map Node.span) [] ∧
      ∀ c ∈ containersOf d.children, c.Tidy ∧ (c.Opened items ∧ c.Holds ∨
        ¬ c.Opened items ∧ c.kind = .collection ∧ c.Named items) := by
  intro items d
  obtain ⟨hi, root⟩ := Project.placed_of_run run alone
  refine ⟨root.nodes.tidy .nil fun _ _ => List.forall_mem_nil _, fun c mem => ?_⟩
  obtain ⟨⟨tidy, -⟩, ⟨opened, holds, -⟩ | ⟨kind, named⟩⟩ := root.below c mem
  · exact ⟨tidy, .inl ⟨opened, holds⟩⟩
  · exact ⟨tidy, .inr ⟨named.not_opened, kind, named⟩⟩

/-- A page with a template between the nodes of a control that its end cuts off; the control has
attributes, too, and the second of them puts a collection in that of the first. -/
def cutGrid : String :=
  "<asp:Grid runat=server rows-text=x rows-cells-text=y><Rows>b</Rows><Head>a</Head>c"

/-- All containers of the page nest, though the collection of its first attribute does not hold
that of the second. -/
theorem cutGrid_nests : ∃ body s,
    Project.run .grid "page.aspx" cutGrid .empty = (.ok body, s) ∧ s.document.includes = [] ∧
      let items := itemsOf (tokenize (normalPath "page.aspx") cutGrid)
      let d := (s.completed body.children).document
      (containersOf d.children).map Container.kind =
        [.control, .template, .collection, .collection, .collection] ∧
      (∃ c ∈ containersOf d.children, ¬ c.Holds) ∧ Tidy (d.children.map Node.span) [] ∧
        ∀ c ∈ containersOf d.children, c.Tidy ∧ (c.Opened items ∧ c.Holds ∨
          ¬ c.Opened items ∧ c.kind = .collection ∧ c.Named items) := by
  obtain ⟨body, s, run, check⟩ := exists_of_check (Project.run .grid "page.aspx" cutGrid .empty)
    (fun body s => s.document.includes.isEmpty &&
      let containers := containersOf (s.completed body.children).document.children
      containers.map Container.kind ==
          [.control, .template, .collection, .collection, .collection] &&
        decide (∃ c ∈ containers, ¬ c.Holds))
    (by decide +kernel)
  simp only [Bool.and_eq_true, beq_iff_eq, decide_eq_true_eq, List.isEmpty_iff] at check
  obtain ⟨alone, kinds, outside⟩ := check
  exact ⟨body, s, run, alone, kinds, outside, tree_nests run alone⟩

end ServerMarkup
