/-
# The growth of the tree of a file

Each item takes the builder from one stage to another by steps of growth (`leads_buildItem`): a leaf
and a tag take a variable, a closing tag closes a slot, and an included file takes a variable and
then grows by steps of its own in the slot for it.  So all items of a file do, and with the end of
the file there is one slot left and the tree holds all labels (`grows_parseFile`).

The start tags that are met on the way are those of the file and of the files that it includes, one
in the other (`Met`).
-/

import ServerMarkup.Parse.Output
import ServerMarkup.Proofs.Include.Calls
import ServerMarkup.Proofs.Tree.Frames

namespace ServerMarkup

/-- The start tag stands in the innermost file or in one that a chain of files from there includes. -/
def Met (p : Project) (f : Parsing) (t : StartTag) : Prop :=
  ∃ g, Relation.ReflTransGen (Includes p) f g ∧
    ∃ item ∈ itemsOf (tokenize g.file g.text), item.form = .startTag t

/-! ### IDs -/

theorem id?_of_itemtype {a : Attribute} (h : a.name.isNamed "itemtype" = true) : a.id? = none := by
  have other : a.name.isNamed "id" = false := by
    rw [Excerpt.isNamed, sameName_iff] at h
    rw [Excerpt.isNamed, sameName, h]
    decide +kernel
  rw [Attribute.id?, other]
  rfl

/-- An `ItemType` that has given a control its type takes no ID away. -/
theorem ids_controlType (p : Project) (tag : TagName) (as : List Attribute) :
    Gives (p.controlType tag as) fun x =>
      x.2.filterMap Attribute.id? = as.filterMap Attribute.id? :=
  (leaves_controlType p tag as).mono fun _ left => left.filterMap_eq fun _ => id?_of_itemtype

namespace Builder

variable {p : Project} {r : TypeResolver} {met : StartTag → Prop} {b b' : Builder} {s s' : Session}
  {t : StartTag}

/-! ### Start tags -/

theorem step_opened {new : List Label} (outside : b.script = none) (taken : Taken b.newVar.1 new) :
    Stage.Step r met (b.stage s) (b.opened s new) := by
  rw [stage_of_outside outside]
  exact .take taken

/-- A session that has only been written in, but for the fields and scripts, makes no stage of its
own. -/
theorem step_calm (calm : Calmed s s') : Stage.Step r met (b.stage s) (b.stage s') := by
  rw [stage, stage, calm.scriptLabels, calm.fields]
  exact .note (.refl _) calm.diagnostics

theorem leads_addLeaf (outside : b.script = none) (span : Span) (content : LeafContent) :
    Stage.Leads r met (b.stage s) ((b.addLeaf span content).stage s) := by
  have joined := b.newVar.2.joined_append [.leaf ⟨span, b.newVar.1, content⟩]
  simp only [labelsAll_cons, labelsAll_nil, Node.labels, List.append_nil, inTemplate_newVar]
    at joined
  exact .head (step_opened outside (.plain b.inTemplate)) (.head .close
    (.single (step_joined outside joined (.refl s))))

theorem leads_openTemplate {property : String} (outside : b.script = none)
    (around : typeAround b.outer b.stack ≠ none)
    (run : (b.openTemplate t property).run.run s = (.ok b', s')) :
    Stage.Leads r met (b.stage s) (b'.stage s') := by
  refine .head (step_opened outside (.template b.inTemplate)) ?_
  have enter : Stage.Leads r met _ _ :=
    leads_enter outside rfl (fun _ => rfl) (fun _ => around) run
  simpa [Frame.labels, Body.labels, Body.start, Opened.var, Opened.role, newVar] using enter

theorem leads_openElement (outside : b.script = none)
    (run : (b.openElement t).run.run s = (.ok b', s')) :
    Stage.Leads r met (b.stage s) (b'.stage s') := by
  refine .head (step_opened outside (.plain b.inTemplate)) ?_
  have enter : Stage.Leads r met _ _ :=
    leads_enter outside rfl (fun _ => rfl) (fun h => Bool.noConfusion h) run
  simpa [Frame.labels, Body.labels, Body.start, Opened.var, Opened.role, newVar] using enter

/-- A typed node takes its variable and binds its attributes. -/
theorem step_bind {owner : Owner} {as : List Attribute} {bound : Bound} (outside : b.script = none)
    (var : owner.var = b.newVar.1) (tag : met t) (ids : as.filterMap Attribute.id? = t.ids)
    (run : (bind p owner as).run.run s = (.ok bound, s')) :
    Stage.Step p.resolver met (b.stage s) (b.opened s' (owner.labels bound)) := by
  have scripts : s'.document.scriptLabels = s.document.scriptLabels := by
    have kept := congrArg Ledger.scripts ((mild_bind p owner as).aside.ledger_eq s)
    rw [run] at kept
    change s'.document.scripts = s.document.scripts at kept
    rw [Document.scriptLabels, Document.scriptLabels, kept]
  have binds : bindAttributes p.resolver owner s as = (s', bound) := bindAttributes_of_run run
  rw [stage_of_outside outside, opened, scripts]
  exact .bind var tag ids binds

theorem leads_openCollection {m : Member} (outside : b.script = none) (tag : met t)
    (run : (b.openCollection p t m).run.run s = (.ok b', s')) :
    Stage.Leads p.resolver met (b.stage s) (b'.stage s') := by
  obtain ⟨bound, s₁, binds, enters⟩ := exists_of_run_bind run
  refine .head (step_bind outside rfl tag rfl binds) ?_
  have enter : Stage.Leads p.resolver met _ _ :=
    leads_enter outside rfl (fun _ => rfl) (fun h => Bool.noConfusion h) enters
  simpa [Frame.labels, Body.labels, Body.start, Opened.var, Opened.role, Opened.isTemplate,
    Owner.labels, Owner.label] using enter

theorem leads_openControl (outside : b.script = none) (tag : met t)
    (run : (b.openControl p t).run.run s = (.ok b', s')) :
    Stage.Leads p.resolver met (b.stage s) (b'.stage s') := by
  obtain ⟨⟨type, as⟩, s₁, typed, rest⟩ := exists_of_run_bind run
  have ids := ids_controlType p t.tag t.attributes s (type, as) s₁ typed
  have calm := (p.asks_controlType t.tag t.attributes).reports.calm s
  rw [typed] at calm
  obtain ⟨bound, s₂, binds, enters⟩ := exists_of_run_bind rest
  refine .head (step_calm calm) (.head (step_bind outside rfl tag ids binds) ?_)
  have enter : Stage.Leads p.resolver met _ _ :=
    leads_enter outside rfl (fun _ => rfl) (fun h => Bool.noConfusion h) enters
  simpa [Frame.labels, Body.labels, Body.start, Opened.var, Opened.role, Opened.isTemplate,
    Owner.labels, Owner.label, ControlHead.declaration] using enter

/-! ### Scripts -/

theorem scriptLabels_addScript (d : Document) (block : ScriptBlock) :
    { d with scripts := d.scripts ++ [block] }.scriptLabels =
      d.scriptLabels ++ block.children.map fun l => ⟨l.var, .plain, false⟩ := by
  simp [Document.scriptLabels]

/-- A finished script passes its labels to the session and closes its slot. -/
theorem leads_addScript {script : OpenScript} {stop : Position} (h : b.script = some script)
    (run : (addScript script stop).run.run s = (.ok (), s')) :
    Stage.Leads r met (b.stage s) ({ b with script := none }.stage s') := by
  cases run
  have passed : Stage.Step r met (b.stage s) ⟨script.slot :: b.bodySlots,
      b.labels ++ (s.document.scriptLabels ++ script.labels), s.document.fields,
      s.diagnostics⟩ := by
    rw [stage, h]
    refine .note ?_ List.prefix_rfl
    rw [Option.map_some, Option.getD_some, List.append_assoc]
    exact List.perm_append_comm.append_left _
  refine .head passed (.single ?_)
  simp only [stage, Session.withDocument, scriptLabels_addScript, Option.map_none, Option.getD_none,
    List.append_nil]
  exact .close

theorem leads_openScript (outside : b.script = none)
    (run : (b.openScript t).run.run s = (.ok b', s')) :
    Stage.Leads r met (b.stage s) (b'.stage s') := by
  have taken : Stage.Step r met (b.stage s) (b.opened s []) := step_opened outside .nothing
  unfold openScript at run
  dsimp only at run
  split at run
  · cases run
    have labels := b.labels_newVar
    refine .head taken (.single ?_)
    simp only [stage, opened, Option.map_some, Option.toList_some, List.singleton_append]
    change Stage.Step r met _ ⟨⟨b.newVar.1, 0⟩ :: b.newVar.2.bodySlots, _, _, _⟩
    rw [b.bodySlots_newVar]
    refine .note ?_ List.prefix_rfl
    simpa [OpenScript.labels, Builder.labels] using labels.append_right _
  · cases run
    refine .head taken (.head .close ?_)
    have joined : Joined b.newVar.2 [] b.newVar.2 := ⟨by simp, rfl, rfl⟩
    have step : Stage.Step r met _ _ := step_joined outside joined (.refl s)
    refine .head step (.single ?_)
    simp only [stage, Session.withDocument, scriptLabels_addScript, List.map_nil, List.append_nil]
    exact .note (.refl _) List.prefix_rfl

/-- A part of a script takes a variable. -/
theorem leads_addToScript {script : OpenScript} (h : b.script = some script) (t : Token) :
    Stage.Leads r met (b.stage s) ({ b with script := some (addToScript script t) }.stage s) := by
  unfold addToScript
  split
  · next span content _ =>
    obtain ⟨l, hl⟩ : ∃ l : Leaf, l = ⟨span, script.slot.fresh, content⟩ := ⟨_, rfl⟩
    change Stage.Leads r met _ ({ b with script := some { script with
      children := script.children ++ [(⟨span, script.slot.fresh, content⟩ : Leaf)] } }.stage s)
    rw [← hl]
    have taken : Stage.Step r met (b.stage s)
        ⟨⟨script.slot.fresh, 0⟩ :: script.slot.bumped :: b.bodySlots,
          b.labels ++ script.labels ++ s.document.scriptLabels ++
            [⟨l.var, .plain, false⟩], s.document.fields, s.diagnostics⟩ := by
      rw [stage, h, hl]
      exact .take (.plain false)
    have slot : { script with children := script.children ++ [l] }.slot = script.slot.bumped := by
      simp [Slot.bumped, OpenScript.slot]
    refine .head taken (.head .close (.single ?_))
    rw [stage, Option.map_some, slot]
    refine .note ?_ List.prefix_rfl
    simp only [labels, Option.map_some, Option.getD_some, OpenScript.labels, List.map_append,
      List.map_cons, List.map_nil, List.append_assoc]
    exact ((List.perm_append_comm.append_left _).append_left _).append_left _
  · rw [← h]

/-- Each part of a script takes a variable of its own. -/
theorem leads_addTokens {script : OpenScript} (h : b.script = some script) (ts : List Token) :
    Stage.Leads r met (b.stage s)
      ({ b with script := some (ts.foldl addToScript script) }.stage s) := by
  induction ts generalizing b script with
  | nil =>
    rw [List.foldl_nil, ← h]
  | cons t ts ih =>
    exact (leads_addToScript h t).trans
      (ih (b := { b with script := some (addToScript script t) }) rfl)

theorem leads_scriptItem {script : OpenScript} {item : Item} {stop : Position}
    (h : b.script = some script) (run : (b.scriptItem script item stop).run.run s = (.ok b', s')) :
    Stage.Leads r met (b.stage s) (b'.stage s') := by
  unfold scriptItem at run
  split at run
  · obtain ⟨_, s₁, added, ends⟩ := exists_of_run_bind run
    cases ends
    exact leads_addScript h added
  · cases run
    exact leads_addTokens h item.tokens

/-! ### Tags -/

/-- A start tag takes a variable. -/
theorem leads_openTag (outside : b.script = none) (tag : met t)
    (run : (b.openTag p t).run.run s = (.ok b', s')) :
    Stage.Leads p.resolver met (b.stage s) (b'.stage s') := by
  obtain ⟨_, s₁, asked, opens⟩ := exists_of_run_bind run
  obtain ⟨result, same⟩ := p.exists_run_askAll (b.tagQuestions t)
  rw [same] at asked
  cases asked
  unfold openAs at opens
  dsimp only at opens
  split at opens
  · next m hm =>
    refine leads_openTemplate outside ?_ opens
    rw [← b.enclosing_fst]
    intro none
    split at hm <;> simp [none] at hm
  · exact leads_openCollection outside tag opens
  · split at opens
    · exact leads_openScript outside opens
    split at opens
    · exact leads_openControl outside tag opens
    · exact leads_openElement outside opens

theorem leads_closeTag {tag : TagName} {stop : Position} (sound : b.Sound)
    (outside : b.script = none) (run : (b.closeTag tag stop).run.run s = (.ok b', s')) :
    Stage.Leads r met (b.stage s) (b'.stage s') := by
  unfold closeTag at run
  split at run
  · cases run
    exact .refl
  · dsimp only at run
    split at run
    · exact leads_closeFrame sound outside run
    · obtain ⟨_, s₁, reported, closes⟩ := exists_of_run_bind run
      cases reported
      exact .head (step_calm (.report s _ _ _)) (leads_closeFrame sound outside closes)

/-- The end of a file closes all slots but its own. -/
theorem leads_finish {stop : Position} {body : Body} (sound : b.Sound)
    (run : (b.finish stop).run.run s = (.ok body, s')) :
    Stage.Leads r met (b.stage s) ⟨[body.slot],
      body.labels b.outer.template ++ s'.document.scriptLabels, s'.document.fields,
      s'.diagnostics⟩ := by
  -- the frames are closed with the script still in its place, but that leaves it aside
  have closed {s₁ : Session} (run :
      (closeFrames stop b.stack b >>= fun b' => Pure.pure b'.root).run.run s₁ = (.ok body, s')) :
      Stage.Leads r met ({ b with script := none }.stage s₁) ⟨[body.slot],
        body.labels b.outer.template ++ s'.document.scriptLabels, s'.document.fields,
        s'.diagnostics⟩ := by
    obtain ⟨b', s₂, closes, ends⟩ := exists_of_run_bind run
    cases ends
    obtain ⟨labels, slot, outer, calm⟩ := joined_closeFrames sound rfl closes
    obtain ⟨empty, -⟩ := b.gives_closeFrames stop rfl s₁ b' s' closes
    rw [slot, calm.scriptLabels, calm.fields]
    refine .trans (Stage.leads_close (b.stack.map (·.body.slot)) b.root.slot _ _ _) (.single ?_)
    refine .note ?_ calm.diagnostics
    rw [Builder.labels, empty, outer] at labels
    simpa [framesLabels, Builder.labels] using labels.append_right s₁.document.scriptLabels
  unfold finish at run
  split at run
  · next script hs =>
    obtain ⟨_, s₁, added, closes⟩ := exists_of_run_bind run
    exact (leads_addScript hs added).trans (closed closes)
  · next other =>
    have outside : b.script = none := Option.eq_none_iff_forall_ne_some.2 fun script => other script
    have same : { b with script := none } = b := by rw [← outside]
    rw [same] at closed
    exact closed run

end Builder

/-! ### Included files -/

/-- The trees of nested files grow by steps, with the start tags that are met in them. -/
def Nested.Grows (nested : Nested) (r : TypeResolver)
    (met : (path text : String) → StartTag → Prop) : Prop :=
  ∀ path text var outer s body s', (nested path text var outer).run.run s = (.ok body, s') →
    Stage.Leads r (met path text)
      ⟨[⟨var, 0⟩], s.document.scriptLabels, s.document.fields, s.diagnostics⟩
      ⟨[body.slot], body.labels outer.template ++ s'.document.scriptLabels, s'.document.fields,
        s'.diagnostics⟩

section
variable {p : Project} {f : Parsing} {nested : Nested} {b b' : Builder} {s s' : Session}
  {item : Item}

theorem calm_addInclude (s : Session) (path hash : String) :
    Calmed s (s.withDocument (·.addInclude path hash)) := by
  unfold Session.withDocument Document.addInclude
  dsimp only
  split <;> exact ⟨rfl, rfl, List.prefix_rfl⟩

/-- An included file grows in a slot of its own. -/
theorem leads_includeFile {reference : String} {span : Span} (outside : b.script = none)
    (file : b.file = f.file) (mem : item ∈ itemsOf (tokenize f.file f.text))
    (names : item.form.reference? = some reference) (sound : nested.Sound)
    (grows : nested.Grows p.resolver fun path text => Met p ⟨path, text, f.paths⟩)
    (run : (includeFile p f.paths nested b reference span).run.run s = (.ok b', s')) :
    Stage.Leads p.resolver (Met p f) (b.stage s) (b'.stage s') := by
  unfold includeFile at run
  dsimp only at run
  split at run
  · obtain ⟨_, s₁, reported, ends⟩ := exists_of_run_bind run
    cases reported
    cases ends
    exact .single (Builder.step_calm (.report s _ _ _))
  next fresh =>
  split at run
  · obtain ⟨_, s₁, reported, ends⟩ := exists_of_run_bind run
    cases reported
    cases ends
    exact .single (Builder.step_calm (.report s _ _ _))
  obtain ⟨text, s₀, read, rest⟩ := exists_of_run_bind run
  obtain ⟨_, s₁, recorded, rest⟩ := exists_of_run_bind rest
  obtain ⟨body, s₂, parsed, ends⟩ := exists_of_run_bind rest
  cases ends
  have readable := gives_readFile p _ s text s₀ read
  have calm₀ : Calmed s s₀ := by
    have calm := (p.asks_readFile (resolveReference b.file reference)).reports.calm s
    rwa [read] at calm
  have calm₁ : Calmed s₀ s₁ := by
    cases recorded
    exact calm_addInclude _ _ _
  rw [file] at fresh readable parsed
  have step : Includes p f ⟨resolveReference f.file reference, text, f.paths⟩ :=
    .comment mem names rfl (Bool.eq_false_iff.2 fresh) readable
  -- the tree of the file grows above the slots of the including one
  have grown := (grows _ _ _ _ _ _ _ parsed).under (b.body.slot.bumped :: b.outerSlots) b.labels
  have inner : Stage.Leads p.resolver (Met p f) _ _ :=
    grown.mono fun t ⟨g, chain, tag⟩ => ⟨g, .head step chain, tag⟩
  have joined : Builder.Joined b.newVar.2
      (labelsAll b.inTemplate body.children ++ templateLabels b.inTemplate body.templates)
      (body.templates.foldl Builder.addTemplate (b.newVar.2.append body.children)) := by
    have children := b.newVar.2.joined_append body.children
    have around : body.templates ≠ [] → typeAround (b.newVar.2.append body.children).outer
        (b.newVar.2.append body.children).stack ≠ none := by
      rw [Builder.append, Builder.typeAround_withBody, Builder.newVar,
        Builder.typeAround_withBody, ← b.enclosing_fst]
      exact fun filled none => filled ((sound _ _ _ _ _ _ _ parsed).2 none)
    have templates := Builder.joined_addTemplates around
    rw [Builder.append, Builder.inTemplate_withBody, b.inTemplate_newVar] at templates
    rw [b.inTemplate_newVar] at children
    exact children.trans templates
  refine .head (Builder.step_calm (calm₀.trans calm₁)) ?_
  refine .head (Builder.step_opened outside .nothing) ?_
  have swapped : (s₁.document.scriptLabels ++ b.labels).Perm
      (b.labels ++ s₁.document.scriptLabels ++ []) := by
    rw [List.append_nil]
    exact List.perm_append_comm
  refine .head (.note swapped List.prefix_rfl) ?_
  refine .trans inner (.head .close (.head (.note ?_ List.prefix_rfl)
    (.single (Builder.step_joined outside joined (.refl s')))))
  rw [List.perm_iff_count]
  intro l
  simp only [Body.labels, List.count_append]
  omega

/-- **An item takes the tree from one stage to another.** -/
theorem leads_buildItem (file : b.file = f.file)
    (mem : item ∈ itemsOf (tokenize f.file f.text)) (sound : b.Sound) (hn : nested.Sound)
    (grows : nested.Grows p.resolver fun path text => Met p ⟨path, text, f.paths⟩)
    (run : (buildItem p f.paths nested b item).run.run s = (.ok b', s')) :
    Stage.Leads p.resolver (Met p f) (b.stage s) (b'.stage s') := by
  unfold buildItem at run
  dsimp only at run
  split at run
  · next script hs => exact Builder.leads_scriptItem hs run
  next outside =>
  cases hf : item.form with
  | text e =>
    rw [hf] at run
    cases run
    exact Builder.leads_addLeaf outside _ _
  | code kind e span =>
    rw [hf] at run
    cases run
    exact Builder.leads_addLeaf outside _ _
  | comment e span =>
    simp only [hf] at run
    split at run
    · next reference names =>
      exact leads_includeFile outside file mem (by rw [hf]; exact names) hn grows run
    · cases run
      exact .refl
  | directive kind as span =>
    simp only [hf] at run
    obtain ⟨_, s₁, directed, ends⟩ := exists_of_run_bind run
    cases ends
    have calm := (p.acts_direct b.file kind as span).calm s
    change (p.direct (b.addLeaf _ _).file _ _ _).run.run s = _ at directed
    rw [Builder.file_addLeaf] at directed
    rw [directed] at calm
    exact (Builder.leads_addLeaf outside _ _).tail (Builder.step_calm calm)
  | startTag t =>
    rw [hf] at run
    exact Builder.leads_openTag outside ⟨f, .refl, item, mem, hf⟩ run
  | endTag tag =>
    rw [hf] at run
    exact Builder.leads_closeTag sound outside run
  | stray =>
    rw [hf] at run
    cases run
    exact .refl

/-- **A run takes the tree from one stage to another.** -/
theorem leads_foldlM {items : List Item} (file : b.file = f.file)
    (mem : ∀ item ∈ items, item ∈ itemsOf (tokenize f.file f.text)) (sound : b.Sound)
    (hn : nested.Sound)
    (grows : nested.Grows p.resolver fun path text => Met p ⟨path, text, f.paths⟩)
    (run : (items.foldlM (buildItem p f.paths nested) b).run.run s = (.ok b', s')) :
    Stage.Leads p.resolver (Met p f) (b.stage s) (b'.stage s') := by
  induction items generalizing b s with
  | nil =>
    cases run
    exact .refl
  | cons item items ih =>
    obtain ⟨first, others⟩ := List.forall_mem_cons.1 mem
    rw [List.foldlM_cons] at run
    obtain ⟨b₁, s₁, built, rest⟩ := exists_of_run_bind run
    have kept := (file_buildItem item s b₁ s₁ built).trans file
    have grown := adds_buildItem p f.paths nested hn sound s b₁ s₁ built
    exact (leads_buildItem file first sound hn grows built).trans (ih kept others grown.sound rest)

end

/-- **The tree of a file grows by steps**, and at the end it holds all labels. -/
theorem grows_parseFile (p : Project) (depth : Nat) (parsing : List String) :
    (parseFile p depth parsing).Grows p.resolver fun path text => Met p ⟨path, text, parsing⟩ := by
  induction depth generalizing parsing with
  | zero =>
    intro path text var outer s body s' run
    cases run
    have labels : (Body.start var []).labels outer.template = [] := by
      simp [Body.labels, Body.start]
    rw [labels]
    exact .refl
  | succ depth ih =>
    intro path text var outer s body s' run
    rw [parseFile] at run
    obtain ⟨b, s₁, built, finish⟩ := exists_of_run_bind run
    have start := Builder.sound_start path var outer
    have sound := sound_parseFile p depth (path :: parsing)
    have grown := adds_foldlM p _ _ sound start built
    have leads := leads_foldlM (f := ⟨path, text, parsing⟩) rfl (fun _ => id) start sound
      (ih (path :: parsing)) built
    have ends : Stage.Leads p.resolver (Met p ⟨path, text, parsing⟩) _ _ :=
      Builder.leads_finish grown.sound finish
    rw [grown.outer] at ends
    have first : (Builder.start path var outer).stage s =
        ⟨[⟨var, 0⟩], s.document.scriptLabels, s.document.fields, s.diagnostics⟩ := by
      simp [Builder.stage, Builder.start, Builder.bodySlots, Builder.labels, framesLabels,
        Body.labels, Body.start, Body.slot]
    rw [first] at leads
    exact leads.trans ends

/-- **A parse that succeeds grows the tree of the file** from nothing, in the slot of the file. -/
theorem Project.leads_run {p : Project} {path text : String} {registry : Registry} {body : Body}
    {s : Session} (run : p.run path text registry = (.ok body, s)) :
    Stage.Leads p.resolver (Met p ⟨normalPath path, text, []⟩) ⟨[⟨"ctrl", 0⟩], [], [], []⟩
      ⟨[body.slot], (s.completed body.children).document.labels, s.document.fields,
        s.diagnostics⟩ := by
  have grown := grows_parseFile p (includeDepth p (normalPath path) text) [] _ _ _ _ _ _ _ run
  have bare := (sound_parseFile p _ _ _ _ _ _ _ _ _ run).2 rfl
  have labels : body.labels false ++ s.document.scriptLabels =
      (s.completed body.children).document.labels := by
    rw [Body.labels, bare, templateLabels_nil]
    rfl
  obtain ⟨imports, start⟩ := Session.exists_start p.options (normalPath path) text
    (registry.addDefaults p.options)
  rw [start] at grown
  change Stage.Leads _ _ _ ⟨_, body.labels false ++ _, _, _⟩ at grown
  rwa [labels] at grown

/-- A run whose result passes a check has succeeded. -/
theorem exists_of_check (x : Except Failure Body × Session) (check : Body → Session → Bool)
    (h : (x.1.toOption.any fun body => check body x.2) = true) :
    ∃ body s, x = (.ok body, s) ∧ check body s = true := by
  obtain ⟨_ | body, s⟩ := x
  · cases h
  · exact ⟨body, s, rfl, by simpa [Except.toOption] using h⟩

end ServerMarkup
