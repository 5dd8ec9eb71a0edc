/-
# The stages of a builder

A builder that is under way holds the labels of the nodes in its bodies and of its open tags, and of
the parts of the open script; the session holds those of the scripts that are finished.  Its slots
are those of the open script, of the frames, and of the file.  Together they are the stage of the
tree (`Builder.stage`).

Joining nodes to the current body and closing frames changes no slot that is left (`Joined`), so
opening a tag is a step that takes a variable, and for a tag without content one that closes its
slot again (`Builder.leads_enter`).
-/

import ServerMarkup.Proofs.Content.Fed
import ServerMarkup.Proofs.Include.Hosted
import ServerMarkup.Proofs.Parse.Reports
import ServerMarkup.Proofs.Tree.Stages

namespace ServerMarkup

/-- A run of two steps that returns something is a run of each. -/
theorem exists_of_run_bind {α β : Type} {x : Parse α} {f : α → Parse β} {s s' : Session} {b : β}
    (h : (x >>= f).run.run s = (.ok b, s')) :
    ∃ a s₁, x.run.run s = (.ok a, s₁) ∧ (f a).run.run s₁ = (.ok b, s') := by
  rw [run_bind] at h
  rcases hr : x.run.run s with ⟨_ | a, s₁⟩
  · rw [hr] at h
    cases h
  · rw [hr] at h
    exact ⟨a, s₁, rfl, h⟩

theorem Calmed.scriptLabels {s s' : Session} (h : Calmed s s') :
    s'.document.scriptLabels = s.document.scriptLabels := by
  rw [Document.scriptLabels, Document.scriptLabels, h.scripts]

/-! ### Labels and slots -/

/-- What the tag of a node or template is. -/
def Opened.role : Opened → Role
  | element _ | collection _ => .plain
  | control h => .control h.declaration
  | template h => .template h.className

namespace Opened

@[simp] theorem var_endingAt (o : Opened) (stop : Position) : (o.endingAt stop).var = o.var := by
  cases o <;> rfl

@[simp] theorem role_endingAt (o : Opened) (stop : Position) : (o.endingAt stop).role = o.role := by
  cases o <;> rfl

end Opened

namespace Body

/-- The labels of what stands in the body. -/
def labels (inTemplate : Bool) (b : Body) : List Label :=
  templateLabels inTemplate b.templates ++ labelsAll inTemplate b.children

/-- Where the variables of the body are given out. -/
def slot (b : Body) : Slot :=
  ⟨b.var, b.next⟩

end Body

/-- The labels of the open tag and of what stands in it. -/
def Frame.labels (inTemplate : Bool) (f : Frame) : List Label :=
  ⟨f.opened.var, f.opened.role, inTemplate⟩ :: f.body.labels (inTemplate || f.opened.isTemplate)

/-- The labels of the open tags and of what stands in them; `inTemplate` says whether the file stands
in a template. -/
def framesLabels (inTemplate : Bool) : List Frame → List Label
  | [] => []
  | f :: rest =>
    f.labels (inTemplate || rest.any (·.opened.isTemplate)) ++ framesLabels inTemplate rest

namespace OpenScript

/-- The labels of the parts of the script. -/
def labels (s : OpenScript) : List Label :=
  s.children.map fun l => ⟨l.var, .plain, false⟩

/-- Where the variables of the parts are given out. -/
def slot (s : OpenScript) : Slot :=
  ⟨s.var, s.children.length⟩

end OpenScript

namespace Builder

/-- The labels of the tree as far as it is built. -/
def labels (b : Builder) : List Label :=
  b.root.labels b.outer.template ++ framesLabels b.outer.template b.stack

/-- The slots outside scripts. -/
def bodySlots (b : Builder) : List Slot :=
  b.stack.map (·.body.slot) ++ [b.root.slot]

/-- The slots around the current body. -/
def outerSlots (b : Builder) : List Slot :=
  match b.stack with
  | [] => []
  | _ :: rest => rest.map (·.body.slot) ++ [b.root.slot]

/-- What there is of the tree. -/
def stage (b : Builder) (s : Session) : Stage where
  slots := (b.script.map OpenScript.slot).toList ++ b.bodySlots
  held := b.labels ++ (b.script.map OpenScript.labels).getD [] ++ s.document.scriptLabels
  fields := s.document.fields
  diagnostics := s.diagnostics

theorem bodySlots_eq (b : Builder) : b.bodySlots = b.body.slot :: b.outerSlots := by
  unfold bodySlots outerSlots body
  cases b.stack <;> rfl

theorem stage_of_outside {b : Builder} (outside : b.script = none) (s : Session) :
    b.stage s = ⟨b.body.slot :: b.outerSlots, b.labels ++ s.document.scriptLabels,
      s.document.fields, s.diagnostics⟩ := by
  rw [stage, outside, bodySlots_eq]
  simp

@[simp] theorem inTemplate_withBody (b : Builder) (f : Body → Body) :
    (b.withBody f).inTemplate = b.inTemplate := by
  rw [inTemplate, inTemplate, outer_withBody, any_isTemplate_withBody]

@[simp] theorem inTemplate_newVar (b : Builder) : b.newVar.2.inTemplate = b.inTemplate :=
  b.inTemplate_withBody _

theorem labels_withBody (b : Builder) {f : Body → Body} (new : Bool → List Label)
    (h : ∀ body t, ((f body).labels t).Perm (body.labels t ++ new t)) :
    (b.withBody f).labels.Perm (b.labels ++ new b.inTemplate) := by
  have count (body : Body) (t : Bool) (l : Label) :
      ((f body).labels t).count l = (body.labels t).count l + (new t).count l := by
    rw [(h body t).count_eq, List.count_append]
  rw [List.perm_iff_count]
  intro l
  unfold withBody labels inTemplate
  split
  · next hs => simp only [List.count_append, count, hs, List.any_nil, Bool.or_false]; omega
  · next top rest hs =>
    have flag : (b.outer.template || rest.any (·.opened.isTemplate) || top.opened.isTemplate) =
        (b.outer.template || (top.opened.isTemplate || rest.any (·.opened.isTemplate))) := by
      rw [Bool.or_assoc, Bool.or_comm top.opened.isTemplate]
    simp only [hs, framesLabels, Frame.labels, List.count_append, List.count_cons, count,
      List.any_cons, flag]
    omega

theorem labels_newVar (b : Builder) : b.newVar.2.labels.Perm b.labels := by
  have same := b.labels_withBody (f := fun body => { body with next := body.next + 1 })
    (fun _ => []) fun body t => by rw [List.append_nil]; exact .refl _
  rwa [List.append_nil] at same

theorem bodySlots_newVar (b : Builder) :
    b.newVar.2.bodySlots = b.body.slot.bumped :: b.outerSlots := by
  unfold newVar withBody bodySlots outerSlots body
  cases b.stack <;> rfl

/-- The builder with labels joined to those of its tree. -/
structure Joined (b : Builder) (new : List Label) (b' : Builder) : Prop where
  labels : b'.labels.Perm (b.labels ++ new)
  slots : b'.bodySlots = b.bodySlots
  script : b'.script = b.script

theorem joined_withBody (b : Builder) {f : Body → Body} (new : Bool → List Label)
    (slot : ∀ body, (f body).slot = body.slot)
    (h : ∀ body t, ((f body).labels t).Perm (body.labels t ++ new t)) :
    Joined b (new b.inTemplate) (b.withBody f) := by
  refine ⟨b.labels_withBody new h, ?_, b.script_withBody f⟩
  unfold bodySlots withBody
  cases b.stack <;> simp [slot]

theorem joined_append (b : Builder) (ns : List Node) :
    Joined b (labelsAll b.inTemplate ns) (b.append ns) := by
  refine b.joined_withBody (fun t => labelsAll t ns) (fun _ => rfl) fun body t => ?_
  rw [Body.labels, Body.labels, Body.append, labelsAll_append, List.append_assoc]

theorem joined_addTemplate {b : Builder} (around : typeAround b.outer b.stack ≠ none)
    (t : Template) : Joined b (t.labels b.inTemplate) (b.addTemplate t) := by
  rw [← b.enclosing_fst] at around
  rw [addTemplate_of_typed around]
  refine b.joined_withBody (t.labels ·) (fun _ => rfl) fun body inTemplate => ?_
  simp only [Body.labels, templateLabels_append, templateLabels_cons, templateLabels_nil,
    List.append_nil, List.append_assoc]
  exact List.perm_append_comm.append_left _

theorem Joined.trans {b b₁ b' : Builder} {new more : List Label} (h : Joined b new b₁)
    (k : Joined b₁ more b') : Joined b (new ++ more) b' := by
  refine ⟨?_, k.slots.trans h.slots, k.script.trans h.script⟩
  rw [← List.append_assoc]
  exact k.labels.trans (h.labels.append_right more)

theorem joined_addTemplates {b : Builder} {ts : List Template}
    (around : ts ≠ [] → typeAround b.outer b.stack ≠ none) :
    Joined b (templateLabels b.inTemplate ts) (ts.foldl addTemplate b) := by
  induction ts generalizing b with
  | nil => exact ⟨by simp, rfl, rfl⟩
  | cons t ts ih =>
    have here := around (List.cons_ne_nil t ts)
    have flag : (b.addTemplate t).inTemplate = b.inTemplate := view_addTemplate inTemplate_withBody b t
    have rest := ih (b := b.addTemplate t) fun _ => by rwa [b.typeAround_addTemplate]
    rw [flag] at rest
    rw [templateLabels_cons, List.foldl_cons]
    exact (joined_addTemplate here t).trans rest

/-! ### Frames -/

variable {b b' : Builder} {s s' : Session} {f : Frame}

/-- A closed frame joins its labels. -/
theorem joined_attach (kept : f.opened.isTyped = false → f.body.templates = [])
    (hosted : f.opened.isTemplate = true → typeAround b.outer b.stack ≠ none)
    (run : (b.attach f).run.run s = (.ok b', s')) :
    Joined b (f.labels b.inTemplate) b' ∧ Calmed s s' := by
  have node {n : Node} (same : n.labels b.inTemplate = f.labels b.inTemplate) :
      Joined b (f.labels b.inTemplate) (b.append [n]) := by
    have joined := b.joined_append [n]
    rwa [labelsAll_cons, labelsAll_nil, List.append_nil, same] at joined
  unfold attach at run
  split at run
  · next h ho =>
    cases run
    refine ⟨node ?_, .refl s⟩
    simp [Node.labels, Frame.labels, Body.labels, ho, Opened.var, Opened.role, Opened.isTemplate,
      kept (by rw [ho]; rfl)]
  · next h ho =>
    cases run
    refine ⟨node ?_, .refl s⟩
    simp [Node.labels, Frame.labels, Body.labels, ho, Opened.var, Opened.role, Opened.isTemplate]
  · next h ho =>
    cases run
    refine ⟨node ?_, .refl s⟩
    simp [Node.labels, Frame.labels, Body.labels, ho, Opened.var, Opened.role, Opened.isTemplate]
  · next h ho =>
    cases run
    have same : (Template.mk h f.body.children).labels b.inTemplate = f.labels b.inTemplate := by
      simp [Template.labels, Frame.labels, Body.labels, ho, Opened.var, Opened.role,
        Opened.isTemplate, kept (by rw [ho]; rfl)]
    rw [← same]
    exact ⟨joined_addTemplate (hosted (by rw [ho]; rfl)) _, ⟨rfl, rfl, List.prefix_rfl⟩⟩

/-- The stage when a variable has been taken from the current body. -/
def opened (b : Builder) (s : Session) (new : List Label) : Stage where
  slots := ⟨b.newVar.1, 0⟩ :: b.body.slot.bumped :: b.outerSlots
  held := b.labels ++ s.document.scriptLabels ++ new
  fields := s.document.fields
  diagnostics := s.diagnostics

variable {r : TypeResolver} {met : StartTag → Prop}

/-- The builder goes on with what has joined it from the stage where a slot has been closed. -/
theorem step_joined {new : List Label} (outside : b.script = none)
    (joined : Joined b.newVar.2 new b') (calm : Calmed s s') :
    Stage.Step r met ⟨b.body.slot.bumped :: b.outerSlots, b.labels ++ s.document.scriptLabels ++ new,
      s.document.fields, s.diagnostics⟩ (b'.stage s') := by
  have script : b'.script = none := joined.script.trans ((b.script_withBody _).trans outside)
  have slots : b'.bodySlots = b.body.slot.bumped :: b.outerSlots :=
    joined.slots.trans b.bodySlots_newVar
  rw [stage, script, slots, calm.scriptLabels, calm.fields]
  refine .note ?_ calm.diagnostics
  have labels := joined.labels.trans (b.labels_newVar.append_right new)
  rw [List.perm_iff_count] at labels ⊢
  intro l
  have := labels l
  simp only [Option.map_none, Option.getD_none, List.append_nil, List.count_append] at this ⊢
  omega

/-- Opening a frame goes on from the stage where its variable has been taken. -/
theorem leads_enter {hasContent : Bool} (outside : b.script = none)
    (slot : f.body.slot = ⟨b.newVar.1, 0⟩)
    (kept : f.opened.isTyped = false → f.body.templates = [])
    (hosted : f.opened.isTemplate = true → typeAround b.outer b.stack ≠ none)
    (run : (b.newVar.2.enter hasContent f).run.run s = (.ok b', s')) :
    Stage.Leads r met (b.opened s (f.labels b.inTemplate)) (b'.stage s') := by
  have outside' : b.newVar.2.script = none := (b.script_withBody _).trans outside
  unfold enter at run
  split at run
  · cases run
    have slots : f.body.slot :: b.newVar.2.bodySlots =
        ⟨b.newVar.1, 0⟩ :: b.body.slot.bumped :: b.outerSlots := by
      rw [slot, b.bodySlots_newVar]
    have flag : (b.newVar.2.outer.template || b.newVar.2.stack.any (·.opened.isTemplate)) =
        b.inTemplate := b.inTemplate_newVar
    have labels := b.labels_newVar
    refine .single ?_
    rw [stage, outside']
    simp only [bodySlots, List.map_cons, List.cons_append, Option.map_none, Option.toList_none,
      List.nil_append, Option.getD_none, List.append_nil] at slots ⊢
    rw [slots]
    refine .note ?_ List.prefix_rfl
    rw [List.perm_iff_count] at labels ⊢
    intro l
    have := labels l
    simp only [Builder.labels, framesLabels, flag, List.count_append] at this ⊢
    omega
  · have around : f.opened.isTemplate = true →
        typeAround b.newVar.2.outer b.newVar.2.stack ≠ none := by
      rwa [newVar, typeAround_withBody]
    obtain ⟨joined, calm⟩ := joined_attach kept around run
    rw [b.inTemplate_newVar] at joined
    exact .head .close (.single (step_joined outside joined calm))

/-- Closing the innermost frame keeps the labels and closes its slot. -/
theorem joined_closeFrame {stop : Position} {top : Frame} {rest : List Frame} (sound : b.Sound)
    (hs : b.stack = top :: rest) (run : (b.closeFrame stop).run.run s = (.ok b', s')) :
    b'.labels.Perm b.labels ∧ b'.bodySlots = b.outerSlots ∧ b'.script = b.script ∧
      Calmed s s' := by
  have frames := sound.frames
  rw [hs] at frames
  cases frames with
  | cons below kept hosted =>
    unfold closeFrame at run
    rw [hs] at run
    obtain ⟨joined, calm⟩ := joined_attach (b := { b with stack := rest })
      (f := { top with opened := top.opened.endingAt stop })
      (by simpa using kept) (by simpa using hosted) run
    refine ⟨?_, joined.slots.trans ?_, joined.script, calm⟩
    · have labels := joined.labels
      rw [List.perm_iff_count] at labels ⊢
      intro l
      have := labels l
      simp only [Builder.labels, framesLabels, Frame.labels, Opened.var_endingAt,
        Opened.role_endingAt, Opened.isTemplate_endingAt, inTemplate, hs, List.count_append,
        List.count_cons] at this ⊢
      omega
    · rw [bodySlots, outerSlots, hs]

/-- Closing the innermost frame outside scripts closes its slot. -/
theorem leads_closeFrame {stop : Position} (sound : b.Sound) (outside : b.script = none)
    (run : (b.closeFrame stop).run.run s = (.ok b', s')) :
    Stage.Leads r met (b.stage s) (b'.stage s') := by
  cases hs : b.stack with
  | nil =>
    unfold closeFrame at run
    rw [hs] at run
    cases run
    exact .refl
  | cons top rest =>
    obtain ⟨labels, slots, script, calm⟩ := joined_closeFrame sound hs run
    rw [stage_of_outside outside, stage, script, outside, slots, calm.scriptLabels, calm.fields]
    refine .head .close (.single (.note ?_ calm.diagnostics))
    simpa using labels.append_right _

/-- Closing all frames keeps the labels. -/
theorem joined_closeFrames {stop : Position} {frames : List Frame} (sound : b.Sound)
    (h : b.stack.length = frames.length)
    (run : (closeFrames stop frames b).run.run s = (.ok b', s')) :
    b'.labels.Perm b.labels ∧ b'.root.slot = b.root.slot ∧ b'.outer = b.outer ∧ Calmed s s' := by
  induction frames generalizing b s with
  | nil =>
    cases run
    exact ⟨.refl _, rfl, rfl, .refl _⟩
  | cons f frames ih =>
    obtain ⟨top, rest, hs⟩ := List.exists_cons_of_length_eq_add_one h
    obtain ⟨b₁, s₁, first, others⟩ := exists_of_run_bind run
    obtain ⟨labels, slots, -, calm⟩ := joined_closeFrame sound hs first
    have grown := b.adds_closeFrame stop sound s b₁ s₁ first
    have around : b₁.stack.map (·.body.slot) ++ [b₁.root.slot] =
        rest.map (·.body.slot) ++ [b.root.slot] := by
      rwa [bodySlots, outerSlots, hs] at slots
    obtain ⟨same, root⟩ := List.append_inj' around rfl
    have size : b₁.stack.length = frames.length := by
      have := congrArg List.length same
      rw [hs, List.length_cons, List.length_cons] at h
      rw [List.length_map, List.length_map] at this
      omega
    obtain ⟨labels', root', outer', calm'⟩ := ih grown.sound size others
    exact ⟨labels'.trans labels, root'.trans (List.singleton_inj.1 root),
      outer'.trans grown.outer, calm.trans calm'⟩

end Builder

end ServerMarkup
