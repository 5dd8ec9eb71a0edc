/-
# How a tree grows

What there is of a tree while it is built is a `Stage`: the labels so far, the page fields and the
diagnostics, and the *slots*, innermost first, from which variables are given out.  An open tag has a
slot, and so have an open script, the file itself, and each file around it.

A tree grows in four kinds of steps.  A variable is taken from the innermost slot for a leaf, a tag
or an included file, and a slot for what stands in it is opened (`take`); the same happens for a
typed node, whose attributes are bound besides (`bind`); a slot is closed; and a problem is noted,
or labels change places.  A step sees the innermost slot only, so a stage may stand in another one
(`Leads.under`): that is how the tree of an included file grows in that of the file around it.
-/

import Mathlib.Logic.Relation
import ServerMarkup.Proofs.Tree.Labels

namespace ServerMarkup

/-- The ID that an attribute gives to a control. -/
def Attribute.id? (a : Attribute) : Option Excerpt := do
  guard (a.name.isNamed "id")
  let id := (← a.value.single?).trim
  guard (!id.value.isEmpty)
  return id

theorem Attribute.id?_eq_some {a : Attribute} {id : Excerpt} : a.id? = some id ↔
    a.name.isNamed "id" = true ∧ ∃ e, a.value.single? = some e ∧ e.trim = id ∧
      id.value.isEmpty = false := by
  have eq : a.id? = if a.name.isNamed "id" then
      (a.value.single?.map Excerpt.trim).filter (!·.value.isEmpty) else none := by
    unfold id?
    cases a.name.isNamed "id"
    · rfl
    · cases a.value.single? with
      | none => rfl
      | some e =>
        rw [Option.map_some, Option.filter_some]
        dsimp only [Option.bind_eq_bind, Option.bind_some]
        generalize e.trim = id
        cases id.value.isEmpty <;> rfl
  rw [eq]
  split
  · next named =>
    simp only [Option.filter_eq_some_iff, Option.map_eq_some_iff, named, true_and,
      Bool.not_eq_true', ← and_assoc, exists_and_right]
  · next other => simp [other]

/-- The IDs that the attributes of a start tag give. -/
def StartTag.ids (t : StartTag) : List Excerpt :=
  t.attributes.filterMap Attribute.id?

/-- Where variables are given out: they begin with `var`, and the next one has the number `next`. -/
structure Slot where
  var : String
  next : Nat
deriving DecidableEq, Repr

namespace Slot

/-- The next variable. -/
def fresh (s : Slot) : String :=
  s.var ++ "_" ++ toString s.next

/-- The slot when the next variable has been given out. -/
def bumped (s : Slot) : Slot :=
  { s with next := s.next + 1 }

end Slot

/-- A tree as far as it has grown. -/
structure Stage where
  /-- The slots, innermost first. -/
  slots : List Slot
  held : List Label
  fields : List DeclaredField
  diagnostics : List Diagnostic

/-- What may be made with a new variable without binding attributes: nothing, if it goes to a script
or an included file, or a node or template. -/
inductive Taken (var : String) : List Label → Prop where
  | nothing : Taken var []
  | plain (inTemplate : Bool) : Taken var [⟨var, .plain, inTemplate⟩]
  | template (inTemplate : Bool) : Taken var [⟨var, .template ("Template_" ++ var), inTemplate⟩]

namespace Owner

/-- The label of a typed node whose attributes are bound. -/
def label (o : Owner) (b : Bound) : Label :=
  ⟨o.var, if o.declares then .control ⟨o.type, b.id, b.field⟩ else .plain, o.inTemplate⟩

/-- The labels of a typed node and of the nodes that its attributes make. -/
def labels (o : Owner) (b : Bound) : List Label :=
  o.label b :: labelsAll o.inTemplate b.children

end Owner

namespace Stage

/-- What happens to a tree in one step; `met` holds of the start tags that there are. -/
inductive Step (r : TypeResolver) (met : StartTag → Prop) : Stage → Stage → Prop where
  | note {slots held held' fields ds ds'} (same : held'.Perm held) (kept : ds <+: ds') :
    Step r met ⟨slots, held, fields, ds⟩ ⟨slots, held', fields, ds'⟩
  | take {slot slots held fields ds} {new : List Label} (taken : Taken slot.fresh new) :
    Step r met ⟨slot :: slots, held, fields, ds⟩
      ⟨⟨slot.fresh, 0⟩ :: slot.bumped :: slots, held ++ new, fields, ds⟩
  | bind {slot slots held} {owner : Owner} {s s' : Session} {as : List Attribute} {bound : Bound}
    {t : StartTag} (var : owner.var = slot.fresh) (tag : met t)
    (ids : as.filterMap Attribute.id? = t.ids) (binds : bindAttributes r owner s as = (s', bound)) :
    Step r met ⟨slot :: slots, held, s.document.fields, s.diagnostics⟩
      ⟨⟨slot.fresh, 0⟩ :: slot.bumped :: slots, held ++ owner.labels bound, s'.document.fields,
        s'.diagnostics⟩
  | close {slot slots held fields ds} :
    Step r met ⟨slot :: slots, held, fields, ds⟩ ⟨slots, held, fields, ds⟩

/-- What happens to a tree in any number of steps. -/
abbrev Leads (r : TypeResolver) (met : StartTag → Prop) : Stage → Stage → Prop :=
  Relation.ReflTransGen (Step r met)

/-- The stage with more slots around its own and more labels. -/
def under (st : Stage) (slots : List Slot) (held : List Label) : Stage :=
  { st with slots := st.slots ++ slots, held := st.held ++ held }

variable {r : TypeResolver} {met met' : StartTag → Prop} {st st' : Stage}

/-- A step may be taken with more slots around. -/
theorem Step.under (h : Step r met st st') (slots : List Slot) (held : List Label) :
    Leads r met (st.under slots held) (st'.under slots held) := by
  have swap (slots : List Slot) (old new : List Label) (fields : List DeclaredField)
      (ds : List Diagnostic) :
      Step r met ⟨slots, old ++ held ++ new, fields, ds⟩ ⟨slots, old ++ new ++ held, fields, ds⟩ := by
    refine .note ?_ List.prefix_rfl
    rw [List.append_assoc, List.append_assoc]
    exact List.perm_append_comm.append_left _
  cases h with
  | note same kept => exact .single (.note (same.append_right held) kept)
  | take taken => exact .tail (.single (.take taken)) (swap _ _ _ _ _)
  | bind var tag ids binds => exact .tail (.single (.bind var tag ids binds)) (swap _ _ _ _ _)
  | close => exact .single .close

theorem Leads.under (h : Leads r met st st') (slots : List Slot) (held : List Label) :
    Leads r met (st.under slots held) (st'.under slots held) := by
  induction h with
  | refl => exact .refl
  | tail _ step ih => exact ih.trans (step.under slots held)

/-- What each step keeps, any number of steps keeps. -/
theorem Leads.preserves {holds : Stage → Prop} (h : Leads r met st st') (start : holds st)
    (step : ∀ a b, holds a → Step r met a b → holds b) : holds st' := by
  induction h with
  | refl => exact start
  | tail _ last ih => exact step _ _ ih last

/-- There may be more start tags. -/
theorem Leads.mono (h : Leads r met st st') (more : ∀ t, met t → met' t) : Leads r met' st st' := by
  refine Relation.ReflTransGen.mono ?_ _ _ h
  intro a b step
  cases step with
  | note same kept => exact .note same kept
  | take taken => exact .take taken
  | bind var tag ids binds => exact .bind var (more _ tag) ids binds
  | close => exact .close

/-- All slots but the last may be closed. -/
theorem leads_close (slots : List Slot) (slot : Slot) (held : List Label)
    (fields : List DeclaredField) (ds : List Diagnostic) :
    Leads r met ⟨slots ++ [slot], held, fields, ds⟩ ⟨[slot], held, fields, ds⟩ := by
  induction slots with
  | nil => exact .refl
  | cons s slots ih => exact .head .close ih

end Stage

end ServerMarkup
