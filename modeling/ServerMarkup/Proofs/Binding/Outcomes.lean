/-
# What attributes come to

An attribute of a typed node comes to one thing (`ComesTo`):

| outcome | which |
| --- | --- |
| dropped | an attribute named `runat`, and no other |
| property | a member of the type that can be set, at the node or at the end of a path |
| event | at the node, with a handler that the page can have |
| raw | kept as it is, at the node or at the end of a path |
| ID | of the node |
| unknown | none of these: it is reported |

What the attributes of a node have come to is told by these outcomes alone, in the order of the
attributes (`BoundBy`): each is found at one place, and nothing is found that is not one of them.
The resolver has to be lawful for this; with another one an attribute may be lost between the
collections that its name leads through.
-/

import Mathlib.Data.Option.Basic
import ServerMarkup.Proofs.Binding.Tries
import ServerMarkup.Proofs.History.Events
import ServerMarkup.Proofs.Parse.Ledger

namespace ServerMarkup

/-- What an attribute comes to; a path leads from the node to a collection below it. -/
inductive Outcome where
  | dropped
  | property (path : List String) (property : PropertyBinding)
  | event (event : EventBinding)
  | raw (path : List String) (kept : Attribute)
  | id (id : Excerpt)
  | unknown (type : TypeRef) (name : Excerpt)
deriving DecidableEq, Repr

namespace Outcome

/-- The property that is set at the path. -/
def propertyAt? (q : List String) : Outcome → Option PropertyBinding
  | property path p => if path = q then some p else none
  | _ => none

/-- The attribute that is kept at the path. -/
def rawAt? (q : List String) : Outcome → Option Attribute
  | raw path a => if path = q then some a else none
  | _ => none

/-- The event that is bound. -/
def event? : Outcome → Option EventBinding
  | event e => some e
  | _ => none

/-- The ID that the node gets. -/
def id? : Outcome → Option Excerpt
  | id e => some e
  | _ => none

/-- The report of an attribute that the type does not know. -/
def report? : Outcome → Option Diagnostic
  | unknown type name => some ⟨.propertyNotFound, name.span, [type.fullName, name.value]⟩
  | _ => none

end Outcome

/-! ### One attribute -/

section
variable (r : TypeResolver) (d : Document) (owner : Owner) (a : Attribute)

/-- Where an attribute goes that is neither dropped nor an event nor an ID, and what goes there:
itself to its node, or its last part to the end of the collections that the other parts name. -/
inductive Reaches : List Member → Attribute → Prop where
  | along {parts last path} (split : hyphenated a.name = parts ++ [last]) (several : parts ≠ [])
      (leads : collectionPath? r owner.type parts = some path) : Reaches path (lastPart a)
  | here (single : Effect.path? r owner.type a = none)
      (unhandled : eventBinding? r d owner.type a = none)
      (undeclared : declaredId? r owner a = none) : Reaches [] a

/-- What an attribute comes to on a page. -/
inductive ComesTo : Outcome → Prop where
  | dropped (named : a.name.isNamed "runat" = true) : ComesTo .dropped
  | property {path leaf m} (other : a.name.isNamed "runat" = false)
      (reaches : Reaches r d owner a path leaf)
      (member : r.memberOf (endType owner.type path) leaf.name.value = some m)
      (writable : m.isWritableProperty = true) :
      ComesTo (.property (path.map Member.name) (.ofMember m leaf.value leaf.span))
  | event {name m handler} (other : a.name.isNamed "runat" = false)
      (single : Effect.path? r owner.type a = none) (names : eventOf? a.name.value = some name)
      (member : r.memberOf owner.type name = some m) (kind : m.kind = .event)
      (text : a.value.single? = some handler) (can : canHandle r d handler.value = true) :
      ComesTo (.event ⟨m.name, handler.trim, a.span⟩)
  | raw {path leaf} (other : a.name.isNamed "runat" = false)
      (reaches : Reaches r d owner a path leaf)
      (unset : (r.memberOf (endType owner.type path) leaf.name.value).filter
        Member.isWritableProperty = none)
      (open_ : r.isAssignableTo (endType owner.type path) attributeAccessor = true) :
      ComesTo (.raw (path.map Member.name) leaf)
  | id {id} (other : a.name.isNamed "runat" = false)
      (single : Effect.path? r owner.type a = none)
      (unhandled : eventBinding? r d owner.type a = none)
      (declares : declaredId? r owner a = some id) : ComesTo (.id id)
  | unknown {path leaf} (other : a.name.isNamed "runat" = false)
      (reaches : Reaches r d owner a path leaf)
      (unset : (r.memberOf (endType owner.type path) leaf.name.value).filter
        Member.isWritableProperty = none)
      (closed : r.isAssignableTo (endType owner.type path) attributeAccessor = false) :
      ComesTo (.unknown (endType owner.type path) leaf.name)

end

/-- What a placement at the end of a path is as an outcome. -/
def Placement.outcome (type : TypeRef) (path : List Member) (name : Excerpt) : Placement → Outcome
  | .property p => .property (path.map Member.name) p
  | .raw a => .raw (path.map Member.name) a
  | .unknown => .unknown (endType type path) name

/-- What an effect is as an outcome. -/
def Effect.outcome (r : TypeResolver) (type : TypeRef) : Effect → Outcome
  | .nothing => .dropped
  | .event e => .event e
  | .declare id => .id id
  | .place names leaf =>
    let path := (collectionPath? r type names).getD []
    (Placement.of r (endType type path) leaf).outcome type path leaf.name

/-- What is placed along declared names comes to what it is for the type at their end. -/
theorem Effect.outcome_place {r : TypeResolver} {type : TypeRef} {names : List String}
    {path : List Member} (leads : collectionPath? r type names = some path) (leaf : Attribute) :
    (Effect.place names leaf).outcome r type =
      (Placement.of r (endType type path) leaf).outcome type path leaf.name := by
  rw [outcome, leads, Option.getD_some]

section
variable {r : TypeResolver} {d : Document} {owner : Owner} {a : Attribute}

/-- An attribute that goes to a place comes to what it is for the type there. -/
theorem comesTo_placement {path : List Member} {leaf : Attribute}
    (other : a.name.isNamed "runat" = false) (reaches : Reaches r d owner a path leaf) :
    ComesTo r d owner a
      ((Placement.of r (endType owner.type path) leaf).outcome owner.type path leaf.name) := by
  unfold Placement.of
  split
  · next m found =>
    obtain ⟨member, writable⟩ := Option.filter_eq_some_iff.1 found
    exact .property other reaches member writable
  · next unset =>
    split
    · next open_ => exact .raw other reaches unset open_
    · next closed => exact .unknown other reaches unset (Bool.not_eq_true _ ▸ closed)

/-- An attribute comes to what its effect is. -/
theorem comesTo_effect : ComesTo r d owner a ((Effect.of r d owner a).outcome r owner.type) := by
  unfold Effect.of
  split
  · next named => exact .dropped named
  next other =>
  rw [Bool.not_eq_true] at other
  split
  · next path leads =>
    obtain ⟨parts, last, split, several, declared⟩ := path?_eq_some_iff.1 leads
    rw [split, List.dropLast_concat, Effect.outcome_place declared]
    exact comesTo_placement other (.along split several declared)
  next single =>
  split
  · next e binds =>
    rw [eventBinding?] at binds
    obtain ⟨name, names, binds⟩ := Option.bind_eq_some_iff.1 binds
    obtain ⟨m, found, binds⟩ := Option.bind_eq_some_iff.1 binds
    obtain ⟨handler, text, binds⟩ := Option.bind_eq_some_iff.1 binds
    obtain ⟨_, can, binds⟩ := Option.bind_eq_some_iff.1 binds
    obtain ⟨member, kind⟩ := Option.filter_eq_some_iff.1 found
    cases binds
    exact .event other single names member (beq_iff_eq.1 kind) text
      ((Option.guard_eq_some' _).1 can)
  next unhandled =>
  split
  · next id declares => exact .id other single unhandled declares
  · next undeclared =>
    have here : Reaches r d owner a [] a := .here single unhandled undeclared
    rw [Effect.outcome_place rfl]
    exact comesTo_placement other here

/-- The effect of an attribute leads where the attribute goes. -/
theorem Reaches.outcome_eq {path : List Member} {leaf : Attribute}
    (h : Reaches r d owner a path leaf) (other : a.name.isNamed "runat" = false) :
    (Effect.of r d owner a).outcome r owner.type =
      (Placement.of r (endType owner.type path) leaf).outcome owner.type path leaf.name := by
  cases h with
  | along split several leads =>
    have effect := of_of_path d (path?_eq_some_iff.2 ⟨_, _, split, several, leads⟩)
    rw [split, List.dropLast_concat] at effect
    rw [effect, Effect.outcome_place leads]
  | here single unhandled undeclared =>
    rw [Effect.of, other, single, unhandled, undeclared]
    exact Effect.outcome_place rfl a

/-- An attribute comes to one thing only. -/
theorem ComesTo.eq_outcome {o : Outcome} (h : ComesTo r d owner a o) :
    o = (Effect.of r d owner a).outcome r owner.type := by
  cases h with
  | dropped named =>
    rw [Effect.of, named]
    rfl
  | @property path leaf m other reaches member writable =>
    have found : (r.memberOf (endType owner.type path) leaf.name.value).filter
        Member.isWritableProperty = some m := Option.filter_eq_some_iff.2 ⟨member, writable⟩
    rw [reaches.outcome_eq other, Placement.of, found]
    rfl
  | @event name m handler other single names member kind text can =>
    have found : (r.memberOf owner.type name).filter (·.kind == .event) = some m :=
      Option.filter_eq_some_iff.2 ⟨member, beq_iff_eq.2 kind⟩
    have binds : eventBinding? r d owner.type a = some ⟨m.name, handler.trim, a.span⟩ := by
      rw [eventBinding?, names, Option.bind_eq_bind, Option.bind_some, found, Option.bind_eq_bind,
        Option.bind_some, text, Option.bind_eq_bind, Option.bind_some, can]
      rfl
    rw [Effect.of, other, single, binds]
    rfl
  | raw other reaches unset open_ =>
    rw [reaches.outcome_eq other, Placement.of, unset, open_]
    rfl
  | id other single unhandled declares =>
    rw [Effect.of, other, single, unhandled, declares]
    rfl
  | unknown other reaches unset closed =>
    rw [reaches.outcome_eq other, Placement.of, unset, closed]
    rfl

/-- An attribute comes to its effect and nothing else. -/
theorem comesTo_iff {o : Outcome} : ComesTo r d owner a o ↔
    (Effect.of r d owner a).outcome r owner.type = o :=
  ⟨fun h => h.eq_outcome.symm, fun same => same ▸ comesTo_effect⟩

end

/-! ### All attributes -/

/-- The node and the nodes below it hold what the outcomes say, in their order, and nothing else. -/
structure Spot.Holds (os : List Outcome) (x : Spot) : Prop where
  properties : ∀ q, (x.bindingsAt q).properties = os.filterMap (Outcome.propertyAt? q)
  attributes : ∀ q, (x.bindingsAt q).attributes = os.filterMap (Outcome.rawAt? q)
  events : ∀ q, (x.bindingsAt q).events = if q = [] then os.filterMap Outcome.event? else []

/-- The session `s'` tells what the outcomes say, in their order, besides what `s` does. -/
structure Session.Tells (os : List Outcome) (s s' : Session) : Prop where
  /-- Each unknown attribute is reported once, and nothing else is reported but IDs. -/
  reports : ∃ new, s'.diagnostics = s.diagnostics ++ new ∧
    new.filter (·.code == .propertyNotFound) = os.filterMap Outcome.report? ∧
    ∀ x ∈ new, x.code ≠ .propertyNotFound →
      ∃ id, .id id ∈ os ∧ x = ⟨.duplicateControlId, id.span, [id.value]⟩
  /-- Nothing else changes but the page fields. -/
  kept : s' = { s with
    diagnostics := s'.diagnostics, document := { s.document with fields := s'.document.fields } }

/-- What the node and the session have come to when attributes with the outcomes have been bound in
the session `s`. -/
structure BoundBy (owner : Owner) (os : List Outcome) (s s' : Session) (b : Bound) : Prop where
  holds : (b.spot owner).Holds os
  /-- There is no second collection for a property: all places are at the end of paths. -/
  places : Chained (fun _ => True) owner.var b.children
  /-- The last ID counts. -/
  id : b.id = (os.filterMap Outcome.id?).getLast?
  tells : s.Tells os s'

namespace Spot.Holds

variable {os : List Outcome} {x : Spot} {o : Outcome}

theorem start (owner : Owner) : (Bound.start.spot owner).Holds [] where
  properties q := by cases q <;> rfl
  attributes q := by cases q <;> rfl
  events q := by cases q <;> rfl

/-- An outcome that is found on no node. -/
theorem elsewhere (h : x.Holds os) (property : ∀ q, o.propertyAt? q = none)
    (raw : ∀ q, o.rawAt? q = none) (event : o.event? = none) : x.Holds (os ++ [o]) where
  properties q := by simp [h.properties, property]
  attributes q := by simp [h.attributes, raw]
  events q := by simp [h.events, event]

theorem event (h : x.Holds os) (e : EventBinding) :
    ({ x with bindings := { x.bindings with events := x.bindings.events ++ [e] } } : Spot).Holds
      (os ++ [.event e]) where
  properties q := by
    rw [List.filterMap_append, ← h.properties]
    cases q <;> exact (List.append_nil _).symm
  attributes q := by
    rw [List.filterMap_append, ← h.attributes]
    cases q <;> exact (List.append_nil _).symm
  events q := by
    have before := h.events q
    cases q with
    | nil =>
      rw [if_pos rfl] at before
      rw [if_pos rfl, List.filterMap_append, ← before]
      rfl
    | cons name q => exact before

/-- Something is bound at the end of a path. -/
theorem place (h : x.Holds os) (type : TypeRef) (path : List Member) (span : Span) (name : Excerpt)
    (placement : Placement) : (x.bindPath placement.addTo span path).Holds
      (os ++ [placement.outcome type path name]) where
  properties q := by
    rw [bindingsAt_bindPath, List.filterMap_append, ← h.properties]
    cases placement <;> by_cases here : path.map Member.name = q <;>
      simp [Placement.outcome, Outcome.propertyAt?, Placement.addTo, here]
  attributes q := by
    rw [bindingsAt_bindPath, List.filterMap_append, ← h.attributes]
    cases placement <;> by_cases here : path.map Member.name = q <;>
      simp [Placement.outcome, Outcome.rawAt?, Placement.addTo, here]
  events q := by
    have none : (os ++ [placement.outcome type path name]).filterMap Outcome.event? =
        os.filterMap Outcome.event? := by
      cases placement <;> simp [Placement.outcome, Outcome.event?]
    rw [bindingsAt_bindPath, none, ← h.events]
    split
    · exact Placement.events_addTo ..
    · rfl

end Spot.Holds

namespace Session.Tells

variable {os : List Outcome} {s s' : Session} {o : Outcome}

theorem start (s : Session) : s.Tells [] s where
  reports := ⟨[], (List.append_nil _).symm, rfl, List.forall_mem_nil _⟩
  kept := rfl

/-- An outcome that is not reported. -/
theorem quiet (h : s.Tells os s') (none : o.report? = none) : s.Tells (os ++ [o]) s' where
  reports := by
    obtain ⟨new, more, unknown, ids⟩ := h.reports
    refine ⟨new, more, by simp [unknown, none], fun x mem other => ?_⟩
    obtain ⟨id, mem, same⟩ := ids x mem other
    exact ⟨id, List.mem_append_left _ mem, same⟩
  kept := h.kept

/-- One more report. -/
theorem report (h : s.Tells os s') (code : DiagnosticCode) (span : Span) (args : List String)
    (told : o.report? = if code = .propertyNotFound then some ⟨code, span, args⟩ else none)
    (declares : code ≠ .propertyNotFound → ∃ id, o = .id id ∧
      (⟨code, span, args⟩ : Diagnostic) = ⟨.duplicateControlId, id.span, [id.value]⟩) :
    s.Tells (os ++ [o]) (s'.report code span args) where
  reports := by
    obtain ⟨new, more, unknown, ids⟩ := h.reports
    refine ⟨new ++ [⟨code, span, args⟩], ?_, ?_, List.forall_mem_append.2
      ⟨fun x mem other => ?_, List.forall_mem_singleton.2 fun other => ?_⟩⟩
    · rw [← List.append_assoc, ← more]
      rfl
    · by_cases here : code = .propertyNotFound <;> simp [unknown, told, here]
    · obtain ⟨id, mem, same⟩ := ids x mem other
      exact ⟨id, List.mem_append_left _ mem, same⟩
    · obtain ⟨id, rfl, same⟩ := declares other
      exact ⟨id, List.mem_append_right _ (List.mem_singleton.2 rfl), same⟩
  kept := by
    conv_lhs => rw [h.kept]
    rfl

/-- An ID is declared. -/
theorem declareField (h : s.Tells os s') (type : TypeRef) (id : Excerpt) :
    s.Tells (os ++ [.id id]) (s'.declareField type id).1 := by
  unfold Session.declareField
  split
  · exact h.report _ _ _ rfl fun _ => ⟨id, rfl, rfl⟩
  · have told := h.quiet (o := .id id) rfl
    refine ⟨told.reports, ?_⟩
    conv_lhs => rw [h.kept]
    rfl

/-- Something is bound at the end of a path, or reported. -/
theorem place (h : s.Tells os s') (type : TypeRef) (path : List Member) (name : Excerpt)
    (placement : Placement) : s.Tells (os ++ [placement.outcome type path name])
      (if placement = .unknown then s'.reportUnknown (endType type path) name else s') := by
  cases placement with
  | unknown => exact h.report _ _ _ rfl fun other => absurd rfl other
  | _ => exact h.quiet rfl

end Session.Tells

namespace BoundBy

variable {r : TypeResolver} {owner : Owner} {os : List Outcome} {s s' : Session} {b : Bound}

theorem start (owner : Owner) (s : Session) : BoundBy owner [] s s .start where
  holds := .start owner
  places := .nil
  id := rfl
  tells := .start s

/-- One more attribute is bound. -/
theorem bindAttribute (h : BoundBy owner os s s' b) (lawful : r.Lawful)
    (typed : Typed r owner.type b.children) (a : Attribute) :
    BoundBy owner (os ++ [(Effect.of r s'.document owner a).outcome r owner.type]) s
      (ServerMarkup.bindAttribute r owner s' b a).1
      (ServerMarkup.bindAttribute r owner s' b a).2 := by
  have places := chained_bindAttribute r owner s' a h.places
  cases effect : Effect.of r s'.document owner a with
  | nothing =>
    unfold ServerMarkup.bindAttribute
    rw [effect]
    exact ⟨h.holds.elsewhere (fun _ => rfl) (fun _ => rfl) rfl, h.places,
      by simp [h.id, Effect.outcome, Outcome.id?], h.tells.quiet rfl⟩
  | event e =>
    unfold ServerMarkup.bindAttribute at places ⊢
    rw [effect] at places ⊢
    exact ⟨h.holds.event e, places, by simp [h.id, Effect.outcome, Outcome.id?],
      h.tells.quiet rfl⟩
  | declare id =>
    unfold ServerMarkup.bindAttribute at places ⊢
    rw [effect] at places ⊢
    refine ⟨h.holds.elsewhere (fun _ => rfl) (fun _ => rfl) rfl, places,
      by simp [Effect.outcome, Outcome.id?], ?_⟩
    dsimp only
    split
    · exact h.tells.quiet rfl
    · exact h.tells.declareField owner.type id
  | place names leaf =>
    obtain ⟨path, leads⟩ := collectionPath?_of_place effect
    rw [bindAttribute_eq s' b lawful typed effect leads] at places ⊢
    rw [Effect.outcome_place leads]
    have holds := h.holds.place owner.type path a.span leaf.name
      (Placement.of r (endType owner.type path) leaf)
    refine ⟨holds, places, ?_, h.tells.place owner.type path leaf.name _⟩
    unfold bindAt
    cases Placement.of r (endType owner.type path) leaf <;>
      simp [h.id, Placement.outcome, Outcome.id?]

/-- The attributes are bound one after the other. -/
theorem bindAttributes (lawful : r.Lawful) (owner : Owner) (s : Session) (as : List Attribute) :
    BoundBy owner (as.map fun a => (Effect.of r s.document owner a).outcome r owner.type) s
      (ServerMarkup.bindAttributes r owner s as).1
      (ServerMarkup.bindAttributes r owner s as).2 := by
  induction as using List.reverseRecOn with
  | nil => exact start owner s
  | append_singleton as a ih =>
    have can : canHandle r (ServerMarkup.bindAttributes r owner s as).1.document =
        canHandle r s.document := (events_foldl rfl).1
    have step := ih.bindAttribute lawful (typed_bindAttributes s lawful as) a
    rw [Effect.of_congr r owner can, ← bindAttributes_concat] at step
    rwa [List.map_append, List.map_singleton]

end BoundBy

/-- What attributes come to is told by their effects. -/
theorem forall₂_comesTo_iff {r : TypeResolver} {d : Document} {owner : Owner}
    {as : List Attribute} {os : List Outcome} : List.Forall₂ (ComesTo r d owner) as os ↔
      os = as.map fun a => (Effect.of r d owner a).outcome r owner.type := by
  have judged : ComesTo r d owner =
      fun a o => (Effect.of r d owner a).outcome r owner.type = o := by
    funext a o
    exact propext comesTo_iff
  rw [judged, ← List.forall₂_map_left_iff, List.forall₂_eq_eq_eq]
  exact eq_comm

/-- **Each attribute comes to one thing and no other**, in the order of the attributes, and none is
lost: the outcomes tell all that the node holds and all that the session reports.  This is so with
every lawful resolver. -/
theorem outcomes_bindAttributes {r : TypeResolver} (lawful : r.Lawful) (owner : Owner)
    (s : Session) (as : List Attribute) :
    ∃ os, (∀ os', List.Forall₂ (ComesTo r s.document owner) as os' ↔ os' = os) ∧
      BoundBy owner os s (bindAttributes r owner s as).1 (bindAttributes r owner s as).2 :=
  ⟨_, fun _ => forall₂_comesTo_iff, .bindAttributes lawful owner s as⟩

/-- The attributes of the grid come to something of each kind. -/
theorem outcomes_bindAttributes_grid : gridTypes.resolver.Lawful ∧
    let r := gridTypes.resolver
    let s := Session.start .standard "page.aspx" "" .empty
    ∃ os, List.Forall₂ (ComesTo r s.document gridOwner) gridAttributes os ∧
      BoundBy gridOwner os s (bindAttributes r gridOwner s gridAttributes).1
        (bindAttributes r gridOwner s gridAttributes).2 ∧
      os.length = 7 ∧ os.head? = some .dropped ∧
      (os.filterMap Outcome.id?).map Excerpt.value = ["g"] ∧
      (os.filterMap (Outcome.propertyAt? ["Rows", "Cells"])).map PropertyBinding.name = ["Text"] ∧
      (os.filterMap (Outcome.propertyAt? ["Rows"])).map PropertyBinding.name = ["Text"] ∧
      (os.filterMap Outcome.event?).map EventBinding.name = ["Sort"] ∧
      (os.filterMap (Outcome.rawAt? [])).map (·.name.value) = ["style"] ∧
      (os.filterMap Outcome.report?).map Diagnostic.args = [["Web.Row", "none"]] := by
  obtain ⟨os, only, bound⟩ := outcomes_bindAttributes gridTypes.lawful_resolver gridOwner
    (Session.start .standard "page.aspx" "" .empty) gridAttributes
  refine ⟨gridTypes.lawful_resolver, os, (only os).2 rfl, bound, ?_⟩
  rw [forall₂_comesTo_iff.1 ((only os).2 rfl)]
  decide +kernel

end ServerMarkup
