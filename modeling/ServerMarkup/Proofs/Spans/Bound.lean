/-
# The marks that attributes bring

Of an attribute a typed node keeps the whole, or its value as that of a property, or one of the
excerpts that are cut from it: the last part of a hyphenated name, the trimmed text of a handler or
an ID.  If all of these have a property (`Attribute.Sound`), then so have the marks of what the node
and the collections below it come to (`Builder.upholds_bind`).
-/

import ServerMarkup.Proofs.Fields.Declared
import ServerMarkup.Proofs.Spans.Upholds

namespace ServerMarkup

section
variable (P : Mark → Prop)

/-- All marks of an attribute have the property, and so have the parts of its name and its trimmed
text. -/
structure Attribute.Sound (a : Attribute) : Prop where
  span : P a.span.mark
  name : P a.name.mark
  parts : ∀ i j, P (a.name.slice i j).mark
  value : ∀ m ∈ a.value.marks, P m
  trimmed : ∀ e, a.value.single? = some e → P e.trim.mark

/-- All marks of bindings have the property. -/
def Bindings.Marked (b : Bindings) : Prop :=
  ∀ m ∈ b.marks, P m

/-- All marks of what attributes have made of a node have the property. -/
structure Bound.Marked (b : Bound) : Prop where
  bindings : b.bindings.Marked P
  children : ServerMarkup.Marked P b.children
  id : ∀ e, b.id = some e → P e.mark

end

variable {P : Mark → Prop}

theorem Attribute.Sound.marks {a : Attribute} (h : a.Sound P) : ∀ m ∈ a.marks, P m :=
  List.forall_mem_cons.2 ⟨h.span, List.forall_mem_cons.2 ⟨h.name, h.value⟩⟩

/-- An attribute under the last part of its name has its marks from the whole. -/
theorem Attribute.Sound.lastPart {a : Attribute} (h : a.Sound P) :
    ∀ m ∈ (lastPart a).marks, P m := by
  unfold ServerMarkup.lastPart
  exact List.forall_mem_cons.2 ⟨h.span, List.forall_mem_cons.2 ⟨h.parts _ _, h.value⟩⟩

namespace Bindings

theorem marked_empty : Bindings.empty.Marked P :=
  List.forall_mem_nil P

theorem marked_iff {b : Bindings} : b.Marked P ↔
    (∀ x ∈ b.properties, ∀ m ∈ x.marks, P m) ∧ (∀ x ∈ b.events, ∀ m ∈ x.marks, P m) ∧
      ∀ x ∈ b.attributes, ∀ m ∈ x.marks, P m := by
  rw [Marked, marks, List.forall_mem_append, List.forall_mem_append, List.forall_mem_flatMap,
    List.forall_mem_flatMap, List.forall_mem_flatMap, and_assoc]

end Bindings

/-! ### One attribute -/

/-- The handler of an event is the trimmed text of the attribute. -/
theorem handler_of_event {r : TypeResolver} {d : Document} {owner : Owner} {a : Attribute}
    {event : EventBinding} (h : Effect.of r d owner a = .event event) :
    event.span = a.span ∧ ∃ e, a.value.single? = some e ∧ event.handler = e.trim := by
  have bound : eventBinding? r d owner.type a = some event := by
    unfold Effect.of at h
    split at h
    · cases h
    split at h
    · cases h
    split at h
    · next found =>
      cases h
      exact found
    · split at h <;> cases h
  unfold eventBinding? at bound
  obtain ⟨_, -, bound⟩ := Option.bind_eq_some_iff.1 bound
  obtain ⟨m, -, bound⟩ := Option.bind_eq_some_iff.1 bound
  obtain ⟨handler, single, bound⟩ := Option.bind_eq_some_iff.1 bound
  obtain ⟨_, -, bound⟩ := Option.bind_eq_some_iff.1 bound
  obtain rfl := Option.some.inj bound
  exact ⟨rfl, handler, single, rfl⟩

/-- What an attribute is bound as, if it is bound to no event and is no ID: itself, or itself under
the last part of its name. -/
theorem leaf_of_place {r : TypeResolver} {d : Document} {owner : Owner} {a leaf : Attribute}
    {names : List String} (h : Effect.of r d owner a = .place names leaf) :
    leaf = a ∨ leaf = lastPart a := by
  unfold Effect.of at h
  split at h
  · cases h
  split at h
  · cases h
    exact .inr rfl
  split at h
  · cases h
  split at h
  · cases h
  · cases h
    exact .inl rfl

/-- The last effect of an attribute keeps the marks of what it is bound as. -/
theorem Placement.marked_addTo (r : TypeResolver) (type : TypeRef) {leaf : Attribute}
    (hl : ∀ m ∈ leaf.marks, P m) (b : Bindings) (hb : b.Marked P) :
    ((Placement.of r type leaf).addTo b).Marked P := by
  obtain ⟨properties, events, attributes⟩ := Bindings.marked_iff.1 hb
  obtain ⟨span, rest⟩ := List.forall_mem_cons.1 hl
  unfold Placement.of
  split
  · refine Bindings.marked_iff.2 ⟨List.forall_mem_append.2 ⟨properties, ?_⟩, events, attributes⟩
    exact List.forall_mem_singleton.2
      (List.forall_mem_cons.2 ⟨span, (List.forall_mem_cons.1 rest).2⟩)
  split
  · refine Bindings.marked_iff.2 ⟨properties, events, List.forall_mem_append.2 ⟨attributes, ?_⟩⟩
    exact List.forall_mem_singleton.2 hl
  · exact hb

/-! ### Collections -/

/-- A walk keeps to the property, if what it does at its end keeps to it. -/
theorem marked_bindAlong (r : TypeResolver) {change : TypeRef → Bindings → Bindings}
    (h : ∀ type b, b.Marked P → (change type b).Marked P) {span : Span} (hp : P span.mark)
    (names : List String) (type : TypeRef) (var : String) {b : Bindings} {ns : List Node}
    (hb : b.Marked P) (hn : Marked P ns) :
    (bindAlong r change span names type var b ns).1.Marked P ∧
      Marked P (bindAlong r change span names type var b ns).2 := by
  induction names generalizing type var b ns with
  | nil => exact ⟨h type b hb, hn⟩
  | cons name names ih =>
    have changed (head : CollectionHead) (ts : List Template) (ns : List Node)
        (h : Marked P [.collection head ts ns]) :
        Marked P [.collection { head with
          bindings := (bindAlong r change span names head.type head.var head.bindings ns).1 } ts
            (bindAlong r change span names head.type head.var head.bindings ns).2] := by
      obtain ⟨hh, hts, hns⟩ := marked_collection.1 h
      obtain ⟨place, bindings⟩ := List.forall_mem_cons.1 hh
      obtain ⟨bound, below⟩ := ih head.type head.var bindings hns
      exact marked_collection.2 ⟨List.forall_mem_cons.2 ⟨place, bound⟩, hts, below⟩
    rw [bindAlong]
    split
    · exact ⟨hb, hn⟩
    · refine ⟨hb, throughout_changeCollection (fun _ h => h) (changed _ [] [] ?_) changed hn⟩
      exact marked_collection.2 ⟨List.forall_mem_cons.2 ⟨hp, Bindings.marked_empty⟩,
        templatesThroughout_nil, throughout_nil⟩

/-! ### Binding -/

/-- An attribute keeps to the property, in the session and in what it makes of the node. -/
theorem marked_bindAttribute (r : TypeResolver) (owner : Owner) (forget : Forgets P) {s : Session}
    {b : Bound} {a : Attribute} (hs : s.Marked P) (hb : b.Marked P) (ha : a.Sound P) :
    (bindAttribute r owner s b a).1.Marked P ∧ (bindAttribute r owner s b a).2.Marked P := by
  unfold bindAttribute
  split
  · exact ⟨hs, hb⟩
  · next event effect =>
    obtain ⟨span, e, single, handler⟩ := handler_of_event effect
    refine ⟨hs, { hb with bindings := ?_ }⟩
    obtain ⟨properties, events, attributes⟩ := Bindings.marked_iff.1 hb.bindings
    refine Bindings.marked_iff.2 ⟨properties, List.forall_mem_append.2 ⟨events, ?_⟩, attributes⟩
    refine List.forall_mem_singleton.2 (List.forall_mem_cons.2 ⟨span ▸ ha.span, ?_⟩)
    exact List.forall_mem_singleton.2 (handler ▸ ha.trimmed e single)
  · next id effect =>
    obtain ⟨-, e, single, rfl, -⟩ := Attribute.id?_eq_some.1 (of_eq_declare effect).2
    have trimmed := ha.trimmed e single
    refine ⟨?_, { hb with id := fun _ same => Option.some.inj same ▸ trimmed }⟩
    dsimp only
    split
    · exact hs
    unfold Session.declareField
    split
    · exact hs.report (forget _ trimmed) _ _
    · refine { hs with fields := List.forall_mem_append.2 ⟨hs.fields, ?_⟩ }
      exact List.forall_mem_singleton.2 (forget _ trimmed)
  · next names leaf effect =>
    have marks : ∀ m ∈ leaf.marks, P m := by
      obtain rfl | rfl := leaf_of_place effect
      · exact ha.marks
      · exact ha.lastPart
    obtain ⟨bindings, children⟩ := marked_bindAlong r
      (fun type => Placement.marked_addTo r type marks) ha.span names owner.type owner.var
      hb.bindings hb.children
    refine ⟨?_, { hb with bindings, children }⟩
    dsimp only
    split
    · exact hs.report (forget _ (marks _ (List.mem_cons_of_mem _ List.mem_cons_self))) _ _
    · exact hs

theorem Bound.marked_start : Bound.start.Marked P :=
  ⟨Bindings.marked_empty, throughout_nil, nofun⟩

/-- **Attributes keep to the property** if they are sound for it. -/
theorem Builder.upholds_bind (p : Project) (owner : Owner) (forget : Forgets P)
    {as : List Attribute} (ha : ∀ a ∈ as, a.Sound P) :
    Upholds P (Bound.Marked P) (bind p owner as) := by
  refine .foldlM Bound.marked_start fun b hb a mem => ?_
  refine Upholds.get.bind fun s _ => ((p.asks_askAll _).upholds nofun).after fun _ => ?_
  intro s hs
  obtain ⟨session, bound⟩ := marked_bindAttribute p.resolver owner forget hs hb (ha a mem)
  refine ⟨session, ?_⟩
  rintro b' s' run
  cases run
  exact bound

end ServerMarkup
