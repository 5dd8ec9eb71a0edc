/-
# What the IDs of a tag declare

Of the attributes of a typed node only its IDs make page fields.  They do so one after the other:
outside templates an ID makes a field if no field has its name, and is reported if one has.  The
node keeps the last ID, and the field of the last ID only (`Declared`).  So a tag with several IDs
can make a field that it does not keep.
-/

import ServerMarkup.Proofs.Parse.Reports
import ServerMarkup.Proofs.Tree.Stages

namespace ServerMarkup

/-- The names of the fields differ, ignoring case. -/
def Distinct (fields : List DeclaredField) : Prop :=
  fields.Pairwise fun f g => sameName f.name g.name = false

namespace Owner

/-- Whether IDs declare the node: it is a control of a type that has a property for them. -/
def isNamed (r : TypeResolver) (o : Owner) : Bool :=
  o.declares && (r.memberOf o.type "ID").any Member.isWritableProperty

/-- The page field that an ID makes for the node. -/
def field (o : Owner) (id : Excerpt) : DeclaredField :=
  ⟨id.value, o.type, id.span⟩

end Owner

section
variable {r : TypeResolver} {owner : Owner} {a : Attribute} {id : Excerpt}

/-! ### One attribute -/

theorem declaredId?_eq : declaredId? r owner a = if owner.isNamed r then a.id? else none := by
  unfold declaredId? Attribute.id? Owner.isNamed
  cases a.name.isNamed "id" <;> cases owner.declares <;>
    cases (r.memberOf owner.type "ID").any Member.isWritableProperty <;> rfl

/-- Only an ID has the effect of declaring a node, and only if the node is named by IDs. -/
theorem of_eq_declare {d : Document} (h : Effect.of r d owner a = .declare id) :
    owner.isNamed r = true ∧ a.id? = some id := by
  have declared : declaredId? r owner a = some id := by
    unfold Effect.of at h
    split at h
    · cases h
    split at h
    · cases h
    split at h
    · cases h
    split at h
    · next found =>
      cases h
      exact found
    · cases h
  rw [declaredId?_eq] at declared
  split at declared
  · next named => exact ⟨named, declared⟩
  · cases declared

/-- An ID has the effect of declaring a node that is named by IDs. -/
theorem of_id (d : Document) (named : owner.isNamed r = true) (h : a.id? = some id) :
    Effect.of r d owner a = .declare id := by
  have same := (Attribute.id?_eq_some.1 h).1
  have letters : a.name.chars.map Char.toLower = ['i', 'd'] := by
    rw [Excerpt.isNamed, sameName_iff] at same
    exact String.ofList_inj.1 same
  obtain ⟨c, cs, chars, hc, rest⟩ := List.map_eq_cons_iff.1 letters
  obtain ⟨e, tail, rfl, he, last⟩ := List.map_eq_cons_iff.1 rest
  obtain rfl := List.map_eq_nil_iff.1 last
  have runat : a.name.isNamed "runat" = false := by
    rw [Excerpt.isNamed, sameName_iff] at same
    rw [Excerpt.isNamed, sameName, same]
    decide +kernel
  have path : Effect.path? r owner.type a = none := by
    have first : c ≠ '-' := by
      rintro rfl
      cases hc
    have second : e ≠ '-' := by
      rintro rfl
      cases he
    rw [Effect.path?, hyphenated, chars]
    simp [pieces, first, second]
  have event : eventBinding? r d owner.type a = none := by
    have short : eventOf? a.name.value = none := by
      change a.name.value.toList = [c, e] at chars
      rw [eventOf?, chars]
    rw [eventBinding?, short]
    rfl
  rw [Effect.of, runat, path, event, declaredId?_eq, named, h]
  rfl

variable {s s' : Session} {b : Bound}

/-- An attribute without the effect of declaring its node makes no field and takes none away. -/
theorem calm_bindAttribute (other : ∀ id, Effect.of r s.document owner a ≠ .declare id) :
    Calmed s (bindAttribute r owner s b a).1 ∧ (bindAttribute r owner s b a).2.id = b.id ∧
      (bindAttribute r owner s b a).2.field = b.field := by
  unfold bindAttribute
  split
  · exact ⟨.refl s, rfl, rfl⟩
  · exact ⟨.refl s, rfl, rfl⟩
  · next id he => exact absurd he (other id)
  · dsimp only
    refine ⟨?_, rfl, rfl⟩
    split
    · exact .report _ _ _ _
    · exact .refl s

/-! ### All attributes -/

/-- What the IDs of a node have come to when they have been bound in the session `s`, which is `s'`
then: the new fields and what the node keeps. -/
structure Declared (owner : Owner) (ids : List Excerpt) (s s' : Session) (b : Bound)
    (new : List DeclaredField) : Prop where
  fields : s'.document.fields = s.document.fields ++ new
  distinct : Distinct s.document.fields → Distinct s'.document.fields
  diagnostics : s.diagnostics <+: s'.diagnostics
  /-- Each new field is from an ID. -/
  made : ∀ f ∈ new, ⟨f.name, f.span⟩ ∈ ids
  /-- The node keeps a new field, or it has a later ID. -/
  kept : ∀ f ∈ new, owner.declares = true ∧
    (b.field = some f.name ∨ ⟨f.name, f.span⟩ ∈ ids.dropLast)
  /-- The node has the last ID. -/
  last : ∀ id, b.id = some id → ids.getLast? = some id
  /-- The field of the node is that of its ID. -/
  field : ∀ n, b.field = some n → owner.inTemplate = false ∧
    ∃ id, b.id = some id ∧ id.value = n ∧ owner.field id ∈ new
  /-- An ID outside templates without a field has been reported. -/
  reported : b.field = none → ∀ id, b.id = some id → owner.inTemplate = false →
    ⟨.duplicateControlId, id.span, [id.value]⟩ ∈ s'.diagnostics

namespace Declared

theorem start (owner : Owner) (ids : List Excerpt) (s : Session) :
    Declared owner ids s s .start [] where
  fields := (List.append_nil _).symm
  distinct := id
  diagnostics := List.prefix_rfl
  made := List.forall_mem_nil _
  kept := List.forall_mem_nil _
  last := nofun
  field := nofun
  reported := nofun

variable {ids : List Excerpt} {s₁ : Session} {new : List DeclaredField}

theorem calm {b' : Bound} (h : Declared owner ids s s₁ b new) (calm : Calmed s₁ s')
    (sameId : b'.id = b.id) (sameField : b'.field = b.field) :
    Declared owner ids s s' b' new where
  fields := calm.fields.trans h.fields
  distinct := fun d => calm.fields ▸ h.distinct d
  diagnostics := h.diagnostics.trans calm.diagnostics
  made := h.made
  kept := sameField ▸ h.kept
  last := sameId ▸ h.last
  field := sameId ▸ sameField ▸ h.field
  reported := sameId ▸ sameField ▸ fun none id hid outside =>
    calm.diagnostics.subset (h.reported none id hid outside)

/-- An ID is declared. -/
theorem declare {bindings : Bindings} {children : List Node} (named : owner.isNamed r = true)
    (h : Declared owner ids s s₁ b new) (id : Excerpt) :
    let x := if owner.inTemplate then (s₁, none) else s₁.declareField owner.type id
    ∃ more, Declared owner (ids ++ [id]) s x.1 ⟨bindings, children, some id, x.2⟩ more := by
  have declares : owner.declares = true := (Bool.and_eq_true_iff.1 named).1
  have made : ∀ f ∈ new, (⟨f.name, f.span⟩ : Excerpt) ∈ ids ++ [id] := fun f mem =>
    List.mem_append_left _ (h.made f mem)
  have earlier : ∀ f ∈ new, (⟨f.name, f.span⟩ : Excerpt) ∈ (ids ++ [id]).dropLast := fun f mem => by
    rw [List.dropLast_concat]
    exact h.made f mem
  have last (id' : Excerpt) (same : some id = some id') : (ids ++ [id]).getLast? = some id' := by
    rw [List.getLast?_concat, same]
  intro x
  unfold x
  split
  · next inside =>
    refine ⟨new, h.fields, h.distinct, h.diagnostics, made,
      fun f mem => ⟨declares, .inr (earlier f mem)⟩, last, nofun, fun _ _ _ outside => ?_⟩
    rw [inside] at outside
    cases outside
  next outside =>
  rw [Bool.not_eq_true] at outside
  unfold Session.declareField
  split
  · refine ⟨new, h.fields, h.distinct, h.diagnostics.trans (List.prefix_append _ _), made,
      fun f mem => ⟨declares, .inr (earlier f mem)⟩, last, nofun, fun _ id' same _ => ?_⟩
    cases same
    exact List.mem_append_right _ (List.mem_singleton.2 rfl)
  · next absent =>
    refine ⟨new ++ [owner.field id], ?_, fun d => ?_, h.diagnostics, ?_, ?_, last, ?_, nofun⟩
    · change s₁.document.fields ++ [owner.field id] = _
      rw [h.fields, List.append_assoc]
    · refine List.pairwise_append.2 ⟨h.distinct d, List.pairwise_singleton _ _, ?_⟩
      intro f mem g mem'
      rw [List.mem_singleton.1 mem']
      rw [Option.not_isSome_iff_eq_none] at absent
      exact Bool.eq_false_iff.2 (List.find?_eq_none.1 absent f mem)
    · refine List.forall_mem_append.2 ⟨made, List.forall_mem_singleton.2 ?_⟩
      exact List.mem_append_right _ (List.mem_singleton.2 rfl)
    · refine List.forall_mem_append.2 ⟨fun f mem => ⟨declares, .inr (earlier f mem)⟩,
        List.forall_mem_singleton.2 ⟨declares, .inl rfl⟩⟩
    · intro n same
      cases same
      exact ⟨outside, id, rfl, rfl, List.mem_append_right _ (List.mem_singleton.2 rfl)⟩

/-- One more attribute is bound. -/
theorem bindAttribute (named : owner.isNamed r = true) (h : Declared owner ids s s₁ b new)
    (a : Attribute) :
    ∃ more, Declared owner (ids ++ a.id?.toList) s (ServerMarkup.bindAttribute r owner s₁ b a).1
      (ServerMarkup.bindAttribute r owner s₁ b a).2 more := by
  cases hid : a.id? with
  | none =>
    have other (id : Excerpt) : Effect.of r s₁.document owner a ≠ .declare id := by
      intro declares
      rw [(of_eq_declare declares).2] at hid
      cases hid
    obtain ⟨calm, sameId, sameField⟩ := calm_bindAttribute (s := s₁) (b := b) other
    rw [Option.toList_none, List.append_nil]
    exact ⟨new, h.calm calm sameId sameField⟩
  | some id =>
    unfold ServerMarkup.bindAttribute
    rw [of_id _ named hid]
    exact h.declare named id

end Declared

/-- **The IDs of a node declare it one after the other.** -/
theorem exists_declared (r : TypeResolver) (owner : Owner) (s : Session) (as : List Attribute) :
    ∃ new, Declared owner (as.filterMap Attribute.id?) s (bindAttributes r owner s as).1
      (bindAttributes r owner s as).2 new := by
  by_cases named : owner.isNamed r = true
  · have fold (as : List Attribute) (ids : List Excerpt) (x : Session × Bound)
        (h : ∃ new, Declared owner ids s x.1 x.2 new) :
        ∃ new, Declared owner (ids ++ as.filterMap Attribute.id?) s
          (as.foldl (fun x a => bindAttribute r owner x.1 x.2 a) x).1
          (as.foldl (fun x a => bindAttribute r owner x.1 x.2 a) x).2 new := by
      induction as generalizing ids x with
      | nil => simpa using h
      | cons a as ih =>
        obtain ⟨new, h⟩ := h
        have rest := ih _ (bindAttribute r owner x.1 x.2 a) (h.bindAttribute named a)
        have ids : a.id?.toList ++ as.filterMap Attribute.id? =
            (a :: as).filterMap Attribute.id? := by
          rw [List.filterMap_cons]
          cases a.id? <;> rfl
        rwa [List.append_assoc, ids] at rest
    exact fold as [] (s, .start) ⟨[], .start owner [] s⟩
  · have fold (as : List Attribute) (x : Session × Bound)
        (h : Calmed s x.1 ∧ x.2.id = none ∧ x.2.field = none) :
        let y := as.foldl (fun x a => bindAttribute r owner x.1 x.2 a) x
        Calmed s y.1 ∧ y.2.id = none ∧ y.2.field = none := by
      induction as generalizing x with
      | nil => exact h
      | cons a as ih =>
        obtain ⟨calm, id, field⟩ := h
        obtain ⟨step, sameId, sameField⟩ := calm_bindAttribute (s := x.1) (b := x.2) (a := a)
          fun id declares => named (of_eq_declare declares).1
        exact ih _ ⟨calm.trans step, sameId.trans id, sameField.trans field⟩
    obtain ⟨calm, id, field⟩ := fold as (s, .start) ⟨.refl s, rfl, rfl⟩
    exact ⟨[], (Declared.start owner _ s).calm calm id field⟩

end

end ServerMarkup
