/-
# The fields of controls

While a tree grows, its controls and the page fields keep in step (`Stage.Fielded`): fields have
different names, the field of a control is there with the control's ID and type, no other control
has it, and an ID outside templates that has come to nothing has been reported.  So the page fields
are sound when the tree is whole (`fields_sound`).
-/

import ServerMarkup.Proofs.Fields.Declared
import ServerMarkup.Proofs.Tree.Growth
import ServerMarkup.Types.Builtin

namespace ServerMarkup

/-- The fields of the controls are page fields, and so are their IDs, or they have been reported. -/
structure Stage.Fielded (st : Stage) : Prop where
  distinct : Distinct st.fields
  listed : ∀ l ∈ st.held, ∀ c, l.declaration? = some c → ∀ n, c.field = some n →
    l.inTemplate = false ∧ ∃ id, c.id = some id ∧ id.value = n ∧ ⟨n, c.type, id.span⟩ ∈ st.fields
  apart : st.held.Pairwise fun l l' => ∀ n n', l.field? = some n → l'.field? = some n' →
    sameName n n' = false
  reported : ∀ l ∈ st.held, ∀ c, l.declaration? = some c → l.inTemplate = false →
    c.field = none → ∀ id, c.id = some id →
      ⟨.duplicateControlId, id.span, [id.value]⟩ ∈ st.diagnostics

theorem field?_eq_some {l : Label} {n : String} :
    l.field? = some n ↔ ∃ c, l.declaration? = some c ∧ c.field = some n :=
  Option.bind_eq_some_iff

theorem declaration?_of_plain {l : Label} (h : l.role = .plain) : l.declaration? = none := by
  rw [Label.declaration?, h]

theorem Taken.declaration?_eq_none {var : String} {new : List Label} (h : Taken var new) :
    ∀ l ∈ new, l.declaration? = none := by
  cases h with
  | nothing => exact List.forall_mem_nil _
  | plain t => exact List.forall_mem_singleton.2 rfl
  | template t => exact List.forall_mem_singleton.2 rfl

namespace Owner

variable {r : TypeResolver} {owner : Owner} {s s' : Session} {as : List Attribute} {bound : Bound}

theorem declaration?_label (owner : Owner) (bound : Bound) : (owner.label bound).declaration? =
    if owner.declares then some ⟨owner.type, bound.id, bound.field⟩ else none := by
  unfold label Label.declaration?
  cases owner.declares <;> rfl

/-- The nodes of attributes declare nothing. -/
theorem declaration?_children (binds : bindAttributes r owner s as = (s', bound)) :
    ∀ l ∈ labelsAll owner.inTemplate bound.children, l.declaration? = none := by
  intro l mem
  refine declaration?_of_plain (plain_bindAttributes r owner s as owner.inTemplate l ?_)
  rwa [binds]

/-- What is declared among the labels of a node and the nodes of its attributes is the node. -/
theorem eq_of_mem_labels (binds : bindAttributes r owner s as = (s', bound)) {l : Label}
    {c : Declaration} (mem : l ∈ owner.labels bound) (h : l.declaration? = some c) :
    l.inTemplate = owner.inTemplate ∧ c = ⟨owner.type, bound.id, bound.field⟩ := by
  obtain rfl | mem := List.mem_cons.1 mem
  · rw [declaration?_label] at h
    split at h
    · cases h
      exact ⟨rfl, rfl⟩
    · cases h
  · rw [declaration?_children binds l mem] at h
    cases h

end Owner

namespace Stage.Fielded

variable {r : TypeResolver} {met : StartTag → Prop} {st st' : Stage}

theorem start (slots : List Slot) : Fielded ⟨slots, [], [], []⟩ where
  distinct := .nil
  listed := List.forall_mem_nil _
  apart := .nil
  reported := List.forall_mem_nil _

/-- There come labels, of which only the first may have a field, and fields for them. -/
theorem add {slots slots' : List Slot} {held new : List Label} {fields more : List DeclaredField}
    {ds ds' : List Diagnostic} (h : Fielded ⟨slots, held, fields, ds⟩)
    (distinct : Distinct (fields ++ more)) (kept : ds <+: ds')
    (first : new.Pairwise fun _ l' => l'.declaration? = none)
    (listed : ∀ l ∈ new, ∀ c, l.declaration? = some c → ∀ n, c.field = some n →
      l.inTemplate = false ∧ ∃ id, c.id = some id ∧ id.value = n ∧ ⟨n, c.type, id.span⟩ ∈ more)
    (reported : ∀ l ∈ new, ∀ c, l.declaration? = some c → l.inTemplate = false →
      c.field = none → ∀ id, c.id = some id → ⟨.duplicateControlId, id.span, [id.value]⟩ ∈ ds') :
    Fielded ⟨slots', held ++ new, fields ++ more, ds'⟩ where
  distinct := distinct
  listed := by
    refine List.forall_mem_append.2 ⟨fun l mem c hc n hn => ?_, fun l mem c hc n hn => ?_⟩
    · obtain ⟨outside, id, hid, value, listed⟩ := h.listed l mem c hc n hn
      exact ⟨outside, id, hid, value, List.mem_append_left _ listed⟩
    · obtain ⟨outside, id, hid, value, listed⟩ := listed l mem c hc n hn
      exact ⟨outside, id, hid, value, List.mem_append_right _ listed⟩
  apart := by
    refine List.pairwise_append.2 ⟨h.apart, first.imp fun none n n' _ hn' => ?_, ?_⟩
    · obtain ⟨c, hc, -⟩ := field?_eq_some.1 hn'
      rw [none] at hc
      cases hc
    · intro l mem l' mem' n n' hn hn'
      obtain ⟨c, hc, hn⟩ := field?_eq_some.1 hn
      obtain ⟨c', hc', hn'⟩ := field?_eq_some.1 hn'
      obtain ⟨-, id, -, -, old⟩ := h.listed l mem c hc n hn
      obtain ⟨-, id', -, -, new⟩ := listed l' mem' c' hc' n' hn'
      have between := (List.pairwise_append.1 distinct).2.2 _ old _ new
      exact between
  reported := List.forall_mem_append.2
    ⟨fun l mem c hc outside none id hid => kept.subset (h.reported l mem c hc outside none id hid),
      reported⟩

/-- A step of growth keeps controls and fields in step. -/
theorem step (h : Fielded st) (step : Step r met st st') : Fielded st' := by
  cases step with
  | note same kept =>
    refine ⟨h.distinct, fun l mem => h.listed l (same.mem_iff.1 mem), ?_,
      fun l mem c hc outside none id hid =>
        kept.subset (h.reported l (same.mem_iff.1 mem) c hc outside none id hid)⟩
    refine (same.pairwise_iff fun apart n n' hn hn' => ?_).2 h.apart
    rw [sameName_comm]
    exact apart n' n hn' hn
  | close => exact ⟨h.distinct, h.listed, h.apart, h.reported⟩
  | @take slot slots held fields ds new taken =>
    have none := taken.declaration?_eq_none
    have all : Fielded ⟨⟨slot.fresh, 0⟩ :: slot.bumped :: slots, held ++ new, fields ++ [], ds⟩ := by
      refine h.add ?_ List.prefix_rfl
        (List.pairwise_of_forall_mem_list fun _ _ l mem => none l mem)
        (fun l mem c hc => ?_) (fun l mem c hc => ?_)
      · rw [List.append_nil]
        exact h.distinct
      · rw [none l mem] at hc
        cases hc
      · rw [none l mem] at hc
        cases hc
    rwa [List.append_nil] at all
  | @bind slot slots held owner s s' as bound t var tag ids binds =>
    obtain ⟨new, declared⟩ := exists_declared r owner s as
    rw [binds] at declared
    have none := Owner.declaration?_children binds
    rw [declared.fields]
    refine h.add (declared.fields ▸ declared.distinct h.distinct) declared.diagnostics
      (List.pairwise_cons.2 ⟨none, List.pairwise_of_forall_mem_list fun _ _ l mem => none l mem⟩)
      (fun l mem c hc n hn => ?_) (fun l mem c hc outside nothing id hid => ?_)
    · obtain ⟨place, rfl⟩ := Owner.eq_of_mem_labels binds mem hc
      obtain ⟨outside, id, hid, rfl, mem⟩ := declared.field n hn
      exact ⟨place.trans outside, id, hid, rfl, mem⟩
    · obtain ⟨place, rfl⟩ := Owner.eq_of_mem_labels binds mem hc
      exact declared.reported nothing id hid (place.symm.trans outside)

end Stage.Fielded

theorem filter_eq_singleton {α : Type} {p : α → Bool} {l : List α} {a : α} (mem : a ∈ l)
    (ha : p a = true) (one : l.Pairwise fun x y => p x = true → p y = true → False) :
    l.filter p = [a] := by
  have none : (l.filter p).Pairwise fun _ _ => False := by
    refine (List.Pairwise.filter p one).imp_of_mem ?_
    intro x y hx hy no
    exact no (List.mem_filter.1 hx).2 (List.mem_filter.1 hy).2
  have here : a ∈ l.filter p := List.mem_filter.2 ⟨mem, ha⟩
  match hl : l.filter p, here, none with
  | [x], here, _ => rw [List.mem_singleton.1 here]
  | x :: y :: _, _, none => exact ((List.pairwise_cons.1 none).1 y List.mem_cons_self).elim

theorem sameName_of_sameName {a b n : String} (ha : sameName a n = true) (hb : sameName b n = true) :
    sameName a b = true :=
  sameName_trans ha (sameName_comm b n ▸ hb)

namespace Stage.Fielded

variable {st : Stage} {l : Label} {n : String}

/-- The field of a control is the only one with its name. -/
theorem filter_fields (h : Fielded st) {c : Declaration} (mem : l ∈ st.held)
    (hc : l.declaration? = some c) (hn : c.field = some n) :
    ∃ id, c.id = some id ∧ id.value = n ∧
      st.fields.filter (sameName ·.name n) = [⟨n, c.type, id.span⟩] := by
  obtain ⟨-, id, hid, value, listed⟩ := h.listed l mem c hc n hn
  refine ⟨id, hid, value, filter_eq_singleton listed (sameName_refl n) (h.distinct.imp ?_)⟩
  intro f g other hf hg
  rw [sameName_of_sameName hf hg] at other
  cases other

/-- A control with a field is the only one with a field of that name. -/
theorem filter_held (h : Fielded st) (mem : l ∈ st.held) (own : l.field? = some n) :
    st.held.filter (·.field?.any (sameName · n)) = [l] := by
  refine filter_eq_singleton mem (by simp [own]) (h.apart.imp ?_)
  intro x y other hx hy
  obtain ⟨nx, hnx, samex⟩ := (Option.any_eq_true _ _).1 hx
  obtain ⟨ny, hny, samey⟩ := (Option.any_eq_true _ _).1 hy
  have same := sameName_of_sameName samex samey
  rw [other nx ny hnx hny] at same
  cases same

end Stage.Fielded

/-- **Page fields are sound.**  Their names are pairwise different, ignoring case.  A control with a
field stands in no template and has the ID that the field is named for; of all fields and all
controls just this one, with the control's ID and type, has the name.  A control outside templates
with an ID and without a field has been reported. -/
theorem fields_sound {p : Project} {path text : String} {registry : Registry} {body : Body}
    {s : Session} (run : p.run path text registry = (.ok body, s)) :
    let d := (s.completed body.children).document
    d.fields.Pairwise (fun f g => sameName f.name g.name = false) ∧
      (∀ l ∈ d.labels, ∀ c, l.declaration? = some c → ∀ n, c.field = some n →
        l.inTemplate = false ∧
          (∃ id, c.id = some id ∧ id.value = n ∧
            d.fields.filter (sameName ·.name n) = [⟨n, c.type, id.span⟩]) ∧
          d.labels.filter (·.field?.any (sameName · n)) = [l]) ∧
      ∀ l ∈ d.labels, ∀ c, l.declaration? = some c → l.inTemplate = false → c.field = none →
        ∀ id, c.id = some id →
          ⟨.duplicateControlId, id.span, [id.value]⟩ ∈ (s.completed body.children).diagnostics := by
  intro d
  have fielded := (Project.leads_run run).preserves (Stage.Fielded.start _) fun _ _ h => h.step
  refine ⟨fielded.distinct, fun l mem c hc n hn => ?_, fielded.reported⟩
  exact ⟨(fielded.listed l mem c hc n hn).1, fielded.filter_fields mem hc hn,
    fielded.filter_held mem (field?_eq_some.2 ⟨c, hc, hn⟩)⟩

/-- A project with the built-in types. -/
def Project.builtin : Project :=
  ⟨(Catalog.builtin .standard).resolver, .empty, .standard⟩

/-- A page with an ID in two letter cases. -/
def twice : String :=
  "<p id=a runat=server><p id=A runat=server>"

/-- The page has one field, of one control, and the other control has been reported. -/
theorem fields_sound_twice : ∃ body s,
    Project.run .builtin "page.aspx" twice .empty = (.ok body, s) ∧
      let d := (s.completed body.children).document
      d.fields.map DeclaredField.name = ["a"] ∧
        (∃ l, d.labels.filter (·.field?.any (sameName · "a")) = [l]) ∧
        ∃ span, ⟨.duplicateControlId, span, ["A"]⟩ ∈ s.diagnostics := by
  obtain ⟨body, s, run, check⟩ := exists_of_check
    (Project.run .builtin "page.aspx" twice .empty)
    (fun body s =>
      let d := (s.completed body.children).document
      d.fields.map DeclaredField.name == ["a"] && d.labels.any (·.field? == some "a") &&
        d.labels.any fun l => l.declaration?.any fun c =>
          !l.inTemplate && c.field.isNone && c.id.any (·.value == "A"))
    (by decide +kernel)
  obtain ⟨-, owned, reported⟩ := fields_sound run
  simp only [Bool.and_eq_true, beq_iff_eq, List.any_eq_true, Option.any_eq_true,
    Bool.not_eq_true', Option.isNone_iff_eq_none] at check
  obtain ⟨⟨names, l, mem, own⟩, l', mem', c', hc', ⟨outside, none⟩, id, hid, value⟩ := check
  obtain ⟨c, hc, hn⟩ := field?_eq_some.1 own
  refine ⟨body, s, run, names, ⟨l, (owned l mem c hc "a" hn).2.2⟩, id.span, ?_⟩
  have report := reported l' mem' c' hc' outside none id hid
  rwa [value] at report

end ServerMarkup
