/-
# The controls of fields

A control and its field are found from one another, but for one slip: an ID makes its field at once,
and the control gives the field up when it comes to another ID on the same tag.  The field stays,
and no control has it.  While a tree grows, each field has its control or has been given up so
(`Stage.Owned`), and since the IDs of tags stand at places of their own, the tags tell which of the
two it is (`fields_owned`).
-/

import ServerMarkup.Proofs.Fields.Places
import ServerMarkup.Proofs.Fields.Sound

namespace ServerMarkup

/-- Each field has a control, or has been given up for a later ID of its tag; and the IDs of controls
are the last ones of their tags. -/
structure Stage.Owned (met : StartTag → Prop) (st : Stage) : Prop where
  kept : ∀ f ∈ st.fields, (∃ l ∈ st.held, l.field? = some f.name) ∨
    ∃ t, met t ∧ ⟨f.name, f.span⟩ ∈ t.ids.dropLast
  last : ∀ l ∈ st.held, ∀ c, l.declaration? = some c → ∀ id, c.id = some id →
    ∃ t, met t ∧ t.ids.getLast? = some id

namespace Stage.Owned

variable {r : TypeResolver} {met : StartTag → Prop} {st st' : Stage}

theorem start (slots : List Slot) : Owned met ⟨slots, [], [], []⟩ :=
  ⟨List.forall_mem_nil _, List.forall_mem_nil _⟩

/-- A step of growth keeps the owners of fields. -/
theorem step (h : Owned met st) (step : Step r met st st') : Owned met st' := by
  cases step with
  | note same =>
    refine ⟨fun f mem => (h.kept f mem).imp_left ?_, fun l mem => h.last l (same.mem_iff.1 mem)⟩
    exact fun ⟨l, mem, own⟩ => ⟨l, same.mem_iff.2 mem, own⟩
  | close => exact ⟨h.kept, h.last⟩
  | take taken =>
    refine ⟨fun f mem => (h.kept f mem).imp_left ?_, List.forall_mem_append.2 ⟨h.last, ?_⟩⟩
    · exact fun ⟨l, mem, own⟩ => ⟨l, List.mem_append_left _ mem, own⟩
    · intro l mem c hc
      rw [taken.declaration?_eq_none l mem] at hc
      cases hc
  | @bind slot slots held owner s s' as bound t var tag ids binds =>
    obtain ⟨new, declared⟩ := exists_declared r owner s as
    rw [binds, ids] at declared
    refine ⟨?_, List.forall_mem_append.2 ⟨h.last, fun l mem c hc id hid => ?_⟩⟩
    · change ∀ f ∈ s'.document.fields, _
      rw [declared.fields]
      refine List.forall_mem_append.2 ⟨fun f mem => (h.kept f mem).imp_left ?_, fun f mem => ?_⟩
      · exact fun ⟨l, mem, own⟩ => ⟨l, List.mem_append_left _ mem, own⟩
      · obtain ⟨declares, kept | later⟩ := declared.kept f mem
        · refine .inl ⟨owner.label bound, List.mem_append_right _ List.mem_cons_self, ?_⟩
          rw [Label.field?, Owner.declaration?_label, if_pos declares]
          exact kept
        · exact .inr ⟨t, tag, later⟩
    · obtain ⟨-, rfl⟩ := Owner.eq_of_mem_labels binds mem hc
      exact ⟨t, tag, declared.last id hid⟩

end Stage.Owned

/-- A tag of the file, or of a file that it includes, has a later ID than the one that makes the
field. -/
def Overwritten (p : Project) (path text : String) (f : DeclaredField) : Prop :=
  ∃ t, Met p ⟨normalPath path, text, []⟩ t ∧ ⟨f.name, f.span⟩ ∈ t.ids.dropLast

/-- **A field has its control, unless its ID has been overwritten.**  Exactly one control has the
field if no later ID stands on the tag, and none has it if there is one. -/
theorem fields_owned {p : Project} {path text : String} {registry : Registry} {body : Body}
    {s : Session} (run : p.run path text registry = (.ok body, s)) :
    let d := (s.completed body.children).document
    ∀ f ∈ d.fields,
      let owners := d.labels.filter (·.field? = some f.name)
      (¬ Overwritten p path text f ∧ ∃ l, owners = [l]) ∨
        (Overwritten p path text f ∧ owners = []) := by
  intro d f listed owners
  have leads := Project.leads_run run
  have fielded := leads.preserves (Stage.Fielded.start _) fun _ _ h => h.step
  have owned := leads.preserves (Stage.Owned.start _) fun _ _ h => h.step
  by_cases some : ∃ l ∈ d.labels, l.field? = some f.name
  · obtain ⟨l, mem, own⟩ := some
    refine .inl ⟨fun ⟨t, tag, earlier⟩ => ?_, l, ?_⟩
    · obtain ⟨c, hc, hn⟩ := field?_eq_some.1 own
      obtain ⟨id, hid, value, only⟩ := fielded.filter_fields mem hc hn
      have here : f ∈ d.fields.filter (sameName ·.name f.name) :=
        List.mem_filter.2 ⟨listed, sameName_refl _⟩
      obtain ⟨t', tag', last⟩ := owned.last l mem c hc id hid
      have same : f = ⟨f.name, c.type, id.span⟩ := List.mem_singleton.1 (only ▸ here)
      have place : (⟨f.name, f.span⟩ : Excerpt) = id := by
        rw [same, ← value]
      exact notMem_dropLast_of_getLast? tag' tag last (place ▸ earlier)
    · refine filter_eq_singleton mem (decide_eq_true own) (fielded.apart.imp ?_)
      intro x y other hx hy
      have differ := other _ _ (of_decide_eq_true hx) (of_decide_eq_true hy)
      rw [sameName_refl] at differ
      cases differ
  · refine .inr ⟨(owned.kept f listed).resolve_left some, List.filter_eq_nil_iff.2 ?_⟩
    intro l mem own
    exact some ⟨l, mem, of_decide_eq_true own⟩

/-- A page with two IDs on one tag. -/
def overwriting : String :=
  "<p runat=\"server\" id=\"a\" id=\"b\"></p>"

theorem run_overwriting : ∃ body s,
    Project.run .builtin "page.aspx" overwriting .empty = (.ok body, s) ∧
      let d := (s.completed body.children).document
      d.fields.map DeclaredField.name = ["a", "b"] ∧ ∀ l ∈ d.labels, l.field? ≠ some "a" := by
  obtain ⟨body, s, run, check⟩ := exists_of_check
    (Project.run .builtin "page.aspx" overwriting .empty)
    (fun body s =>
      let d := (s.completed body.children).document
      d.fields.map DeclaredField.name == ["a", "b"] && d.labels.all (·.field? != some "a"))
    (by decide +kernel)
  simp only [Bool.and_eq_true, beq_iff_eq, List.all_eq_true, bne_iff_ne] at check
  exact ⟨body, s, run, check⟩

/-- The first field of the page has been overwritten. -/
theorem fields_owned_overwriting : ∃ body s,
    Project.run .builtin "page.aspx" overwriting .empty = (.ok body, s) ∧
      let d := (s.completed body.children).document
      d.fields.map DeclaredField.name = ["a", "b"] ∧
        ∀ f ∈ d.fields, f.name = "a" → Overwritten .builtin "page.aspx" overwriting f := by
  obtain ⟨body, s, run, names, unowned⟩ := run_overwriting
  refine ⟨body, s, run, names, fun f mem name => ?_⟩
  obtain ⟨-, l, only⟩ | ⟨overwritten, -⟩ := fields_owned run f mem
  · have own : l ∈ _ := only ▸ List.mem_singleton.2 rfl
    obtain ⟨mem, own⟩ := List.mem_filter.1 own
    rw [name] at own
    exact absurd (of_decide_eq_true own) (unowned l mem)
  · exact overwritten

/-- The overwritten field has no control. -/
theorem field_unowned : ¬ ∀ body s,
    Project.run .builtin "page.aspx" overwriting .empty = (.ok body, s) →
      let d := (s.completed body.children).document
      ∀ f ∈ d.fields, ∃ l, d.labels.filter (·.field? = some f.name) = [l] := by
  intro all
  obtain ⟨body, s, run, names, unowned⟩ := run_overwriting
  have listed : "a" ∈ (s.completed body.children).document.fields.map DeclaredField.name := by
    rw [names]
    exact List.mem_cons_self
  obtain ⟨f, mem, name⟩ := List.mem_map.1 listed
  obtain ⟨l, only⟩ := all body s run f mem
  have own : l ∈ _ := only ▸ List.mem_singleton.2 rfl
  obtain ⟨mem, own⟩ := List.mem_filter.1 own
  rw [name] at own
  exact unowned l mem (of_decide_eq_true own)

end ServerMarkup
