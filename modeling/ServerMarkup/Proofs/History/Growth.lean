/-
# What a history leaves alone

A deed adds to what has been gathered and takes nothing back: the lists of the document and of the
diagnostics get longer at their ends, a registered tag keeps its type, and a prefix its namespaces.
When a main directive has been acted on to its end, no deed changes what it has said any more
(`Deed.grows`).  So any moment of a history has grown from any earlier one (`Course.grows`), and
imports and included paths stay different (`Document.Distinct.past`).
-/

import ServerMarkup.Proofs.History.Deeds
import ServerMarkup.Proofs.Parse.Ledger

namespace ServerMarkup

/-! ### Registered tags -/

/-- The second registry has the tags of the first, and for each prefix its namespaces before any
others. -/
structure Registry.Grows (r r' : Registry) : Prop where
  controls : ∀ tagPrefix name type,
    r.control? tagPrefix name = some type → r'.control? tagPrefix name = some type
  namespaces : ∀ tagPrefix, r.namespacesOf tagPrefix <+: r'.namespacesOf tagPrefix

namespace Registry

theorem Grows.refl (r : Registry) : r.Grows r :=
  ⟨fun _ _ _ => id, fun _ => List.prefix_rfl⟩

theorem Grows.trans {r r₁ r' : Registry} (h : r.Grows r₁) (k : r₁.Grows r') : r.Grows r' :=
  ⟨fun tagPrefix name type known => k.controls _ _ _ (h.controls tagPrefix name type known),
    fun tagPrefix => (h.namespaces tagPrefix).trans (k.namespaces tagPrefix)⟩

theorem prefix_withNamespace (spaces : List String) (space : String) :
    spaces <+: withNamespace spaces space := by
  unfold withNamespace
  split
  · exact List.prefix_rfl
  · exact List.prefix_append _ _

theorem grows_addNamespace (r : Registry) (tagPrefix space : String) :
    r.Grows (r.addNamespace tagPrefix space) := by
  unfold addNamespace
  dsimp only
  split
  · refine ⟨fun _ _ _ => id, fun other => ?_⟩
    have keys : ((fun e : String × List String => e.1 == lowered other) ∘ fun e =>
        if e.1 == lowered tagPrefix then (e.1, withNamespace e.2 space) else e) =
          fun e => e.1 == lowered other := by
      funext e
      simp only [Function.comp_apply]
      split <;> rfl
    simp only [namespacesOf, List.find?_map, keys]
    cases r.namespaces.find? (·.1 == lowered other) with
    | none => exact List.prefix_rfl
    | some e =>
      simp only [Option.map_some, Option.getD_some]
      split
      · exact prefix_withNamespace _ _
      · exact List.prefix_rfl
  · refine ⟨fun _ _ _ => id, fun other => ?_⟩
    simp only [namespacesOf, List.find?_append]
    cases r.namespaces.find? (·.1 == lowered other) with
    | none => exact List.nil_prefix
    | some e => exact List.prefix_rfl

theorem grows_addControl (r : Registry) (tagPrefix name : String) (type : TypeRef) :
    r.Grows ((r.addControl tagPrefix name type).toOption.getD r) := by
  unfold addControl
  split
  · split <;> exact .refl r
  · refine ⟨fun _ _ _ known => ?_, fun _ => List.prefix_rfl⟩
    obtain ⟨e, found, rfl⟩ := Option.map_eq_some_iff.1 known
    simp [Except.toOption, control?, List.find?_append, found]

end Registry

/-! ### Sessions -/

/-- What is on the lists of the first document stands at the beginning of those of the second. -/
structure Document.Grows (d d' : Document) : Prop where
  imports : d.imports <+: d'.imports
  includes : d.includes <+: d'.includes
  fields : d.fields <+: d'.fields
  templates : d.templates <+: d'.templates
  scripts : d.scripts <+: d'.scripts
  properties : d.properties <+: d'.properties

/-- What the first session has gathered, the second has too. -/
structure Session.Grows (s s' : Session) : Prop where
  document : s.document.Grows s'.document
  diagnostics : s.diagnostics <+: s'.diagnostics
  registry : s.registry.Grows s'.registry

/-- Two documents of which the main directive has said the same. -/
structure Document.SaysSame (d d' : Document) : Prop where
  language : d'.language = d.language
  inherits : d'.inherits = d.inherits
  space : d'.space = d.space
  properties : d'.properties = d.properties

/-- What has been gathered at the first moment is there at the second, and what a main directive
has said to its end has stayed the same. -/
structure Moment.Grows (m m' : Moment) : Prop where
  session : m.session.Grows m'.session
  settled : m.settled = true →
    m'.settled = true ∧ m.session.document.SaysSame m'.session.document

namespace Document

theorem Grows.refl (d : Document) : d.Grows d := by
  constructor <;> exact List.prefix_rfl

theorem Grows.trans {d d₁ d' : Document} (h : d.Grows d₁) (k : d₁.Grows d') : d.Grows d' where
  imports := h.imports.trans k.imports
  includes := h.includes.trans k.includes
  fields := h.fields.trans k.fields
  templates := h.templates.trans k.templates
  scripts := h.scripts.trans k.scripts
  properties := h.properties.trans k.properties

theorem SaysSame.refl (d : Document) : d.SaysSame d :=
  ⟨rfl, rfl, rfl, rfl⟩

theorem SaysSame.trans {d d₁ d' : Document} (h : d.SaysSame d₁) (k : d₁.SaysSame d') :
    d.SaysSame d' :=
  ⟨k.language.trans h.language, k.inherits.trans h.inherits, k.space.trans h.space,
    k.properties.trans h.properties⟩

theorem prefix_imports_addImport (d : Document) (space : String) :
    d.imports <+: (d.addImport space).imports := by
  unfold addImport
  split
  · exact List.prefix_rfl
  · exact List.prefix_append _ _

theorem prefix_includes_addInclude (d : Document) (path hash : String) :
    d.includes <+: (d.addInclude path hash).includes := by
  unfold addInclude
  split
  · exact List.prefix_rfl
  · exact List.prefix_append _ _

/-- An import leaves all but the imports as they are. -/
theorem addImport_eq (d : Document) (space : String) :
    d.addImport space = { d with imports := (d.addImport space).imports } := by
  unfold addImport
  split <;> rfl

/-- An included file leaves all but the included files as they are. -/
theorem addInclude_eq (d : Document) (path hash : String) :
    d.addInclude path hash = { d with includes := (d.addInclude path hash).includes } := by
  unfold addInclude
  split <;> rfl

end Document

namespace Moment

theorem Grows.refl (m : Moment) : m.Grows m :=
  ⟨⟨.refl _, List.prefix_rfl, .refl _⟩, fun settled => ⟨settled, .refl _⟩⟩

theorem Grows.trans {m m₁ m' : Moment} (h : m.Grows m₁) (k : m₁.Grows m') : m.Grows m' := by
  refine ⟨⟨h.session.document.trans k.session.document,
    h.session.diagnostics.trans k.session.diagnostics,
    h.session.registry.trans k.session.registry⟩, fun settled => ?_⟩
  obtain ⟨settled₁, same⟩ := h.settled settled
  obtain ⟨settled', same'⟩ := k.settled settled₁
  exact ⟨settled', same.trans same'⟩

end Moment

/-! ### One deed -/

section
variable {p : Project} {m : Moment} {d : Deed}

theorem Deed.grows_document (m : Moment) (d : Deed) :
    m.session.document.Grows (d.change m.session).document := by
  have same := Document.Grows.refl m.session.document
  cases d with
  | addImport value =>
    have longer := m.session.document.prefix_imports_addImport value
    rw [change, Session.withDocument, Document.addImport_eq]
    exact { same with imports := longer }
  | addInclude path text =>
    have longer := m.session.document.prefix_includes_addInclude path (contentHash text)
    rw [change, Session.withDocument, Document.addInclude_eq]
    exact { same with includes := longer }
  | property => exact { same with properties := List.prefix_append _ _ }
  | declare => exact { same with fields := List.prefix_append _ _ }
  | addScript => exact { same with scripts := List.prefix_append _ _ }
  | addTemplate => exact { same with templates := List.prefix_append _ _ }
  | _ => exact { same with }

theorem Deed.grows_session (m : Moment) (d : Deed) : m.session.Grows (d.change m.session) := by
  have document := d.grows_document m
  cases d with
  | report => exact ⟨document, List.prefix_append _ _, .refl _⟩
  | addNamespace tagPrefix value =>
    exact ⟨document, List.prefix_rfl, m.session.registry.grows_addNamespace tagPrefix value⟩
  | addControl tagPrefix name type =>
    exact ⟨document, List.prefix_rfl, m.session.registry.grows_addControl tagPrefix name type⟩
  | _ => exact ⟨document, List.prefix_rfl, .refl _⟩

/-- Unless a main directive is being acted on, no deed changes what has been said. -/
theorem Deed.saysSame (fits : d.Fits p m) (idle : ¬ m.Acting) :
    m.session.document.SaysSame (d.change m.session).document := by
  cases d with
  | language | space | property | inherit => exact absurd fits idle
  | addImport value =>
    rw [change, Session.withDocument, Document.addImport_eq]
    exact ⟨rfl, rfl, rfl, rfl⟩
  | addInclude path text =>
    rw [change, Session.withDocument, Document.addInclude_eq]
    exact ⟨rfl, rfl, rfl, rfl⟩
  | _ => exact ⟨rfl, rfl, rfl, rfl⟩

/-- **A deed takes nothing back.** -/
theorem Deed.grows (fits : d.Fits p m) : m.Grows (m.after d) := by
  refine ⟨d.grows_session m, fun settled => ⟨?_, saysSame fits fun acting => ?_⟩⟩
  · rw [Moment.after, settled, Bool.true_or]
  · exact Bool.noConfusion (acting.2.symm.trans settled)

/-! ### Histories -/

/-- **Nothing is taken back in a history.** -/
theorem Course.grows {ds : List Deed} (h : Course p m ds) : m.Grows (m.past ds) := by
  induction ds generalizing m with
  | nil => exact .refl m
  | cons d ds ih => exact (Deed.grows h.1).trans (ih h.2)

/-- Of two moments of a history the later one has grown from the earlier one. -/
theorem Course.grows_between {ds es fs : List Deed} (h : Course p m ds) (earlier : es <+: fs)
    (later : fs <+: ds) : (m.past es).Grows (m.past fs) := by
  obtain ⟨rest, rfl⟩ := later
  obtain ⟨between, rfl⟩ := earlier
  have between := (course_append.1 (course_append.1 h).1).2
  rw [Moment.past_append]
  exact between.grows

/-- The imports of the document differ, and so do the paths of the included files. -/
structure Document.Distinct (d : Document) : Prop where
  imports : d.imports.Nodup
  includes : (d.includes.map Include.path).Nodup

theorem Document.nodup_includes_addInclude {d : Document} (path hash : String)
    (h : (d.includes.map Include.path).Nodup) :
    ((d.addInclude path hash).includes.map Include.path).Nodup := by
  unfold addInclude
  split
  · exact h
  · next new =>
    simp only [includesPath, List.any_eq_true, beq_iff_eq, not_exists, not_and] at new
    rw [List.map_append, List.map_singleton]
    refine List.nodup_append.2 ⟨h, List.pairwise_singleton _ _, fun a known b last same => ?_⟩
    obtain ⟨i, mem, rfl⟩ := List.mem_map.1 known
    exact new i mem (same.trans (List.mem_singleton.1 last))

theorem Deed.distinct (m : Moment) (d : Deed) (h : m.session.document.Distinct) :
    (d.change m.session).document.Distinct := by
  cases d with
  | addImport value =>
    rw [change, Session.withDocument]
    refine ⟨Document.nodup_imports_addImport value h.imports, ?_⟩
    rw [Document.addImport_eq]
    exact h.includes
  | addInclude path text =>
    rw [change, Session.withDocument]
    refine ⟨?_, Document.nodup_includes_addInclude path _ h.includes⟩
    rw [Document.addInclude_eq]
    exact h.imports
  | _ => exact ⟨h.imports, h.includes⟩

/-- Imports and included paths stay different. -/
theorem Document.Distinct.past {ds : List Deed} (h : m.session.document.Distinct) :
    (m.past ds).session.document.Distinct := by
  induction ds generalizing m with
  | nil => exact h
  | cons d ds ih => exact ih (m := m.after d) (d.distinct m h)

end

theorem Document.nodup_imports_addImports {d : Document} (spaces : List String)
    (h : d.imports.Nodup) : (spaces.foldl addImport d).imports.Nodup := by
  induction spaces generalizing d with
  | nil => exact h
  | cons space spaces ih => exact ih (d.nodup_imports_addImport space h)

namespace Project

variable (p : Project) (path text : String) (registry : Registry)

/-- No file is included before the first token. -/
theorem includes_beginning :
    (p.beginning path text registry).session.document.includes = [] := by
  obtain ⟨imports, start⟩ := Session.exists_start p.options (normalPath path) text
    (registry.addDefaults p.options)
  rw [beginning, start]
  rfl

/-- The imports of a file differ before its first token. -/
theorem distinct_beginning : (p.beginning path text registry).session.document.Distinct := by
  refine ⟨Document.nodup_imports_addImports p.options.defaultImports List.nodup_nil, ?_⟩
  rw [includes_beginning]
  exact List.nodup_nil

end Project

end ServerMarkup
