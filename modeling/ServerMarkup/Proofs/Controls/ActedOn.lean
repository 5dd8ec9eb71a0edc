/-
# What a directive records and what is acted on

When a parse comes to a directive, it puts a node with its record in the tree and acts on its
attributes (`directive_recorded`).  Under each name the record has the last value and the parse acts
on the first, so the two agree exactly for the names with one value.  It is the first values that
the document tells: a page that names its language twice, in whatever letter case, has the one and
records the other (`record_astray`).
-/

import ServerMarkup.Proofs.Controls.Bases
import ServerMarkup.Proofs.History.Arrivals
import ServerMarkup.Proofs.Parse.Recorded

namespace ServerMarkup

section
variable {p : Project} {path text : String} {registry : Registry} {body : Body} {s s₁ s₂ : Session}
  {g : Parsing} {b b₂ : Builder} {item : Item} {kind : DirectiveKind} {as : DirectiveAttributes}
  {span : Span}

/-- A directive outside scripts leaves a node with its record, and is acted on. -/
theorem run_directive {parsing : List String} {nested : Nested}
    (form : item.form = .directive kind as span) (outside : b.script = none)
    (run : (buildItem p parsing nested b item).run.run s₁ = (.ok b₂, s₂)) :
    b₂ = b.addLeaf span (.directive kind (recordOf as)) ∧
      (p.direct b.file kind as span).run.run s₁ = (.ok (), s₂) := by
  unfold buildItem at run
  rw [outside, form] at run
  obtain ⟨_, _, acted, done⟩ := exists_of_run_bind run
  cases done
  rw [Builder.file_addLeaf] at acted
  exact ⟨rfl, acted⟩

/-- Nothing is said before the first main directive. -/
theorem Project.ComesTo.language_eq (h : p.ComesTo path text registry g b item s₁)
    (fresh : s₁.described = false) : s₁.document.language = none := by
  obtain ⟨imports, start⟩ := Session.exists_start p.options (normalPath path) text
    (registry.addDefaults p.options)
  have said := Comes.untold h rfl fresh
  rw [start] at said
  exact said.language

/-- **The record of a directive is what is acted on exactly for the names with one value.**  The
parse comes to a directive outside scripts.  A node with its record is in the tree, and it is acted
on; under each name the first value is acted on and the last one is recorded.  The language and the
base of the document are those that are found in the first main directive, and any other one is
acted on as its record says if none of its four names comes twice. -/
theorem directive_recorded (run : p.run path text registry = (.ok body, s))
    (comes : p.ComesTo path text registry g b item s₁)
    (form : item.form = .directive kind as span) (outside : b.script = none) :
    (LeafContent.directive kind (recordOf as) ∈ (s.completed body.children).document.contents ∧
      ((p.direct g.file kind as span).run.run s₁).1 = .ok ()) ∧
    (∀ name, as.find? name = (as.valuesOf name).head? ∧
      recorded? (recordOf as) name = (as.valuesOf name).getLast? ∧
        (recorded? (recordOf as) name = as.find? name ↔ (as.valuesOf name).length ≤ 1)) ∧
    (kind.isMain = true → s₁.described = false →
      s.document.language = (as.find? "language").map Excerpt.value ∧
        p.inheritedBase kind s₁.document.imports (as.find? "inherits") =
          .ok s.document.inherits) ∧
    (kind.isMain = false → (∀ name ∈ registerNames, (as.valuesOf name).length ≤ 1) →
      p.direct g.file kind (.ofRecord (recordOf as)) span = p.direct g.file kind as span) := by
  obtain ⟨nested, b₂, s₂, step, kept⟩ := Comes.onward comes run
  obtain ⟨rfl, acted⟩ := run_directive form outside step
  rw [Comes.file_eq comes] at acted
  have agrees (name : String) :=
    recorded?_eq_find?_iff (nodup_valuesOf (Comes.mem comes) form name)
  refine ⟨⟨?_, by rw [acted]⟩, fun name => ?_, fun main fresh => ?_, fun plain single => ?_⟩
  · have here : LeafContent.directive kind (recordOf as) ∈
        (b.addLeaf span (.directive kind (recordOf as))).held s₂ := by
      refine List.mem_append_left _ ((b.contents_addLeaf _ _).mem_iff.2 ?_)
      exact List.mem_append_right _ (List.mem_singleton.2 rfl)
    have bare := (sound_parseFile p _ _ _ _ _ _ _ _ _ run).2 rfl
    have last := kept.held _ here
    rwa [Body.contents, bare, templateContents_nil, List.append_nil] at last
  · exact ⟨find?_eq_head? as name, recorded?_recordOf as name, agrees name⟩
  · unfold Project.direct at acted
    rw [if_pos main] at acted
    obtain ⟨_, _, got, described⟩ := exists_of_run_bind acted
    cases got
    rw [fresh] at described
    obtain ⟨met, language, base⟩ := Project.says_of_describe described
    obtain ⟨-, stays⟩ := kept.said met
    rw [comes.language_eq fresh, Option.or_none] at language
    exact ⟨stays.language.trans language, by rw [stays.inherits]; exact base⟩
  · refine p.direct_congr g.file span plain fun name mem => ?_
    rw [find?_ofRecord fun e => lowered_of_mem_recordOf]
    exact (agrees name).2 (single name mem)

end

/-- Whether the items are one main directive, which has no more than one language. -/
def isMainAlone : List Item → Bool
  | [item] =>
    match item.form with
    | .directive kind as _ => kind.isMain && decide ((as.valuesOf "language").length ≤ 1)
    | _ => false
  | _ => false

/-- The items of the file that the page includes are one main directive. -/
theorem item_layered : ∃ item kind as span,
    itemsOf (tokenize "b.inc" "<%@ Control Language=VB %>") = [item] ∧
      item.form = .directive kind as span ∧ kind.isMain = true ∧
        (as.valuesOf "language").length ≤ 1 := by
  have check : isMainAlone (itemsOf (tokenize "b.inc" "<%@ Control Language=VB %>")) = true := by
    decide +kernel
  unfold isMainAlone at check
  split at check
  · next item only =>
    split at check
    · next kind as span form =>
      rw [Bool.and_eq_true, decide_eq_true_eq] at check
      exact ⟨item, kind, as, span, only, form, check⟩
    · cases check
  · cases check

/-- The directive of the included file is recorded with the language that the page has. -/
theorem directive_recorded_layered : ∃ body s g b item s₁ kind as span,
    Project.layered.run "page.aspx" Project.layeredPage .empty = (.ok body, s) ∧
      Project.layered.ComesTo "page.aspx" Project.layeredPage .empty g b item s₁ ∧
      item.form = .directive kind as span ∧ b.script = none ∧ kind.isMain = true ∧
      s₁.described = false ∧
      .directive kind (recordOf as) ∈ (s.completed body.children).document.contents ∧
      s.document.language = (recorded? (recordOf as) "language").map Excerpt.value := by
  obtain ⟨body, s, run, -⟩ := exists_of_check
    (Project.layered.run "page.aspx" Project.layeredPage .empty) (fun _ _ => true)
    (by decide +kernel)
  have comments : (itemsOf (tokenize (normalPath "page.aspx") Project.layeredPage)).map
      (·.form.reference?) = [some "b.inc", none] := by decide +kernel
  obtain ⟨comment, others, items, names, -⟩ := List.map_eq_cons_iff.1 comments
  obtain ⟨item, kind, as, span, only, form, main, single⟩ := item_layered
  have resolved : resolveReference (normalPath "page.aspx") "b.inc" = "b.inc" := by
    decide +kernel
  have fresh : nameIn [normalPath "page.aspx"] "b.inc" = false := by decide +kernel
  have readable : Project.layered.files.read "b.inc" = .ok "<%@ Control Language=VB %>" := by
    decide +kernel
  obtain ⟨b, s₁, comes, outside, untold⟩ :=
    Project.exists_comesTo_first .empty items names resolved fresh readable only
  obtain ⟨⟨mem, -⟩, agrees, said, -⟩ := directive_recorded run comes form outside
  refine ⟨body, s, _, b, item, s₁, kind, as, span, run, comes, form, outside, main, untold, mem, ?_⟩
  rw [((agrees "language").2.2).2 single]
  exact (said main untold).1

/-- A page that names its language twice. -/
def twoLanguages : String :=
  "<%@ Page Language=\"C#\" language=\"VB\" %>"

/-- Whether a leaf holds a directive with the recorded language. -/
def recordsLanguage (value : String) : LeafContent → Bool
  | .directive _ table => (recorded? table "language").map Excerpt.value == some value
  | _ => false

/-- The page that names its language twice has another one than its directive records. -/
theorem record_astray : ¬ ∀ body s kind table,
    Project.bare.run "page.aspx" twoLanguages .empty = (.ok body, s) →
      .directive kind table ∈ (s.completed body.children).document.contents →
        s.document.language = (recorded? table "language").map Excerpt.value := by
  intro all
  obtain ⟨body, s, run, check⟩ := exists_of_check
    (Project.bare.run "page.aspx" twoLanguages .empty)
    (fun body s => s.document.language == some "C#" &&
      (s.completed body.children).document.contents.any (recordsLanguage "VB"))
    (by decide +kernel)
  simp only [Bool.and_eq_true, beq_iff_eq, List.any_eq_true] at check
  obtain ⟨language, leaf, mem, records⟩ := check
  cases leaf with
  | directive kind table =>
    have same := all body s kind table run mem
    rw [beq_iff_eq.1 records, language] at same
    revert same
    decide
  | text | code => cases records

end ServerMarkup
