/-
# What a failure leaves

Whatever call of a parse fails, in the file or in one that it includes, nothing is left of the tree,
and all is left that the directives have said and the diagnostics have told until then
(`ParseOutput.LeftOf`); the failure is told once, at the start of the file.  A parse that meets no
failing call tells of none (`Project.leftOf_of_calls`).
-/

import ServerMarkup.Parse.Output
import ServerMarkup.Proofs.Failure.Calls
import ServerMarkup.Proofs.Parse.Ledger
import ServerMarkup.Types.Catalog

namespace ServerMarkup

namespace Project

variable (p : Project) (path text : String) (registry : Registry)

/-- The parse of a file makes the call, in the session. -/
def Calls (c : Call) (s : Session) : Prop :=
  Meets p (parseFile p (includeDepth p (normalPath path) text) [] (normalPath path) text "ctrl" .none)
    (Session.start p.options (normalPath path) text (registry.addDefaults p.options)) c s

/-- A parse fails as the failing call says that it makes, if there is one, and only then. -/
theorem run_eq_error_iff {f : Failure} {s : Session} :
    p.run path text registry = (.error f, s) ↔
      ∃ c, p.Calls path text registry c s ∧ p.failure? c = some f := by
  constructor
  · exact (told_parseFile p _ [] _ text "ctrl" .none).meets _ f s
  · rintro ⟨c, met, fails⟩
    exact met.run fails

/-- The session of a parse, failed or not, is for its file, and tells of no failure. -/
theorem onward_run : ((Session.start p.options (normalPath path) text
    (registry.addDefaults p.options))).Onward (p.run path text registry).2 :=
  (told_parseFile p _ [] _ text "ctrl" .none).onward _

theorem file_run : (p.run path text registry).2.document.span.file = normalPath path := by
  obtain ⟨imports, start⟩ := Session.exists_start p.options (normalPath path) text
    (registry.addDefaults p.options)
  rw [(p.onward_run path text registry).span, start]
  rfl

theorem code_ne_of_mem_run {d : Diagnostic} (mem : d ∈ (p.run path text registry).2.diagnostics) :
    d.code ≠ .parseFailure := by
  obtain ⟨ds, told, codes⟩ := (p.onward_run path text registry).diagnostics
  rw [told] at mem
  exact codes d (by simpa [Session.start] using mem)

end Project

/-- The output is what a failure in the session leaves of the parse of a file. -/
structure ParseOutput.LeftOf (out : ParseOutput) (s : Session) (file : String) (f : Failure) :
    Prop where
  children : out.document.children = []
  fields : out.document.fields = []
  templates : out.document.templates = []
  scripts : out.document.scripts = []
  includes : out.document.includes = []
  language : out.document.language = s.document.language
  inherits : out.document.inherits = s.document.inherits
  space : out.document.space = s.document.space
  imports : out.document.imports = s.document.imports
  properties : out.document.properties = s.document.properties
  registry : out.registry = s.registry
  diagnostics : out.diagnostics =
    s.diagnostics ++ [⟨.parseFailure, .empty file .first, [f.message]⟩]
  told : ∀ d ∈ s.diagnostics, d.code ≠ .parseFailure

/-- **A failing parse leaves no partial tree and loses no report**: from the first call that fails,
at any depth of included files, it gives what the session has at that moment, without its tree, and
the failure; without such a call it tells of no failure. -/
theorem Project.leftOf_of_calls (p : Project) (path text : String) (registry : Registry) :
    (∀ c s f, p.Calls path text registry c s → p.failure? c = some f →
      (p.parseWith path text registry).LeftOf s (normalPath path) f) ∧
    ((∀ c s, p.Calls path text registry c s → p.failure? c = none) →
      ∀ d ∈ (p.parseWith path text registry).diagnostics, d.code ≠ .parseFailure) := by
  have file := p.file_run path text registry
  have codes (d : Diagnostic) := p.code_ne_of_mem_run path text registry (d := d)
  constructor
  · intro c s f made fails
    have run := (p.run_eq_error_iff path text registry).2 ⟨c, made, fails⟩
    rw [run] at file codes
    rw [Project.parseWith, run]
    constructor
    case diagnostics => rw [← file]; rfl
    case told => exact codes
    all_goals rfl
  · intro none d mem
    rcases run : p.run path text registry with ⟨f | body, s⟩
    · obtain ⟨c, made, fails⟩ := (p.run_eq_error_iff path text registry).1 run
      rw [none c s made] at fails
      cases fails
    · rw [Project.parseWith, run] at mem
      rw [run] at codes
      exact codes d mem

/-- A project in which a file includes one that is there and cannot be read. -/
def Project.broken : Project :=
  ⟨Catalog.empty.resolver,
    ⟨[("b.inc", "<x:a runat=server /><%--#include file=c.inc--%>")], ["c.inc"]⟩, .standard⟩

/-- A page with a control, before it includes a file that reports a tag and fails. -/
def halfWay : String :=
  "<%@ Page Language=\"C#\" %><p runat=server></p><%--#include file=b.inc--%>"

/-- The failing page keeps its language and the report, and nothing of its tree. -/
theorem leftOf_halfWay : ∃ c s f, Project.broken.Calls "page.aspx" halfWay .empty c s ∧
    Project.broken.failure? c = some f ∧ s.document.language = some "C#" ∧
      s.diagnostics.length = 1 ∧ s.document.includes.length = 1 ∧
        (Project.broken.parseWith "page.aspx" halfWay .empty).LeftOf s (normalPath "page.aspx")
          f := by
  have check : (fun x : Except Failure Body × Session => x.1.toOption.isNone &&
      (x.2.document.language == some "C#" && x.2.diagnostics.length == 1 &&
        x.2.document.includes.length == 1)) (Project.broken.run "page.aspx" halfWay .empty) =
          true := by
    decide +kernel
  rcases run : Project.broken.run "page.aspx" halfWay .empty with ⟨f | body, s⟩
  · rw [run] at check
    simp only [Bool.and_eq_true, beq_iff_eq] at check
    obtain ⟨c, made, fails⟩ := (Project.run_eq_error_iff ..).1 run
    obtain ⟨-, ⟨language, reports⟩, includes⟩ := check
    exact ⟨c, s, f, made, fails, language, reports, includes,
      (Project.leftOf_of_calls ..).1 c s f made fails⟩
  · rw [run] at check
    cases check

end ServerMarkup
