/-
# What a parse gives stands in its files

Every span of the output, whether the parse fails or not, is a stretch of the file that it names,
as that was read (`marks_in`).  A text of the output is what stands in its span, but for one kind of
text: the value of a directive's attribute with code in it besides other parts, which is put
together without the marks of the code (`reads_iff_not_composed`).
-/

import ServerMarkup.Proofs.Failure.Outcome
import ServerMarkup.Proofs.Fields.Owned
import ServerMarkup.Proofs.Spans.Items

namespace ServerMarkup

namespace Project

/-- The text of a file in the parse of another one: that which is parsed has its own, and any other
the one that is stored. -/
def textOf (p : Project) (path text file : String) : Option String :=
  if file = normalPath path then some text else (p.files.read file).toOption

variable (p : Project) (path text : String) (registry : Registry)

/-- The mark stands in the file that is parsed, or in one that it includes. -/
def Known (m : Mark) : Prop :=
  ∃ g, Relation.ReflTransGen (Includes p) ⟨normalPath path, text, []⟩ g ∧
    m.Known (.of g.file g.text) (tokenize g.file g.text)

theorem forgets_known : Forgets (p.Known path text) := by
  rintro e ⟨g, chain, within, -⟩
  exact ⟨g, chain, within.known⟩

/-- All marks of the first session are known. -/
theorem marked_start : (Session.start p.options (normalPath path) text registry).Marked
    (p.Known path text) := by
  have file : Span.In (.of (normalPath path) text)
      ⟨normalPath path, .first, Position.first.across text.toList⟩ := by
    have stop : (Position.first.across text.toList).offset = text.toList.length := by
      rw [Position.across, Position.offset_into, Nat.min_self]
      exact Nat.zero_add _
    refine ⟨rfl, rfl, ?_, Nat.zero_le _, Nat.le_of_eq stop⟩
    rw [stop, Position.counted_eq_into]
    rfl
  exact .start ⟨_, .refl, file.known⟩

/-- The items of all files are sound for what is known of them. -/
theorem sound_items {g : Parsing}
    (chain : Relation.ReflTransGen (Includes p) ⟨normalPath path, text, []⟩ g) :
    ItemsSound (p.Known path text) g.stop (itemsOf (tokenize g.file g.text)) :=
  g.itemsSound fun _ known => ⟨g, chain, known⟩

/-- All marks of the session are known at the end of a parse, and those of the tree. -/
theorem known_run : (p.run path text registry).2.Marked (p.Known path text) ∧
    ∀ body s, p.run path text registry = (.ok body, s) → body.Marked (p.Known path text) :=
  upholds_parseFile (p.forgets_known path text) _ (fun _ => p.sound_items path text) "ctrl" .none _
    (p.marked_start path text _)

/-- All marks of what a parse gives are known. -/
theorem known_of_mem_marks : ∀ m ∈ (p.parseWith path text registry).marks, p.Known path text m := by
  obtain ⟨session, tree⟩ := p.known_run path text registry
  rcases run : p.run path text registry with ⟨failure | body, s⟩
  · rw [run] at session
    rw [parseWith, run]
    have start : p.Known path text (Span.empty s.document.span.file .first).mark := by
      obtain ⟨g, chain, within, -⟩ := session.span
      exact ⟨g, chain, Span.In.known ⟨within.file, rfl, rfl, Nat.le_refl _, Nat.zero_le _⟩⟩
    exact session.failed failure start
  · rw [run] at session
    rw [parseWith, run]
    exact session.completed (tree body s run).children

/-- A file that is parsed has the text that it is read with. -/
theorem textOf_of_chain {g : Parsing}
    (chain : Relation.ReflTransGen (Includes p) ⟨normalPath path, text, []⟩ g) :
    p.textOf path text g.file = some g.text := by
  unfold textOf
  obtain rfl | ⟨other, read⟩ := eq_or_read_of_chain chain
  · exact if_pos rfl
  · rw [if_neg other, read]
    rfl

/-- **Every span of a parse is a stretch of the file that it names**, from an offset up to a later
one, and both positions are those that counting the characters of the file gives. -/
theorem marks_in : ∀ m ∈ (p.parseWith path text registry).marks,
    ∃ t, p.textOf path text m.span.file = some t ∧ m.span.In (.of m.span.file t) := by
  intro m mem
  obtain ⟨g, chain, within, -⟩ := p.known_of_mem_marks path text registry m mem
  have file : m.span.file = g.file := within.file
  rw [file]
  exact ⟨g.text, p.textOf_of_chain path text chain, within⟩

/-- A project with a file that shows a user. -/
def greeting : Project :=
  ⟨Catalog.empty.resolver, ⟨[("b.inc", "<b runat=server>\r\n<%= User %></b>")], []⟩, .standard⟩

/-- The code of an included file stands there, in its second line. -/
theorem marks_in_greeting :
    ∃ m ∈ (greeting.parseWith "page.aspx" "<%--#include file=b.inc--%>" .empty).marks,
      m.span.file = "b.inc" ∧ m.span.start = ⟨18, 2, 1⟩ ∧
        ∃ t, greeting.textOf "page.aspx" "<%--#include file=b.inc--%>" m.span.file = some t ∧
          m.span.In (.of m.span.file t) := by
  have check : (greeting.parseWith "page.aspx" "<%--#include file=b.inc--%>" .empty).marks.any
      (fun m => m.span.file == "b.inc" && m.span.start == ⟨18, 2, 1⟩) = true := by
    decide +kernel
  obtain ⟨m, mem, place⟩ := List.any_eq_true.1 check
  simp only [Bool.and_eq_true, beq_iff_eq] at place
  exact ⟨m, mem, place.1, place.2, marks_in _ _ _ _ m mem⟩

/-- **A text of a parse is what stands in its span, unless it is composed**: if the value of an
attribute of a directive has code and other parts, it is put together from the parts alone. -/
theorem reads_iff_not_composed : ∀ m ∈ (p.parseWith path text registry).marks,
    ∀ v, m.text = some v → ∃ t, p.textOf path text m.span.file = some t ∧
      (v.toList = (Source.of m.span.file t).between m.span.start.offset m.span.stop.offset ↔
        ¬ Composed (tokenize m.span.file t) ⟨v, m.span⟩) := by
  intro m mem v hv
  obtain ⟨g, chain, within, reads⟩ := p.known_of_mem_marks path text registry m mem
  have file : m.span.file = g.file := within.file
  rw [file]
  refine ⟨g.text, p.textOf_of_chain path text chain, fun same composed => ?_, fun plain => ?_⟩
  · exact not_verbatim_of_composed (holds_tokenize g.file g.text) composed ⟨within, same⟩
  · exact ((reads v hv).resolve_right plain).chars_eq

end Project

/-- A page whose directive has text around code. -/
def patched : String :=
  "<%@ Page Title=\"a<%=x%>b\" %>"

/-- The parse of the page gives a text that does not stand where it says. -/
theorem exists_mark_patched : ∃ body s,
    Project.run .builtin "page.aspx" patched .empty = (.ok body, s) ∧
      ∃ m ∈ (Project.parseWith .builtin "page.aspx" patched .empty).marks,
        m.text = some "axb" ∧ m.span.file = "page.aspx" ∧ "axb".toList ≠
          (Source.of m.span.file patched).between m.span.start.offset m.span.stop.offset := by
  obtain ⟨body, s, run, check⟩ := exists_of_check (Project.run .builtin "page.aspx" patched .empty)
    (fun body s => (s.completed body.children).marks.any fun m => m.text == some "axb" &&
      m.span.file == "page.aspx" && "axb".toList !=
        (Source.of m.span.file patched).between m.span.start.offset m.span.stop.offset)
    (by decide +kernel)
  obtain ⟨m, mem, place⟩ := List.any_eq_true.1 check
  simp only [Bool.and_eq_true, beq_iff_eq, bne_iff_ne] at place
  refine ⟨body, s, run, m, ?_, place.1.1, place.1.2, place.2⟩
  rwa [Project.parseWith, run]

/-- The page that is parsed has its own text. -/
theorem textOf_patched :
    Project.textOf .builtin "page.aspx" patched "page.aspx" = some patched := by
  have same : "page.aspx" = normalPath "page.aspx" := by decide +kernel
  rw [Project.textOf, if_pos same]

/-- The title of the page is no text of the page. -/
theorem title_astray : ∃ body s, Project.run .builtin "page.aspx" patched .empty = (.ok body, s) ∧
    ∃ m ∈ (Project.parseWith .builtin "page.aspx" patched .empty).marks, ∃ v t,
      m.text = some v ∧ Project.textOf .builtin "page.aspx" patched m.span.file = some t ∧
        v.toList ≠ (Source.of m.span.file t).between m.span.start.offset m.span.stop.offset := by
  obtain ⟨body, s, run, m, mem, text, file, astray⟩ := exists_mark_patched
  refine ⟨body, s, run, m, mem, "axb", patched, text, ?_, astray⟩
  rw [file, textOf_patched]

/-- The title of the page is composed. -/
theorem title_composed : ∃ m ∈ (Project.parseWith .builtin "page.aspx" patched .empty).marks,
    m.text = some "axb" ∧ Composed (tokenize m.span.file patched) ⟨"axb", m.span⟩ := by
  obtain ⟨body, s, run, m, mem, text, file, astray⟩ := exists_mark_patched
  obtain ⟨t, own, reads⟩ := Project.reads_iff_not_composed _ _ _ _ m mem "axb" text
  rw [file, textOf_patched] at own
  obtain rfl := Option.some.inj own
  exact ⟨m, mem, text, not_not.1 fun plain => astray (reads.2 plain)⟩

end ServerMarkup
