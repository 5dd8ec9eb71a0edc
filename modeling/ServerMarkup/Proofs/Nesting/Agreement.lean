/-
# The lexer and the parser agree on nesting

The lexer keeps the structured tags that are open to tell which closing tags it takes apart, and the
parser keeps frames to build the tree.  Each has rules of its own for void tags, for tags that close
themselves, for scripts and for closing tags that do not fit, and the lexer runs ahead.  Still the two
agree after every item (`nesting_agrees`): there is one frame for each structured tag, in the same
order, opened by the same start tag.  So a closing tag always finds a frame to close, and it is
reported exactly if its name is not that of the innermost structured tag.
-/

import ServerMarkup.Proofs.Nesting.Runs
import ServerMarkup.Types.Catalog

namespace ServerMarkup

/-! ### Frames and structured tags -/

/-- Where the start tag of a frame begins, and its name. -/
def Frame.opening (f : Frame) : Position × String :=
  (f.opened.span.start, f.tag.text)

/-- Where the start tag of a structured tag begins, and its name. -/
def Entry.opening (e : Entry) : Position × String :=
  (e.mark.span.start, e.name)

/-- The frames of a builder are those of the structured tags, in the same order; while a server script
is open, the innermost structured tag is its own and has no frame. -/
inductive Builder.Holds (b : Builder) : List Entry → Prop where
  | frames {es} (outside : b.script = none)
      (same : b.stack.map Frame.opening = es.map Entry.opening) : b.Holds es
  | script {script e es} (inside : b.script = some script)
      (start : script.span.start = e.mark.span.start)
      (same : b.stack.map Frame.opening = es.map Entry.opening) : b.Holds (e :: es)

/-- A tag name of a start tag is written as the lexer keeps it. -/
theorem Entry.Heads.text {e : Entry} {h : Heading} (heads : e.Heads h) : h.tag.text = e.name := by
  obtain ⟨-, x, tag, name⟩ := heads
  rw [tag, TagName.text_ofExcerpt, name]

theorem Entry.Heads.opening {e : Entry} {f : Frame} (heads : e.Heads f.heading) :
    f.opening = e.opening :=
  Prod.ext heads.1 heads.text

/-- Outside a script the frames have the names of the structured tags. -/
theorem Builder.Holds.names {b : Builder} {es : List Entry} (h : b.Holds es)
    (outside : b.script = none) : b.stack.map (·.tag.text) = es.map Entry.name := by
  cases h with
  | frames _ same =>
    have := congrArg (List.map Prod.snd) same
    rwa [List.map_map, List.map_map] at this
  | script inside _ _ => simp [outside] at inside

theorem Headed.opening {fs : List Frame} {es : List Entry}
    (h : Headed (fs.map Frame.heading) es) : fs.map Frame.opening = es.map Entry.opening := by
  induction fs generalizing es with
  | nil =>
    cases es with
    | nil => rfl
    | cons e es => exact h.elim
  | cons f fs ih =>
    cases es with
    | nil => exact h.elim
    | cons e es =>
      rw [List.map_cons, List.map_cons, h.1.opening, ih h.2]

section
variable {p : Project} {parsing : List String} {nested : Nested} {st : LexerState}
  {es rest : List Entry} {b : Builder} {item : Item}

/-- The open tags of the parser are the structured tags. -/
theorem Mirrors.holds (h : Mirrors st es b.outline) : b.Holds es := by
  cases hb : b.script with
  | none => exact .frames hb (h.frames (by simp [Builder.outline, hb])).opening
  | some script =>
    obtain ⟨-, e, below, rfl, start, headed⟩ := h.script script.span.start
      (by simp [Builder.outline, hb])
    exact .script hb start headed.opening

/-- A closing tag outside a script closes the frame of the innermost structured tag. -/
theorem Mirrors.top {e : Entry} (h : Mirrors st (e :: es) b.outline) (outside : b.script = none) :
    ∃ top below, b.stack = top :: below ∧ e.Heads top.heading := by
  have headed := h.frames (by simp [Builder.outline, outside])
  cases hs : b.stack with
  | nil =>
    simp only [Builder.outline, hs] at headed
    exact headed.elim
  | cons top below =>
    simp only [Builder.outline, hs] at headed
    exact ⟨top, below, rfl, headed.1⟩

/-- A closing tag is reported exactly if it has not the name of the innermost structured tag. -/
theorem Fits.mismatches {tag : TagName} (h : Mirrors st es b.outline)
    (fits : Fits es rest b.outline item) (hf : item.form = .endTag tag) (session : Session) :
    ∃ e, es = e :: rest ∧
      (b.script = none → ∃ top below, b.stack = top :: below ∧ top.opening = e.opening) ∧
      ((buildItem p parsing nested b item).run.run session).2.mismatches = session.mismatches ++
        if sameName e.name tag.text then []
        else [⟨.unexpectedClosingTag, tag.span, [tag.text, e.name]⟩] := by
  obtain ⟨e, x, rfl, rfl, same⟩ := fits.closes tag hf
  refine ⟨e, rfl, fun outside => ?_, ?_⟩
  · obtain ⟨top, below, hs, heads⟩ := h.top outside
    exact ⟨top, below, hs, heads.opening⟩
  · rw [TagName.text_ofExcerpt]
    cases hb : b.script with
    | none =>
      obtain ⟨top, below, hs, heads⟩ := h.top hb
      have text : top.tag.text = e.name := heads.text
      obtain ⟨-, y, tag, name⟩ := heads
      have agrees : top.tag.agrees (.ofExcerpt x) = sameName e.name x.value := by
        rw [← name, ← TagName.agrees_ofExcerpt, ← tag]
        rfl
      rw [mismatches_buildItem p parsing nested hb hf hs session, agrees, text,
        TagName.text_ofExcerpt]
    | some script =>
      rw [if_pos (same (by simp [Builder.outline, hb])), List.append_nil]
      exact quiet_buildItem p parsing nested (by simp [hb]) (by simp [hf]) session

end

/-! ### The nesting of a page -/

/-- **The lexer and the parser agree on nesting.**  In a page without server comments and directives
in its start tags, after any number of items the frames of the builder are those of the structured
tags that the lexer has open then.  A closing tag that is built next is for the innermost of them: it
closes the frame of that very start tag, and is reported exactly if the names differ.  No other item
is reported so, if what it includes is not. -/
theorem nesting_agrees {path text var : String} {outer : Outer} {p : Project}
    {parsing : List String} {nested : Nested} {session session' : Session} {b : Builder}
    {done rest : List Item} (clean : ∀ m ∈ movesOf path text, CleanTags m.tokens)
    (items : itemsOf (tokenize path text) = done ++ rest)
    (run : (done.foldlM (buildItem p parsing nested) (.start path var outer)).run.run session =
      (.ok b, session')) :
    let n := (done.flatMap Item.tokens).length
    let es := entriesAfter path text n
    es.map Entry.name = (stateAfter path text n).structured.map OpenTag.name ∧ b.Holds es ∧
    ∀ item more, rest = item :: more → item.Marked ∧
      (∀ tag, item.form = .endTag tag →
        ∃ e, es = e :: entriesAfter path text (n + item.tokens.length) ∧
          (b.script = none → ∃ top below, b.stack = top :: below ∧ top.opening = e.opening) ∧
          ((buildItem p parsing nested b item).run.run session').2.mismatches =
            session'.mismatches ++ if sameName e.name tag.text then []
              else [⟨.unexpectedClosingTag, tag.span, [tag.text, e.name]⟩]) ∧
      (item.form.isEndTag = false →
        (∀ text span, item.form = .comment text span → includeReference? text.value ≠ none →
          ∀ path text var outer, Quiet (nested path text var outer)) →
        ((buildItem p parsing nested b item).run.run session').2.mismatches =
          session'.mismatches) := by
  intro n es
  have start : Mirrors (.start (.of path text)) [] (Builder.start path var outer).outline :=
    ⟨rfl, fun _ => trivial, fun start hs => by cases hs⟩
  have agrees := agrees_of_run clean start items run
  obtain ⟨st, mirrors⟩ := agrees.mirrored
  refine ⟨?_, mirrors.holds, fun item more hr => ?_⟩
  · have named : Named [] (.start (.of path text)) := rfl
    exact named_of_isPrefix clean named (consumed_isPrefix n (movesOf path text))
  · have fits := agrees.next item more hr
    refine ⟨fits.marked, fun tag hf => fits.mismatches mirrors hf session', ?_⟩
    intro other includes
    exact quiet_buildItem p parsing nested (fun _ => other) includes session'

/-- A project without types and files. -/
def Project.bare : Project :=
  ⟨Catalog.empty.resolver, .empty, .standard⟩

/-- A page whose closing tag is that of the outer of two open tags. -/
def crossed : String :=
  "<Panel><Label>x</Panel>"

/-- The closing tag of the page closes the inner tag, and is reported. -/
theorem nesting_crossed : ∃ done item b session,
    itemsOf (tokenize "page.aspx" crossed) = done ++ [item] ∧
    (done.foldlM (buildItem .bare [] (parseFile .bare 0 []))
      (.start "page.aspx" "ctrl" .none)).run.run (.start .standard "page.aspx" crossed .empty) =
        (.ok b, session) ∧
    b.stack.map (·.tag.text) = ["Label", "Panel"] ∧
    ((buildItem .bare [] (parseFile .bare 0 []) b item).run.run session).2.mismatches.map
      Diagnostic.args = [["Panel", "Label"]] := by
  have ends (x : Except Failure Builder × Session)
      (h : (x.1.toOption.any (·.script.isNone) && x.2.mismatches.isEmpty) = true) :
      ∃ b session, x = (.ok b, session) ∧ b.script = none ∧ session.mismatches = [] := by
    obtain ⟨_ | b, session⟩ := x
    · cases h
    · exact ⟨b, session, rfl, by simpa [Except.toOption] using h⟩
  obtain ⟨b, session, run, outside, clear⟩ := ends
    ((((itemsOf (tokenize "page.aspx" crossed)).take 3).foldlM
      (buildItem .bare [] (parseFile .bare 0 [])) (.start "page.aspx" "ctrl" .none)).run.run
        (.start .standard "page.aspx" crossed .empty)) (by decide +kernel)
  have last : ((itemsOf (tokenize "page.aspx" crossed)).drop 3).map
      (·.form.endTag?.map TagName.text) = [some "Panel"] := by decide +kernel
  have names : (entriesAfter "page.aspx" crossed (((itemsOf (tokenize "page.aspx" crossed)).take
      3).flatMap Item.tokens).length).map Entry.name = ["Label", "Panel"] := by decide +kernel
  obtain ⟨item, hitem, form⟩ := List.map_eq_singleton_iff.1 last
  have items : itemsOf (tokenize "page.aspx" crossed) =
      (itemsOf (tokenize "page.aspx" crossed)).take 3 ++ [item] := by
    rw [← hitem, List.take_append_drop]
  obtain ⟨-, holds, next⟩ := nesting_agrees (by decide +kernel) items run
  obtain ⟨-, closes, -⟩ := next item [] rfl
  obtain ⟨tag, hf, outer⟩ := Option.map_eq_some_iff.1 form
  obtain ⟨e, split, -, reports⟩ := closes tag (ItemForm.eq_endTag hf)
  refine ⟨_, item, b, session, items, run, (holds.names outside).trans names, ?_⟩
  rw [split] at names
  have inner : e.name = "Label" := (List.cons.inj names).1
  rw [reports, clear, inner, outer, if_neg (by decide +kernel)]
  rfl

end ServerMarkup
