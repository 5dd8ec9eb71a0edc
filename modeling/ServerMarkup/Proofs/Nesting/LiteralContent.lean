/-
# Balanced literal content

Most of a page between two server tags is plain HTML, and some of it has the names of the server
tags around it: a `<div>` in a `<div runat="server">`.  `LiteralText` lists such content:
characters, void and self-closing tags, and tags that are closed again, with attributes in double
quotes.

Where a structured tag of its name is open, a literal start tag is kept open, and its closing tag
takes just it away.  Where there is none, it is not kept, and its closing tag closes nothing
(`Backed`). Either way the content is gathered as text and no other tag is closed:
`LiteralText.gathers`, by induction on the content.
-/

import Mathlib.Data.List.Basic
import ServerMarkup.Proofs.Lexer.Inspection
import ServerMarkup.Proofs.Lexer.Openings
import ServerMarkup.Proofs.Nesting.Backed
import ServerMarkup.Proofs.Nesting.Entries

namespace ServerMarkup

open LexerState

/-! ### The content -/

/-- A tag name that is neither always taken apart nor capitalised. -/
structure LiteralName (name : List Char) : Prop where
  letter : name.head?.any isLetter = true
  chars : ∀ c ∈ name, isTagNameChar c = true
  unstructured : isStructuredTag (.ofList name) = false
  uncapitalised : looksLikeServerTag (.ofList name) = false

theorem LiteralName.head?_append {name : List Char} (named : LiteralName name) (cs : List Char) :
    (name ++ cs).head?.any isLetter = true := by
  have letter := named.letter
  cases name with
  | nil => cases letter
  | cons c name => exact letter

/-- The end of a start tag. -/
def tagEnding (selfClosing : Bool) : List Char :=
  if selfClosing then ['/', '>'] else ['>']

/-- What stands between the name of a tag and its end: blanks, and attributes other than `runat`
with values in double quotes. -/
inductive TagAttributes : List Char → Prop where
  | blanks {led} (blank : ∀ c ∈ led, isBlank c = true) : TagAttributes led
  | quoted {led name value cs} (apart : led ≠ []) (blank : ∀ c ∈ led, isBlank c = true)
      (filled : name ≠ []) (plain : ∀ c ∈ name, isNameChar c = true)
      (other : namesRunat name = false) (within : ∀ c ∈ value, c ≠ '"' ∧ c ≠ '<')
      (more : TagAttributes cs) :
      TagAttributes (led ++ (name ++ '=' :: '"' :: (value ++ '"' :: cs)))

/-- Characters and literal tags, each with its content and its closing tag unless it has none. -/
inductive LiteralText : List Char → Prop where
  | nil : LiteralText []
  | char {c cs} (plain : c ≠ '<') (more : LiteralText cs) : LiteralText (c :: cs)
  | element {name attrs inner cs} (named : LiteralName name)
      (filled : isVoidTag (.ofList name) = false) (attributes : TagAttributes attrs)
      (content : LiteralText inner) (more : LiteralText cs) :
      LiteralText ('<' :: (name ++ (attrs ++ (tagEnding false ++
        (inner ++ '<' :: '/' :: (name ++ '>' :: cs))))))
  | empty {name attrs cs selfClosing} (named : LiteralName name)
      (lone : selfClosing = true ∨ isVoidTag (.ofList name) = true)
      (attributes : TagAttributes attrs) (more : LiteralText cs) :
      LiteralText ('<' :: (name ++ (attrs ++ (tagEnding selfClosing ++ cs))))

/-! ### The look ahead -/

section
variable {s : Source} {o : Nat} {last : Option Char} {cs : List Char}

/-- The attributes of a tag are passed over. -/
theorem TagAttributes.exists_inspectFrom {attrs : List Char} (attributes : TagAttributes attrs)
    (apart : startsRunat cs = false) (slash : last ≠ some '/') :
    ∃ o' last', last' ≠ some '/' ∧ inspectFrom s o 0 none last false (attrs ++ cs) =
      inspectFrom s o' 0 none last' false cs := by
  induction attributes generalizing o last with
  | blanks blank =>
    obtain ⟨last', slash', passed⟩ := exists_inspectFrom_blanks blank (fun _ => apart) slash
    exact ⟨_, last', slash', passed⟩
  | @quoted led name value attrs _ blank filled plain other within more ih =>
    have named : NameText true name ('=' :: '"' :: (value ++ '"' :: (attrs ++ cs))) :=
      ⟨filled, plain, rfl, fun h => absurd (other.symm.trans h) Bool.false_ne_true⟩
    have unmarked :
        startsRunat (name ++ '=' :: '"' :: (value ++ '"' :: (attrs ++ cs))) = false := by
      refine Bool.eq_false_iff.2 fun word => ?_
      cases other.symm.trans (named.namesRunat_of_startsRunat (List.cons_ne_nil _ _) word)
    have fragment : IsFragment '"' value :=
      ⟨fun mem => (within _ mem).1 rfl,
        fun opens => (within _ (opens.subset List.mem_cons_self)).2 rfl⟩
    have closed : ¬ ['<', '%'] <+: '"' :: (attrs ++ cs) := by
      rintro ⟨ys, hy⟩
      cases (List.cons.inj hy).1
    have sign : isBlank '=' = false := by decide
    obtain ⟨last₁, -, led'⟩ := exists_inspectFrom_blanks (s := s) (o := o) (r := false) blank
      (fun _ => unmarked) slash
    obtain ⟨last₂, name'⟩ := @exists_inspectFrom_word s (o + led.length)
      ('=' :: '"' :: (value ++ '"' :: (attrs ++ cs))) name false last₁
      fun c hc => not_mark_of_isNameChar (plain c hc)
    obtain ⟨last₃, value'⟩ := @exists_inspectFrom_fragment s
      (o + led.length + name.length + 1 + 1) ('"' :: (attrs ++ cs)) '"' value false (some '"')
      fragment (by simp)
    obtain ⟨o', last₄, slash', rest⟩ := @ih
      (o + led.length + name.length + 1 + 1 + value.length + 1) (some '"') (by decide)
    refine ⟨o', last₄, slash', ?_⟩
    have text : led ++ (name ++ '=' :: '"' :: (value ++ '"' :: attrs)) ++ cs =
        led ++ (name ++ '=' :: '"' :: (value ++ '"' :: (attrs ++ cs))) := by simp
    rw [text, led', name', inspectFrom_char (by decide), sign, Bool.false_and, Bool.or_false,
      inspectFrom_quote (.inl rfl), value', inspectFrom_within closed, if_pos rfl, rest]

/-- A look ahead finds no `runat` among such attributes, and how the tag ends. -/
theorem TagAttributes.inspectTag_eq {attrs : List Char} (attributes : TagAttributes attrs)
    {selfClosing : Bool} {c : Cursor} (rest : c.rest = attrs ++ (tagEnding selfClosing ++ cs)) :
    inspectTag s c = ⟨false, selfClosing⟩ := by
  have apart : startsRunat (tagEnding selfClosing ++ cs) = false := by
    cases selfClosing <;> exact startsRunat_eq_false List.mem_cons_self (by decide)
  obtain ⟨o, last, slash, passed⟩ :=
    @TagAttributes.exists_inspectFrom s c.offset none _ _ attributes apart (by simp)
  rw [inspectTag, rest, passed]
  cases selfClosing with
  | false =>
    rw [tagEnding, if_neg Bool.false_ne_true, List.singleton_append, inspectFrom.eq_def]
    simp [slash, List.isPrefixOf]
  | true =>
    have led : isBlank '/' = false := by decide
    rw [tagEnding, if_pos rfl, List.cons_append, inspectFrom_char (by decide), led,
      inspectFrom.eq_def]
    simp [List.isPrefixOf]

end

/-- No `<` stands between the name of the tag and its end. -/
theorem TagAttributes.not_mem {attrs : List Char} (attributes : TagAttributes attrs) :
    '<' ∉ attrs := by
  induction attributes with
  | blanks blank => exact fun mem => absurd (blank '<' mem) (by decide)
  | @quoted led name value attrs _ blank _ plain _ within _ ih =>
    have led : '<' ∉ led := fun mem => absurd (blank '<' mem) (by decide)
    have name : '<' ∉ name := fun mem => absurd (plain '<' mem) (by decide)
    have value : '<' ∉ value := fun mem => (within '<' mem).2 rfl
    simp [led, name, value, ih]

/-- The name of the tag ends in front of them. -/
theorem TagAttributes.ends_name {attrs : List Char} (attributes : TagAttributes attrs)
    (selfClosing : Bool) (ds : List Char) :
    (attrs ++ (tagEnding selfClosing ++ ds)).head?.any isTagNameChar = false := by
  have first : attrs = [] ∨ attrs.head?.any isBlank = true := by
    cases attributes with
    | blanks blank =>
      cases attrs with
      | nil => exact .inl rfl
      | cons c led => exact .inr (blank c List.mem_cons_self)
    | @quoted led _ _ _ apart blank =>
      obtain ⟨c, led, rfl⟩ := List.exists_cons_of_ne_nil apart
      exact .inr (blank c List.mem_cons_self)
  rcases first with rfl | first
  · cases selfClosing
    · exact show isTagNameChar '>' = false by decide +kernel
    · exact show isTagNameChar '/' = false by decide +kernel
  · cases attrs with
    | nil => cases first
    | cons c attrs => exact not_isTagNameChar_of_isBlank first

namespace LexerState

variable {s : Source} {st mid next : LexerState}

/-! ### Gathering -/

/-- The text that is gathered and not yet emitted. -/
def pending (st : LexerState) : List Char :=
  st.text.rest.take (st.cursor.offset - st.text.offset)

/-- The lexer comes from one state to another by steps that emit nothing. -/
def Gathers (s : Source) (st next : LexerState) : Prop :=
  ∃ quiet : List Move, (∀ q ∈ quiet, q.tokens = []) ∧ st.moves s = quiet ++ next.moves s

namespace Gathers

theorem refl (st : LexerState) : Gathers s st st :=
  ⟨[], List.forall_mem_nil _, rfl⟩

theorem trans (h : Gathers s st mid) (k : Gathers s mid next) : Gathers s st next := by
  obtain ⟨quiet, silent, run⟩ := h
  obtain ⟨quiet', silent', run'⟩ := k
  exact ⟨quiet ++ quiet', List.forall_mem_append.2 ⟨silent, silent'⟩,
    by rw [run, run', List.append_assoc]⟩

theorem of_step (h : st.step s = ([], some next)) : Gathers s st next :=
  ⟨[⟨st, [], next⟩], List.forall_mem_singleton.2 rfl, moves_of_step h⟩

end Gathers

theorem addText_addText (st : LexerState) (m n : Nat) :
    (st.addText m).addText n = st.addText (m + n) := by
  simp [addText, Cursor.skip_skip]

/-- Text is gathered up to the next `<`. -/
theorem gathers_text {pre cs : List Char} (outside : st.raw = none)
    (rest : st.cursor.rest = pre ++ cs) (ends : cs = [] ∨ cs.head? = some '<')
    (text : pre = [] ∨ st.markup? s = none ∧ '<' ∉ pre.tail) :
    Gathers s st (st.addText pre.length) := by
  by_cases filled : pre = []
  · rw [filled, List.length_nil, addText, Cursor.skip_zero]
    exact .refl st
  · obtain ⟨plain, within⟩ := text.resolve_left filled
    have stepped := step_text outside (by simp [rest, filled]) plain
    rw [rest, textReach_append filled within ends] at stepped
    exact .of_step stepped

/-- Gathering adds to the pending text. -/
theorem On.pending_addText {cs ds : List Char} (on : st.On s) (rest : st.cursor.rest = cs ++ ds) :
    (st.addText cs.length).pending = st.pending ++ cs := by
  have place : st.cursor.rest = st.text.rest.drop (st.cursor.offset - st.text.offset) := by
    rw [on.cursor.rest_eq, on.text.rest_eq, List.drop_drop, Nat.add_sub_cancel' on.text_le]
  have offset : (st.addText cs.length).cursor.offset = st.cursor.offset + cs.length := by
    rw [cursor_addText, Cursor.offset_skip, rest, List.length_append, Nat.min_eq_left (by omega)]
  have text_le := on.text_le
  have size : (st.addText cs.length).cursor.offset - (st.addText cs.length).text.offset =
      st.cursor.offset - st.text.offset + cs.length := by
    rw [offset]
    exact Nat.sub_add_comm on.text_le
  rw [pending, size, pending, List.take_add]
  change _ ++ (st.text.rest.drop _).take _ = _
  rw [← place, rest, List.take_left]
  rfl

/-- Behind the name of a tag there is text up to the end of the tag. -/
theorem text_attributes {attrs ds : List Char} (attributes : TagAttributes attrs)
    (selfClosing : Bool) (rest : st.cursor.rest = attrs ++ tagEnding selfClosing ++ ds) :
    st.markup? s = none ∧ '<' ∉ (attrs ++ tagEnding selfClosing).tail := by
  have filled : attrs ++ tagEnding selfClosing ≠ [] := by cases selfClosing <;> simp [tagEnding]
  have absent : '<' ∉ attrs ++ tagEnding selfClosing := by
    cases selfClosing <;> simp [attributes.not_mem, tagEnding]
  refine ⟨markup?_eq_none_of_head? ?_, fun mem => absent (List.mem_of_mem_tail mem)⟩
  rw [rest, List.head?_append_of_ne_nil _ filled]
  exact fun first => absent (List.mem_of_mem_head? first)

/-- A start tag with such a name and such attributes is literal. -/
theorem atStartTag_of_literalName {name attrs ds : List Char} {selfClosing : Bool}
    (named : LiteralName name) (attributes : TagAttributes attrs) (outside : st.raw = none)
    (rest : st.cursor.rest = '<' :: (name ++ (attrs ++ (tagEnding selfClosing ++ ds)))) :
    st.AtStartTag ∧ st.startRole s = .literal ∧ st.startName = .ofList name ∧
      inspectTag s (st.cursor.skip (st.startName.length + 1)) = ⟨false, selfClosing⟩ := by
  have scanned : tagNameOf (st.cursor.rest.drop 1) = name := by
    rw [rest, List.drop_succ_cons, List.drop_zero, tagNameOf_append_iff]
    exact ⟨named.chars, attributes.ends_name selfClosing ds⟩
  have startName : st.startName = .ofList name := congrArg String.ofList scanned
  have shape : inspectTag s (st.cursor.skip (st.startName.length + 1)) = ⟨false, selfClosing⟩ := by
    refine attributes.inspectTag_eq (?_ : _ = attrs ++ (tagEnding selfClosing ++ ds))
    rw [startName, String.length_ofList, Cursor.rest_skip, rest, List.drop_succ_cons,
      List.drop_left]
  have tag : st.AtStartTag :=
    ⟨outside, by simp [Cursor.sees, rest], by rw [rest]; exact named.head?_append _⟩
  have role : st.startRole s = .literal := by
    rw [startRole, shape, startName, named.uncapitalised, named.unstructured]
    rfl
  exact ⟨tag, role, startName, shape⟩

/-- A literal start tag is text up to the end of its name. -/
theorem step_literalTag {name attrs ds : List Char} {selfClosing : Bool} (named : LiteralName name)
    (attributes : TagAttributes attrs) (outside : st.raw = none)
    (rest : st.cursor.rest = '<' :: (name ++ (attrs ++ (tagEnding selfClosing ++ ds)))) :
    st.step s = ([], some (st.afterLiteralTag (.ofList name) ⟨false, selfClosing⟩
      (isVoidTag (.ofList name)) (name.length + 1))) := by
  obtain ⟨tag, role, startName, shape⟩ :=
    atStartTag_of_literalName (s := s) named attributes outside rest
  rw [tag.step_literal role, shape, startName, String.length_ofList]

/-- A literal start tag with content is text up to the end of its name. -/
theorem gathers_startTag {name attrs ds : List Char} (named : LiteralName name)
    (filled : isVoidTag (.ofList name) = false) (attributes : TagAttributes attrs)
    (outside : st.raw = none)
    (rest : st.cursor.rest = '<' :: (name ++ (attrs ++ (tagEnding false ++ ds)))) :
    Gathers s st { st.addText (name.length + 1) with
      opened := keepOpen st.opened (.ofList name) } := by
  have stepped := step_literalTag (s := s) named attributes outside rest
  rw [filled, afterLiteralTag_of_content rfl] at stepped
  exact .of_step stepped

/-- The closing tag of a literal tag is text, and leaves the tags open that were so before it. -/
theorem exists_gathers_endTag {name ds : List Char} {opened : List OpenTag}
    (named : LiteralName name) (outside : st.raw = none) (backed : Backed opened)
    (kept : st.opened = keepOpen opened (.ofList name))
    (rest : st.cursor.rest = '<' :: '/' :: (name ++ '>' :: ds)) :
    ∃ taken pre, taken ++ pre = '<' :: '/' :: (name ++ ['>']) ∧
      Gathers s st { st.addText taken.length with opened } ∧
      markup? s { st.addText taken.length with opened } = none ∧ '<' ∉ pre.tail := by
  have scanned : tagNameOf (st.cursor.rest.drop 2) = name := by
    rw [rest, List.drop_succ_cons, List.drop_succ_cons, List.drop_zero, tagNameOf_append_iff]
    exact ⟨named.chars, show isTagNameChar '>' = false by decide +kernel⟩
  have endName : st.endName = .ofList name := congrArg String.ofList scanned
  have tag : st.AtEndTag :=
    ⟨outside, by simp [Cursor.sees, rest], by rw [rest]; exact named.head?_append _⟩
  by_cases nested : structuredOpen opened (.ofList name) = true
  · -- The tag is the innermost one.
    rw [keepOpen_of_nested nested] at kept
    have closes : closeTag? st.opened st.endName = some (.literal, opened) := by
      simp [closeTag?, kept, endName]
    have stepped := tag.step_literal (s := s) closes
    rw [endName, String.length_ofList] at stepped
    refine ⟨'<' :: '/' :: name, ['>'], by simp, .of_step stepped, ?_, List.not_mem_nil⟩
    refine markup?_eq_none_of_head? ?_
    simp [rest]
  · -- No tag of that name is open.
    rw [Bool.not_eq_true] at nested
    rw [keepOpen_of_alone nested] at kept
    have closes : closeTag? st.opened st.endName = none := by
      rw [kept, endName]
      exact backed.closeTag?_eq_none nested named.uncapitalised
    have same : { st.addText 0 with opened } = st := by
      rw [addText, Cursor.skip_zero, ← kept]
    have within : '<' ∉ name := fun mem => absurd (named.chars '<' mem) (by decide +kernel)
    refine ⟨[], _, rfl, ?_, ?_, by simp [within]⟩
    · rw [List.length_nil, same]
      exact .refl st
    · rw [List.length_nil, same]
      exact tag.markup?_eq_none closes

end LexerState

/-- **Balanced literal content is gathered as text**, and what is open stays open.  The lexer may be
in front of the content or in text before it. -/
theorem LiteralText.gathers {s : Source} {cs : List Char} (written : LiteralText cs)
    {st : LexerState} {pre after : List Char} (outside : st.raw = none) (backed : Backed st.opened)
    (rest : st.cursor.rest = pre ++ (cs ++ after)) (ends : after = [] ∨ after.head? = some '<')
    (text : pre = [] ∨ st.markup? s = none ∧ '<' ∉ pre.tail) :
    Gathers s st (st.addText (pre ++ cs).length) := by
  induction written generalizing st pre after with
  | nil =>
    rw [List.append_nil]
    exact gathers_text outside rest ends text
  | @char c cs plain more ih =>
    have text' : pre ++ [c] = [] ∨ st.markup? s = none ∧ '<' ∉ (pre ++ [c]).tail := by
      right
      cases pre with
      | nil =>
        refine ⟨markup?_eq_none_of_head? ?_, List.not_mem_nil⟩
        rw [rest]
        simpa using plain
      | cons d pre =>
        obtain ⟨text, within⟩ := text.resolve_left (List.cons_ne_nil d pre)
        exact ⟨text, by simpa [plain.symm] using within⟩
    have := ih outside backed (by simp [rest]) ends text'
    rwa [List.append_assoc] at this
  | @element name attrs inner cs named filled attributes content more ihContent ihMore =>
    have outside₀ : (st.addText pre.length).raw = none := outside
    have rest₀ : (st.addText pre.length).cursor.rest = '<' :: (name ++ (attrs ++
        (tagEnding false ++ (inner ++ '<' :: '/' :: (name ++ '>' :: cs) ++ after)))) := by
      simp [rest, tagEnding]
    have opens := gathers_startTag (s := s) named filled attributes outside₀ rest₀
    rw [addText_addText] at opens
    -- The content ends in front of its closing tag.
    generalize hOpen : { st.addText (pre.length + (name.length + 1)) with
      opened := keepOpen (st.addText pre.length).opened (.ofList name) } = st₁ at opens
    have kept : st₁.opened = keepOpen st.opened (.ofList name) := hOpen ▸ rfl
    have outside₁ : st₁.raw = none := hOpen ▸ outside
    have rest₁ : st₁.cursor.rest = attrs ++ tagEnding false ++
        (inner ++ '<' :: '/' :: (name ++ '>' :: (cs ++ after))) := by
      rw [← hOpen]
      simp [rest, tagEnding]
    have backed₁ : Backed st₁.opened := kept ▸ backed.kept
    have inside := ihContent outside₁ backed₁ rest₁ (.inr rfl)
      (.inr (text_attributes attributes false rest₁))
    have rest₂ : (st₁.addText (attrs ++ tagEnding false ++ inner).length).cursor.rest =
        '<' :: '/' :: (name ++ '>' :: (cs ++ after)) := by
      rw [cursor_addText, Cursor.rest_skip, rest₁, ← List.append_assoc, List.drop_left]
    have outside₂ : (st₁.addText (attrs ++ tagEnding false ++ inner).length).raw = none := outside₁
    obtain ⟨taken, pre', split, closes, text'⟩ :=
      exists_gathers_endTag (s := s) named outside₂ backed kept rest₂
    have rest₃ : (st₁.addText (attrs ++ tagEnding false ++ inner).length).cursor.rest.drop
        taken.length = pre' ++ (cs ++ after) := by
      have whole : '<' :: '/' :: (name ++ '>' :: (cs ++ after)) =
          taken ++ (pre' ++ (cs ++ after)) := by
        rw [← List.append_assoc, split]
        simp
      rw [rest₂, whole, List.drop_left]
    have behind := @ihMore { (st₁.addText (attrs ++ tagEnding false ++ inner).length).addText
      taken.length with opened := st.opened } _ _ outside₁ backed rest₃ ends (.inr text')
    have steps := (gathers_text outside rest (.inr rfl) text).trans opens
    refine ((steps.trans inside).trans closes).trans ?_
    convert behind using 1
    have size := congrArg List.length split
    simp only [List.length_append, List.length_cons, List.length_nil] at size
    simp only [← hOpen, addText, Cursor.skip_skip, LexerState.mk.injEq, and_true]
    congr 1
    simp only [List.length_append, List.length_cons]
    omega
  | @empty name attrs cs selfClosing named lone attributes more ih =>
    have outside₀ : (st.addText pre.length).raw = none := outside
    have rest₀ : (st.addText pre.length).cursor.rest =
        '<' :: (name ++ (attrs ++ (tagEnding selfClosing ++ (cs ++ after)))) := by
      simp [rest]
    have opens := step_literalTag (s := s) named attributes outside₀ rest₀
    rw [afterLiteralTag_of_unkept (lone.imp_right .inl), addText_addText] at opens
    have rest' : (st.addText (pre.length + (name.length + 1))).cursor.rest =
        attrs ++ tagEnding selfClosing ++ (cs ++ after) := by
      simp [rest]
    have behind := @ih (st.addText (pre.length + (name.length + 1))) _ _ outside backed rest' ends
      (.inr (text_attributes attributes selfClosing rest'))
    rw [addText_addText] at behind
    refine ((gathers_text outside rest (.inr rfl) text).trans (.of_step opens)).trans ?_
    convert behind using 2
    simp
    omega

/-- **Balanced literal content disturbs no open tag.**  Wherever the lexer stands in front of such
content, outside the body of a script or style sheet and whatever tags are open, it gathers just the
content as text, emits no token and leaves the same tags open. -/
theorem literalText_undisturbing {file text : String} {ms ns : List Move} {m : Move}
    {cs after : List Char} (run : movesOf file text = ms ++ m :: ns) (outside : m.before.raw = none)
    (written : LiteralText cs) (rest : m.before.cursor.rest = cs ++ after)
    (ends : after = [] ∨ after.head? = some '<') :
    ∃ quiet n more, m :: ns = quiet ++ n :: more ∧ (∀ q ∈ quiet, q.tokens = []) ∧
      n.before.cursor.rest = after ∧ n.before.pending = m.before.pending ++ cs ∧
      n.before.opened = m.before.opened ∧ n.before.raw = none := by
  have backed : Backed m.before.opened :=
    @backed_of_moves _ (start (.of file text)) _ _ _ trivial run
  obtain ⟨on, -⟩ := goes_of_moves (on_start (.of file text)) run
  obtain ⟨quiet, silent, gathered⟩ :=
    @LiteralText.gathers (.of file text) _ written _ [] _ outside backed rest ends (.inl rfl)
  rw [moves_eq_of_append run, List.nil_append] at gathered
  obtain ⟨n, more, first, before⟩ :=
    exists_moves_eq_cons (.of file text) (m.before.addText cs.length)
  refine ⟨quiet, n, more, by rw [gathered, first], silent, ?_⟩
  rw [before]
  refine ⟨?_, on.pending_addText rest, rfl, outside⟩
  rw [cursor_addText, Cursor.rest_skip, rest, List.drop_left]

/-- A paragraph with content in a paragraph that is for the server. -/
theorem literalText_nested : ∃ ms m ns,
    movesOf "page.aspx" "<p runat=\"server\"><p a=\"x>\">b<br><i/></p></p>" = ms ++ m :: ns ∧
      m.before.opened = [⟨"p", .server⟩] ∧
      ∃ quiet n more, m :: ns = quiet ++ n :: more ∧ (∀ q ∈ quiet, q.tokens = []) ∧
        n.before.cursor.rest = "</p>".toList ∧
        n.before.pending = m.before.pending ++ "<p a=\"x>\">b<br><i/></p>".toList ∧
        n.before.opened = m.before.opened ∧ n.before.raw = none := by
  obtain ⟨m, hm, facts⟩ := Option.map_eq_some_iff.1
    (show (((movesOf "page.aspx"
        "<p runat=\"server\"><p a=\"x>\">b<br><i/></p></p>").drop 1).head?.map fun m =>
          (m.before.raw, m.before.cursor.rest, m.before.opened)) =
      some (none, "<p a=\"x>\">b<br><i/></p></p>".toList, [⟨"p", .server⟩]) by decide +kernel)
  obtain ⟨ns, behind⟩ := List.head?_eq_some_iff.1 hm
  have run := (List.take_append_drop 1
    (movesOf "page.aspx" "<p runat=\"server\"><p a=\"x>\">b<br><i/></p></p>")).symm
  rw [behind] at run
  obtain ⟨outside, facts⟩ := Prod.mk.inj facts
  obtain ⟨rest, opened⟩ := Prod.mk.inj facts
  have named (name : List Char) (chars : name.all isTagNameChar = true)
      (h : name.head?.any isLetter = true ∧ isStructuredTag (.ofList name) = false ∧
        looksLikeServerTag (.ofList name) = false) : LiteralName name :=
    ⟨h.1, List.all_eq_true.1 chars, h.2.1, h.2.2⟩
  have paragraph := named ['p'] (by decide +kernel) (by decide +kernel)
  have attribute' : TagAttributes [' ', 'a', '=', '"', 'x', '>', '"'] :=
    @TagAttributes.quoted [' '] ['a'] ['x', '>'] [] (by decide) (List.all_eq_true.1 rfl)
      (by decide) (List.all_eq_true.1 rfl) (by decide) (by simp) (.blanks (List.forall_mem_nil _))
  have break' : LiteralText "b<br><i/>".toList :=
    .char (by decide) (@LiteralText.empty ['b', 'r'] [] _ false
      (named _ (by decide +kernel) (by decide +kernel)) (.inr (by decide +kernel))
      (.blanks (List.forall_mem_nil _))
      (@LiteralText.empty ['i'] [] _ true
        (named _ (by decide +kernel) (by decide +kernel)) (.inl rfl)
        (.blanks (List.forall_mem_nil _)) .nil))
  have written : LiteralText "<p a=\"x>\">b<br><i/></p>".toList :=
    .element paragraph (by decide +kernel) attribute' break' .nil
  exact ⟨_, m, ns, run, opened, literalText_undisturbing run outside written rest (.inr rfl)⟩

end ServerMarkup
