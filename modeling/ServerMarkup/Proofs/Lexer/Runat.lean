/-
# The look ahead for `runat` and the readers of a tag

Whether a tag is meant for the server is decided before any of it is read, by a look ahead that
knows less of attributes than the readers do.  Over the text of a tag that is written as `TagText`
says, the readers find an attribute `runat` exactly if one is written there (`Reads.tagText`), and
so does the look ahead, whatever stands before the tag and behind it (`runat_inspectTag_iff`).

Elsewhere the two may differ.  The look ahead takes any quote for the start of a quoted value, also
the apostrophe in `title=it's`, and passes over a `runat` behind it (`runat_of_apostrophe`).
-/

import ServerMarkup.Proofs.Lexer.Pieces

namespace ServerMarkup

variable {s : Source} {e : TagEnd} {c d : Cursor} {ts : List Token} {k cs : List Char}

/-! ### The body of a tag -/

/-- The body of a tag is read from behind the blanks before it. -/
theorem Reads.body_congr {c' : Cursor} (h : Reads s (.body e) c ts d)
    (same : c'.skipBlanks = c.skipBlanks) : Reads s (.body e) c' ts d := by
  cases h with
  | bodyCut atEnd =>
    rw [← same] at *
    exact .bodyCut atEnd
  | bodyOpened closed =>
    rw [← same] at *
    exact .bodyOpened closed
  | bodySelfClosed closed =>
    rw [← same] at *
    exact .bodySelfClosed closed
  | bodyConstruct first more => exact .bodyConstruct (same ▸ first) more
  | bodyAttribute plain first more => exact .bodyAttribute (same ▸ plain) (same ▸ first) more
  | bodyStray left unclosed going plain unnamed more =>
    rw [← same] at *
    exact .bodyStray left unclosed going plain unnamed more

/-- What may begin the body of a tag that does not begin with a blank. -/
inductive Begins (s : Source) (e : TagEnd) (c : Cursor) (ts : List Token) (d : Cursor) : Prop where
  | nothing (atEnd : c.rest = [])
  | opened (closed : c.sees ['>'] = true) (tokens : ts.any Token.isRunat = false)
      (next : d = c.skip 1)
  | selfClosed (closed : c.sees ['/', '>'] = true) (tokens : ts.any Token.isRunat = false)
      (next : d = c.skip 2)
  | construct {us vs d'} (first : Reads s .construct c us d') (more : Reads s (.body e) d' vs d)
      (tokens : ts = us ++ vs)
  | named {us vs d'} (plain : s.construct? c.offset c.rest = none)
      (filled : nameReach .tag c ≠ 0)
      (first : Reads s (.attribute .tag) c us d') (more : Reads s (.body e) d' vs d)
      (tokens : ts = us ++ vs)
  | stray (unclosed : c.sees ['>'] = false) (going : c.sees ['/', '>'] = false)
      (plain : s.construct? c.offset c.rest = none)
      (unnamed : nameReach .tag c = 0) (more : Reads s (.body e) (c.skip 1) ts d)

theorem Reads.begins (h : Reads s (.body e) c ts d) (led : c.skipBlanks = c) :
    Begins s e c ts d := by
  cases h with
  | bodyCut atEnd => exact .nothing (led ▸ atEnd)
  | bodyOpened closed =>
    rw [led] at *
    exact .opened closed rfl rfl
  | bodySelfClosed closed =>
    rw [led] at *
    exact .selfClosed closed rfl rfl
  | bodyConstruct first more => exact .construct (led ▸ first) more rfl
  | bodyAttribute plain first more =>
    rw [led] at *
    refine .named plain ?_ first more rfl
    cases first with
    | bare named _ | unquoted named _ _ | quoted named _ _ _ => exact named
  | bodyStray left unclosed going plain unnamed more =>
    rw [led] at *
    exact .stray unclosed going plain unnamed more

section Body

variable {x : Char}

theorem nameReach_eq_zero_iff (text : c.rest = x :: cs) :
    nameReach .tag c = 0 ↔ endsName .tag (x :: cs) = true := by
  rw [nameReach_eq_zero, text]

theorem sees_iff (text : c.rest = x :: cs) (mark : List Char) :
    c.sees mark = true ↔ mark <+: x :: cs := by
  rw [Cursor.sees, text, List.isPrefixOf_iff_prefix]

theorem Reads.first_of_construct (h : Reads s .construct c ts d) (text : c.rest = x :: cs) :
    x = '<' := by
  by_cases opens : ['<', '%'] <+: x :: cs
  · obtain ⟨ys, hy⟩ := opens
    exact (List.cons.inj hy).1.symm
  · have found := h.construct?_ne_none
    rw [text] at found
    exact absurd (construct?_eq_none opens _) found

/-- At its `>` a tag ends. -/
theorem Reads.ofClose (h : Reads s (.body e) c ts d) (text : c.rest = '>' :: cs) :
    ts.any Token.isRunat = false ∧ d = c.skip 1 := by
  have led : c.rest.head?.any isBlank = false := by
    rw [text]
    exact show isBlank _ = false by decide
  cases h.begins (Cursor.skipBlanks_of_led led) with
  | nothing atEnd => cases text.symm.trans atEnd
  | opened _ tokens next => exact ⟨tokens, next⟩
  | selfClosed closed _ _ =>
    obtain ⟨ys, hy⟩ := (sees_iff text _).1 closed
    cases hy
  | construct first _ _ => cases first.first_of_construct text
  | named _ filled _ _ _ => exact absurd ((nameReach_eq_zero_iff text).2 rfl) filled
  | stray unclosed _ _ _ _ =>
    rw [(sees_iff text _).2 ⟨cs, rfl⟩] at unclosed
    cases unclosed

/-- At its `/>` a tag ends. -/
theorem Reads.ofSlashClose (h : Reads s (.body e) c ts d) (text : c.rest = '/' :: '>' :: cs) :
    ts.any Token.isRunat = false ∧ d = c.skip 2 := by
  have led : c.rest.head?.any isBlank = false := by
    rw [text]
    exact show isBlank _ = false by decide
  cases h.begins (Cursor.skipBlanks_of_led led) with
  | nothing atEnd => cases text.symm.trans atEnd
  | opened closed _ _ =>
    obtain ⟨ys, hy⟩ := (sees_iff text _).1 closed
    cases hy
  | selfClosed _ tokens next => exact ⟨tokens, next⟩
  | construct first _ _ => cases first.first_of_construct text
  | named _ filled _ _ _ => exact absurd ((nameReach_eq_zero_iff text).2 rfl) filled
  | stray _ going _ _ _ =>
    rw [(sees_iff text _).2 ⟨cs, rfl⟩] at going
    cases going

/-- A block in a tag is read, and then the rest. -/
theorem Reads.ofBlock (h : Reads s (.body e) c ts d) (block : IsBlock k) (honest : s.Honest)
    (on : c.On s) (text : c.rest = k ++ cs) :
    ∃ us, Reads s (.body e) (c.skip k.length) us d ∧
      ts.any Token.isRunat = us.any Token.isRunat := by
  obtain ⟨t, block, other⟩ := block.exists_block
  have found := block.construct?_ne_none honest on text
  obtain ⟨inner, rfl⟩ := block.exists_inner
  have led : c.rest.head?.any isBlank = false := by
    rw [text]
    exact show isBlank '<' = false by decide
  cases h.begins (Cursor.skipBlanks_of_led led) with
  | nothing atEnd => cases text.symm.trans atEnd
  | opened closed _ _ | selfClosed closed _ _ =>
    obtain ⟨ys, hy⟩ := (sees_iff text _).1 closed
    cases hy
  | construct first more tokens =>
    obtain ⟨token, rfl⟩ := first.block block honest on text
    refine ⟨_, more, ?_⟩
    rw [tokens, List.any_append, any_isRunat token]
    simp [other]
  | named plain _ _ _ _ | stray _ _ plain _ _ => exact absurd plain found

/-- A stray character in a tag is passed over. -/
theorem Reads.ofStray (h : Reads s (.body e) c ts d) (stray : x ∈ ['\x00', '=', '/'])
    (text : c.rest = x :: cs) (going : x = '/' → cs.head? ≠ some '>') :
    Reads s (.body e) (c.skip 1) ts d := by
  have ends : nameReach .tag c = 0 := by
    rw [nameReach_eq_zero_iff text]
    simp only [List.mem_cons, List.not_mem_nil, or_false] at stray
    rcases stray with rfl | rfl | rfl <;> rfl
  have led : c.rest.head?.any isBlank = false := by
    rw [text]
    simp only [List.mem_cons, List.not_mem_nil, or_false] at stray
    rcases stray with rfl | rfl | rfl <;> exact show isBlank _ = false by decide
  cases h.begins (Cursor.skipBlanks_of_led led) with
  | nothing atEnd => cases text.symm.trans atEnd
  | opened closed _ _ =>
    obtain ⟨ys, hy⟩ := (sees_iff text _).1 closed
    rw [← (List.cons.inj hy).1] at stray
    exact absurd stray (by decide)
  | selfClosed closed _ _ =>
    obtain ⟨ys, hy⟩ := (sees_iff text _).1 closed
    obtain ⟨rfl, second⟩ := List.cons.inj hy
    exact absurd (congrArg List.head? second.symm) (going rfl)
  | construct first _ _ =>
    rw [first.first_of_construct text] at stray
    exact absurd stray (by decide)
  | named _ filled _ _ _ => exact absurd ends filled
  | stray _ _ _ _ more => exact more

/-- An attribute in a tag is read, and then the rest. -/
theorem Reads.ofName (h : Reads s (.body e) c ts d) (text : c.rest = x :: cs)
    (plain : isNameChar x = true) :
    ∃ us d' vs, Reads s (.attribute .tag) c us d' ∧ Reads s (.body e) d' vs d ∧
      ts = us ++ vs := by
  have filled : nameReach .tag c ≠ 0 := by
    rw [ne_eq, nameReach_eq_zero_iff text, not_endsName_of_isNameChar plain]
    exact Bool.false_ne_true
  have led : c.rest.head?.any isBlank = false := by
    rw [text]
    exact (isNameChar_iff.1 plain).1
  cases h.begins (Cursor.skipBlanks_of_led led) with
  | nothing atEnd => cases text.symm.trans atEnd
  | opened closed _ _ | selfClosed closed _ _ =>
    obtain ⟨ys, hy⟩ := (sees_iff text _).1 closed
    rw [← (List.cons.inj hy).1] at plain
    exact absurd plain (by decide)
  | construct first _ _ =>
    rw [first.first_of_construct text] at plain
    exact absurd plain (by decide)
  | named _ _ first more tokens => exact ⟨_, _, _, first, more, tokens⟩
  | stray _ _ _ unnamed _ => exact absurd unnamed filled

theorem Reads.ofNameText {b : Bool} {name rest : List Char} (h : Reads s (.body e) c ts d)
    (named : NameText b name rest) (text : c.rest = name ++ cs) :
    ∃ us d' vs, Reads s (.attribute .tag) c us d' ∧ Reads s (.body e) d' vs d ∧
      ts = us ++ vs := by
  obtain ⟨x, xs, rfl⟩ := List.exists_cons_of_ne_nil named.filled
  exact h.ofName text (named.plain x List.mem_cons_self)

/-- The first character that is no blank does not depend on what follows. -/
theorem head?_dropWhile_append {w after : List Char} (filled : ∃ x ∈ w, isBlank x = false) :
    ((w ++ after).dropWhile isBlank).head? = (w.dropWhile isBlank).head? := by
  have some : w.dropWhile isBlank ≠ [] := by
    obtain ⟨x, mem, led⟩ := filled
    rw [ne_eq, List.dropWhile_eq_nil_iff]
    intro all
    rw [all x mem] at led
    cases led
  rw [List.dropWhile_append, if_neg (by simpa using some), List.head?_append_of_ne_nil _ some]

end Body

/-- **The readers find an attribute `runat` in the text of a tag exactly if it is there**, and stop
where the text does. -/
theorem Reads.tagText {b f : Bool} {w after : List Char} (h : Reads s (.body e) c ts d)
    (written : TagText b w f) (honest : s.Honest) (on : c.On s) (text : c.rest = w ++ after) :
    ts.any Token.isRunat = f ∧ d.rest = after := by
  induction written generalizing c ts with
  | opened =>
    obtain ⟨none, rfl⟩ := h.ofClose text
    exact ⟨none, by rw [Cursor.rest_skip, text]; rfl⟩
  | selfClosed =>
    obtain ⟨none, rfl⟩ := h.ofSlashClose text
    exact ⟨none, by rw [Cursor.rest_skip, text]; rfl⟩
  | blank blank more ih =>
    have behind := h.body_congr (Cursor.skipBlanks_skip_one text blank)
    exact ih behind (on.skip 1) (by rw [Cursor.rest_skip, text]; rfl)
  | block block more ih =>
    rw [List.append_assoc] at text
    obtain ⟨us, rest, same⟩ := h.ofBlock block honest on text
    rw [same]
    exact ih rest (on.skip _) (Cursor.rest_skip_of_append text)
  | @stray b x w f stray going more ih =>
    have going' : x = '/' → (w ++ after).head? ≠ some '>' := by
      intro slash
      rw [List.head?_append_of_ne_nil _ (List.ne_nil_of_mem more.closed)]
      exact going slash
    have rest := h.ofStray stray text going'
    exact ih rest (on.skip 1) (by rw [Cursor.rest_skip, text]; rfl)
  | @bare b name w f named valueless more ih =>
    rw [List.append_assoc] at text
    obtain ⟨us, d', vs, first, rest, rfl⟩ := h.ofNameText named text
    have reach := named.nameReach_eq (List.ne_nil_of_mem more.closed) text
    have valueless' : ((w ++ after).dropWhile isBlank).head? ≠ some '=' := by
      rwa [head?_dropWhile_append ⟨'>', more.closed, by decide⟩]
    obtain ⟨tokens, rfl⟩ := first.bareText reach text valueless'
    have behind := rest.body_congr (Cursor.skipBlanks_skipBlanks _).symm
    obtain ⟨found, stop⟩ := ih behind (on.skip _) (Cursor.rest_skip_of_append text)
    exact ⟨by simp [any_isRunat tokens, found, namesRunat], stop⟩
  | @unquoted b name before behind value w f named blank plain ends led apart more ih =>
    have closed : '>' ∈ before ++ '=' :: (behind ++ (value ++ w)) := by simp [more.closed]
    rw [List.append_assoc] at text
    obtain ⟨us, d', vs, first, rest, rfl⟩ := h.ofNameText named text
    have reach := named.nameReach_eq (List.ne_nil_of_mem closed) text
    have ends' : endsValue .tag (w ++ after) = true :=
      endsValue_append ends (List.ne_nil_of_mem more.closed)
    have led' : (value ++ (w ++ after)).head?.any isBlank = false := by
      rwa [← List.append_assoc, List.head?_append_of_ne_nil _
        (List.ne_nil_of_mem (List.mem_append_right value more.closed))]
    obtain ⟨tokens, rfl⟩ := first.unquotedText reach (by simpa using text) blank
      (fun x mem => not_endsValue_of_isValueChar (plain x mem)) ends' (quote?_eq_none plain ends')
      led'
    obtain ⟨found, stop⟩ := ih rest (on.skip _)
      (Cursor.rest_skip_of_append (by simpa using text))
    have other : (TokenKind.attributeValue == TokenKind.attribute) = false := rfl
    exact ⟨by simp [any_isRunat tokens, found, namesRunat, other], stop⟩
  | @quoted b name before behind q value w f named blank quote inner more ih =>
    have closed : '>' ∈ before ++ '=' :: (behind ++ q :: (value ++ q :: w)) := by
      simp [more.closed]
    rw [List.append_assoc] at text
    obtain ⟨us, d', vs, first, rest, rfl⟩ := h.ofNameText named text
    have reach := named.nameReach_eq (List.ne_nil_of_mem closed) text
    obtain ⟨vs, inner, others⟩ := inner.exists_valueText true
    obtain ⟨tokens, rfl⟩ := first.quotedText reach (by simpa using text) blank quote inner honest on
    obtain ⟨found, stop⟩ := ih rest (on.skip _)
      (Cursor.rest_skip_of_append (by simpa using text))
    have values : vs.any (fun u => u.1 == .attribute && sameName u.2 "runat") = false := by
      refine List.any_eq_false.2 fun u mem => ?_
      simp [others u mem]
    exact ⟨by simp [any_isRunat tokens, values, found, namesRunat], stop⟩

/-- **The look ahead and the readers agree** on each tag that is written as `TagText` says: the look
ahead from the end of the name finds `runat` exactly if the readers emit an attribute of that name
before the tag ends.  What stands before the tag and behind it is of no account. -/
theorem runat_inspectTag_iff (file text : String) {w after : List Char} {f : Bool}
    (on : c.On (.of file text)) (rest : c.rest = w ++ after) (written : TagText false w f) :
    ((inspectTag (.of file text) c).runat = true ↔
      ∃ t ∈ (readTagBody (.of file text) c).1.tokens, t.isRunat = true) ∧
    (inspectTag (.of file text) c).runat = f ∧
    (readTagBody (.of file text) c).1.next.rest = after := by
  have honest := Source.honest_of file text
  have ahead : (inspectTag (.of file text) c).runat = f := by
    have found := Source.findsFrom_tagText honest written (on.rest_eq.symm.trans rest)
    rwa [← rest] at found
  obtain ⟨read, stop⟩ := (reads_readTagBody (.of file text) c).tagText written honest on rest
  refine ⟨?_, ahead, stop⟩
  rw [ahead, ← read, List.any_eq_true]

/-- The look ahead and the readers find the `runat` behind a quoted value with code in it. -/
theorem runat_of_quoted :
    (inspectTag (.of "page.aspx" "<p a='<%=x%>' runat>b")
      ((Source.of "page.aspx" "<p a='<%=x%>' runat>b").begin.skip 2)).runat = true ∧
    (readTagBody (.of "page.aspx" "<p a='<%=x%>' runat>b")
      ((Source.of "page.aspx" "<p a='<%=x%>' runat>b").begin.skip 2)).1.next.rest = ['b'] := by
  have on := (Cursor.on_begin (.of "page.aspx" "<p a='<%=x%>' runat>b")).skip 2
  have value : QuotedText '\x27' ([] ++ (('<' :: '%' :: (['=', 'x'] ++ ['%', '>'])) ++ [])) :=
    .block ⟨by decide, by decide⟩ (.code (by decide) (by decide) (by decide))
      (.last ⟨by decide, by decide⟩)
  have marked : NameText true ['r', 'u', 'n', 'a', 't'] ['>'] :=
    ⟨by decide, List.all_eq_true.1 rfl, rfl, fun _ => ⟨rfl, rfl⟩⟩
  have named : NameText true ['a'] ([] ++ '=' :: ([] ++ '\x27' :: ([] ++
      (('<' :: '%' :: (['=', 'x'] ++ ['%', '>'])) ++ []) ++ '\x27' :: ' ' ::
      (['r', 'u', 'n', 'a', 't'] ++ ['>'])))) :=
    ⟨by decide, List.all_eq_true.1 rfl, rfl, fun h => absurd h (by decide)⟩
  have written : TagText false _ true := .blank (show isBlank ' ' = true by decide)
    (.quoted named (by simp) (.inr rfl) value (.blank (show isBlank ' ' = true by decide)
      (.bare marked (by decide) .opened)))
  exact (@runat_inspectTag_iff _ _ _ _ ['b'] _ on rfl written).2

/-- An apostrophe in a value without quotes hides the `runat` behind it from the look ahead. -/
theorem runat_of_apostrophe :
    ¬ ((inspectTag (.of "page.aspx" "<p title=it's runat=\"server\">")
        ((Source.of "page.aspx" "<p title=it's runat=\"server\">").begin.skip 2)).runat = true ↔
      ∃ t ∈ (readTagBody (.of "page.aspx" "<p title=it's runat=\"server\">")
        ((Source.of "page.aspx" "<p title=it's runat=\"server\">").begin.skip 2)).1.tokens,
        t.isRunat = true) := by
  decide +kernel

end ServerMarkup
