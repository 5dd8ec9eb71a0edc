/-
# Tags that close themselves

A start tag that ends with `/>` has no content, so nothing is to stay open behind it.  The slash is
not always left for the end of the tag: a value without quotes goes on to a blank, an angle bracket
or a backtick, and takes a slash before the `>` with it, as in `<p a=b/>`.

`selfClosing_iff` says that this is the only way to lose the slash.  Whatever else comes last in the
tag has another character before its end: a name ends before a slash, a quoted value with its quote,
a construct with its mark, and a stray slash is none before a `>`.
-/

import ServerMarkup.Proofs.Lexer.Determined
import ServerMarkup.Proofs.Lexer.Sound
import ServerMarkup.Proofs.Parse.TagEndings

namespace ServerMarkup

variable {s : Source} {c d : Cursor} {ts : List Token} {n : Nat}

/-! ### The character before a cursor -/

namespace Cursor.On

/-- The character that has been passed over last stands before the cursor. -/
theorem getElem?_skip (h : c.On s) {m : Nat} {x : Char} (here : c.rest[m]? = some x)
    (stop : (c.skip (m + 1)).offset = n + 1) : s.text[n]? = some x := by
  have within : m < c.rest.length := (List.getElem?_eq_some_iff.1 here).1
  rw [c.offset_skip, Nat.min_eq_left within] at stop
  obtain rfl : n = c.offset + m := by omega
  rw [← h.getElem?_rest, here]

/-- What has been passed over before a slash holds a slash. -/
theorem slash_of_skip (h : c.On s) {m : Nat} (filled : m ≠ 0) (within : m ≤ c.rest.length)
    (stop : (c.skip m).offset = n + 1) (slash : s.text[n]? = some '/') : '/' ∈ c.rest.take m := by
  obtain ⟨m, rfl⟩ := Nat.exists_eq_add_one_of_ne_zero filled
  have here : c.rest[m]? = some c.rest[m] := List.getElem?_eq_getElem within
  have last := (h.getElem?_skip here stop).symm.trans slash
  rw [← Option.some.inj last]
  exact List.mem_take_iff_getElem.2 ⟨m, by omega, rfl⟩

/-- No blank is a slash. -/
theorem skipBlanks_of_slash (h : c.On s) (stop : c.skipBlanks.offset = n + 1)
    (slash : s.text[n]? = some '/') : c.skipBlanks = c := by
  by_contra moved
  have before := List.takeWhile_prefix isBlank (l := c.rest)
  have filled : (c.rest.takeWhile isBlank).length ≠ 0 := fun none =>
    moved (by rw [Cursor.skipBlanks, none, skip_zero])
  have mem := h.slash_of_skip filled before.length_le stop slash
  rw [← List.prefix_iff_eq_take.1 before] at mem
  exact absurd (List.mem_takeWhile_imp mem) (by decide)

/-- A cursor sees the end of a tag that closes itself. -/
theorem sees_slash (h : c.On s) (start : c.offset = n) (slash : s.text[n]? = some '/')
    (close : s.text[n + 1]? = some '>') : c.sees ['/', '>'] = true := by
  obtain ⟨size, first⟩ := List.getElem?_eq_some_iff.1 slash
  obtain ⟨size', second⟩ := List.getElem?_eq_some_iff.1 close
  rw [Cursor.sees, h.rest_eq, start, List.drop_eq_getElem_cons size,
    List.drop_eq_getElem_cons size', first, second]
  rfl

end Cursor.On

/-! ### What ends with a slash -/

namespace Reads

/-- A construct ends with its mark, if it does not end with the text. -/
theorem rest_of_slash {part : Part} (h : Reads s part c ts d)
    (covered : part = .construct ∨ part = .directive) (hc : c.On s) (stop : d.offset = n + 1)
    (slash : s.text[n]? = some '/') : d.rest = [] := by
  have marked {c : Cursor} (hc : c.On s) {o : Opening} {size k : Nat}
      (found : s.construct? c.offset c.rest = some (o, size))
      (last : o.endMark.chars[k]? = some '>')
      (stop : (c.skip (o.width + size + (k + 1))).offset = n + 1) : False := by
    rw [← Cursor.skip_skip] at stop
    obtain ⟨after, mark⟩ := Source.prefix_of_construct? found
    have here : (c.skip (o.width + size)).rest[k]? = some '>' := by
      rw [← mark, List.getElem?_append_left (List.getElem?_eq_some_iff.1 last).1, last]
    have other := ((hc.skip _).getElem?_skip here stop).symm.trans slash
    cases other
  induction h with
  | @comment c m found =>
    refine (marked hc found (k := 3) rfl ?_).elim
    rwa [show Opening.comment.width + m + (3 + 1) = m + 8 by simp [Opening.width]; omega]
  | code found => exact (marked hc found (k := 1) rfl stop).elim
  | directive _ _ ih => exact ih (.inr rfl) (hc.skip 3) stop
  | directiveCut atEnd => exact atEnd
  | @directiveEnd c closed =>
    obtain ⟨after, mark⟩ := List.isPrefixOf_iff_prefix.1 closed
    have here : c.skipBlanks.rest[1]? = some '>' := by rw [← mark]; rfl
    have other := (hc.skipBlanks.getElem?_skip here stop).symm.trans slash
    cases other
  | directiveAttribute first _ _ ih =>
    exact ih (.inr rfl) (first.on hc.skipBlanks) stop
  | directiveStray _ _ _ _ ih => exact ih (.inr rfl) (hc.skipBlanks.skip 1) stop
  | _ => simp at covered

/-- A quoted value ends with its quote, if it does not end with the text. -/
theorem rest_of_quoted_slash {q : Char} {alone : Bool} (h : Reads s (.quoted q alone) c ts d)
    (quote : q ≠ '/') (hc : c.On s) (stop : d.offset = n + 1) (slash : s.text[n]? = some '/') :
    d.rest = [] := by
  generalize hp : Part.quoted q alone = part at h
  induction h generalizing alone with
  | quotedConstruct inner _ _ ih =>
    obtain ⟨rfl, -⟩ := Part.quoted.inj hp
    exact ih (inner.on (hc.skip _)) stop rfl
  | @quotedEnd q' alone c plain =>
    obtain ⟨rfl, -⟩ := Part.quoted.inj hp
    rcases Nat.lt_or_ge (fragmentReach s q c) c.rest.length with more | whole
    · have closing := stop_reach more
      rw [Cursor.rest_skip, c.offset_skip, Nat.min_eq_left (Nat.le_of_lt more)] at plain
      change (_ || (s.construct? (c.offset + fragmentReach s q c)
        (c.rest.drop (fragmentReach s q c))).isSome) = true at closing
      rw [plain, Option.isSome_none, Bool.or_false, beq_iff_eq] at closing
      have here : (c.skip (fragmentReach s q c)).rest[0]? = some q := by
        rw [← List.head?_eq_getElem?]
        exact closing
      have last := ((hc.skip _).getElem?_skip here stop).symm.trans slash
      exact absurd (Option.some.inj last) quote
    · rw [Cursor.rest_skip, Cursor.rest_skip, List.drop_of_length_le whole, List.drop_nil]
  | _ => simp at hp

/-- An attribute before which a slash is seen from its end has taken it into a value. -/
theorem value_of_slash (h : Reads s (.attribute .tag) c ts d) (hc : c.On s)
    (stop : d.offset = n + 1) (slash : s.text[n]? = some '/') :
    d.rest = [] ∨ ∃ v ∈ ts, v.kind = .attributeValue ∧ v.stop = n + 1 := by
  cases h with
  | bare named =>
    have same := (hc.skip _).skipBlanks_of_slash stop slash
    rw [afterName, same] at stop
    have mem := hc.slash_of_skip named (reach_le _ _) stop slash
    exact absurd mem (notMem_take_reach fun _ xs => by simp [endsName])
  | unquoted => exact .inr ⟨_, List.mem_cons_of_mem _ List.mem_cons_self, rfl, stop⟩
  | quoted _ _ opened value =>
    have quote := (isPassedOver_of_quote? opened).1
    refine .inl (value.rest_of_quoted_slash ?_ (hc.afterName.afterEquals.skip 1) stop slash)
    rintro rfl
    obtain ⟨xs, hx⟩ := List.head?_eq_some_iff.1 quote
    simp [quote?, hx] at opened

/-- A tag that ends with `>` behind a slash ends right there, or a value of it has taken the
slash. -/
theorem value_of_opened (h : Reads s (.body .opened) c ts d) (hc : c.On s)
    (stop : d.offset = n + 2) (slash : s.text[n]? = some '/') (close : s.text[n + 1]? = some '>') :
    c.offset = n + 1 ∨ ∃ v ∈ ts, v.kind = .attributeValue ∧ v.stop = n + 1 := by
  generalize hp : Part.body .opened = part at h
  -- Behind the last part of a tag the `>` still follows.
  have going {c d : Cursor} {ts : List Token} (more : Reads s (.body .opened) c ts d)
      (hc : c.On s) (start : c.offset = n + 1) (stop : d.offset = n + 2) : c.rest ≠ [] := by
    intro atEnd
    have size := hc.length_rest
    have le := (more.on hc).offset_le
    rw [atEnd, List.length_nil] at size
    omega
  induction h with
  | @bodyOpened c closed =>
    have left := List.length_pos_iff.2 (rest_ne_nil_of_sees closed)
    have start : c.skipBlanks.offset = n + 1 := by
      have := c.skipBlanks.offset_skip 1
      omega
    rw [← hc.skipBlanks_of_slash start slash]
    exact .inl start
  | bodyConstruct first more _ ih =>
    obtain rfl := Part.body.inj hp
    rcases ih (first.on hc.skipBlanks) stop rfl with start | ⟨v, mem, hv⟩
    · have atEnd := first.rest_of_slash (.inl rfl) hc.skipBlanks start slash
      exact absurd atEnd (going more (first.on hc.skipBlanks) start stop)
    · exact .inr ⟨v, List.mem_append_right _ mem, hv⟩
  | bodyAttribute _ first more _ ih =>
    obtain rfl := Part.body.inj hp
    rcases ih (first.on hc.skipBlanks) stop rfl with start | ⟨v, mem, hv⟩
    · rcases first.value_of_slash hc.skipBlanks start slash with atEnd | ⟨v, mem, hv⟩
      · exact absurd atEnd (going more (first.on hc.skipBlanks) start stop)
      · exact .inr ⟨v, List.mem_append_left _ mem, hv⟩
    · exact .inr ⟨v, List.mem_append_right _ mem, hv⟩
  | @bodyStray _ c _ _ left _ unslashed _ _ _ ih =>
    obtain rfl := Part.body.inj hp
    rcases ih (hc.skipBlanks.skip 1) stop rfl with start | value
    · have left := List.length_pos_iff.2 left
      have before : c.skipBlanks.offset = n := by
        have := c.skipBlanks.offset_skip 1
        omega
      rw [hc.skipBlanks.sees_slash before slash close] at unslashed
      cases unslashed
    · exact .inr value
  | _ => simp at hp

/-- A tag that is left open ends with its `>`. -/
theorem close_of_opened (h : Reads s (.body .opened) c ts d) (hc : c.On s)
    (stop : d.offset = n + 1) : s.text[n]? = some '>' := by
  generalize hp : Part.body .opened = part at h
  induction h with
  | bodyOpened closed =>
    obtain ⟨after, mark⟩ := List.isPrefixOf_iff_prefix.1 closed
    exact hc.skipBlanks.getElem?_skip (m := 0) (by rw [← mark]; rfl) stop
  | bodyConstruct first _ _ ih | bodyAttribute _ first _ _ ih =>
    exact ih (first.on hc.skipBlanks) stop hp
  | bodyStray _ _ _ _ _ _ ih => exact ih (hc.skipBlanks.skip 1) stop hp
  | _ => simp at hp

/-- The last token of a tag that closes itself is its `/>`. -/
theorem last_of_selfClosed (h : Reads s (.body .selfClosed) c ts d) :
    ∃ us u, ts = us ++ [u] ∧ u.kind = .tagSlashClose ∧ u.start + 2 = d.offset := by
  generalize hp : Part.body .selfClosed = part at h
  induction h with
  | @bodySelfClosed c closed =>
    refine ⟨[], _, rfl, rfl, ?_⟩
    have size := (List.isPrefixOf_iff_prefix.1 closed).length_le
    change 2 ≤ _ at size
    rw [c.skipBlanks.offset_skip, Nat.min_eq_left size]
    rfl
  | bodyConstruct _ _ _ ih | bodyAttribute _ _ _ _ ih =>
    obtain ⟨us, u, rfl, last⟩ := ih hp
    exact ⟨_, u, (List.append_assoc ..).symm, last⟩
  | bodyStray _ _ _ _ _ _ ih => exact ih hp
  | _ => simp at hp

/-- No value reaches into the end of a tag that closes itself. -/
theorem ne_of_selfClosed (h : Reads s (.body .selfClosed) c ts d) (hc : c.On s)
    (stop : d.offset = n + 2) : ∀ v ∈ ts, v.kind = .attributeValue → v.stop ≠ n + 1 := by
  have laid := (h.laid (k := some .attribute) hc trivial rfl).pairwise.2
  obtain ⟨us, u, rfl, mark, start⟩ := h.last_of_selfClosed
  intro v mem value
  rcases List.mem_append.1 mem with mem | mem
  · have le := (List.pairwise_append.1 laid).2.2 v mem u List.mem_cons_self
    omega
  · obtain rfl := List.mem_singleton.1 mem
    simp [mark] at value

end Reads

/-- The name of a tag does not end with a slash. -/
theorem LexerState.AtStartTag.ne_of_slash {st : LexerState} (h : st.AtStartTag)
    (hc : st.cursor.On s) (slash : s.text[n]? = some '/') :
    (st.cursor.skip (st.startName.length + 1)).offset ≠ n + 1 := by
  intro stop
  have name := take_length_tagNameOf (st.cursor.rest.drop 1)
  rw [length_startName] at name
  have filled : st.startName.length ≠ 0 := by
    rw [← length_startName]
    exact fun none => tagNameOf_ne_nil h.letter (List.eq_nil_of_length_eq_zero none)
  have within : st.startName.length ≤ (st.cursor.skip 1).rest.length := by
    rw [← length_startName]
    exact (List.takeWhile_prefix isTagNameChar).length_le
  rw [Nat.add_comm, ← Cursor.skip_skip] at stop
  have mem := (hc.skip 1).slash_of_skip filled within stop slash
  rw [Cursor.rest_skip, name, tagNameOf] at mem
  have char : isTagNameChar '/' = true := List.mem_takeWhile_imp mem
  exact absurd char (by decide +kernel)

/-- **A start tag whose `>` stands behind a slash closes itself, and opens nothing, unless a value
without quotes has taken the slash.** -/
theorem selfClosing_iff {file text : String} {m : Move} {before ts : List Token} {t : Token}
    (mem : m ∈ (LexerState.start (.of file text)).moves (.of file text))
    (tokens : m.tokens = before ++ t :: ts) (opens : t.kind = .tagOpen)
    (ended : lexedEnding ts ≠ .cut) (stop : m.after.cursor.offset = n + 2)
    (slash : text.toList[n]? = some '/') :
    ts.getLast?.map Token.kind = some .tagSlashClose ∧ m.after.opened = m.before.opened ↔
      ∀ v ∈ ts, v.kind = .attributeValue → v.stop ≠ n + 1 := by
  obtain ⟨on, goes | last⟩ := LexerState.goes_of_mem_moves (LexerState.on_start _) mem
  · rw [tokens] at goes
    obtain ⟨ending, body, inner, hts, -, start, closed, -⟩ := goes.opensTag opens
    have hc := on.cursor.skip (m.before.startName.length + 1)
    have lexed : lexedEnding ts = ending := by rw [hts, lexedEnding_eq inner]
    have values : ∀ v ∈ ts, v.kind = .attributeValue → v ∈ body := by
      intro v hv value
      rw [hts] at hv
      refine (List.mem_append.1 hv).resolve_left fun hv => ?_
      rcases kind_nameTokens hv with hk | hk <;> simp [hk] at value
    rw [lexed] at ended
    cases ending with
    | cut => exact absurd rfl ended
    | selfClosed =>
      obtain ⟨us, u, hbody, mark, -⟩ := inner.last_of_selfClosed
      have last : ts.getLast?.map Token.kind = some .tagSlashClose := by
        rw [hts, hbody, ← List.append_assoc, List.getLast?_concat, Option.map_some, mark]
      exact iff_of_true ⟨last, closed (by simp)⟩ fun v hv value =>
        inner.ne_of_selfClosed hc stop v (values v hv value) value
    | opened =>
      refine iff_of_false (fun both => ?_) fun free => ?_
      · rw [lexedEnding, both.1] at lexed
        cases lexed
      · have close := inner.close_of_opened hc stop
        rcases inner.value_of_opened hc stop slash close with same | ⟨v, hv, value, taken⟩
        · exact start.ne_of_slash on.cursor slash same
        · exact free v (hts ▸ List.mem_append_right _ hv) value taken
  · have ht : t ∈ m.before.gathered (.of file text) := by
      rw [← last.tokens_eq, tokens]
      simp
    simp [LexerState.kind_gathered ht] at opens

/-- A tag with a quoted value closes itself. -/
theorem selfClosing_quoted :
    ∃ m ∈ (LexerState.start (.of "page.aspx" "<Panel a=\"b\"/>")).moves
        (.of "page.aspx" "<Panel a=\"b\"/>"),
      m.tokens.tail.getLast?.map Token.kind = some .tagSlashClose ∧
        m.after.opened = m.before.opened := by
  obtain ⟨m, mem, tokens, ended, stop, values⟩ :
      ∃ m ∈ (LexerState.start (.of "page.aspx" "<Panel a=\"b\"/>")).moves
          (.of "page.aspx" "<Panel a=\"b\"/>"),
        m.tokens.head?.map Token.kind = some .tagOpen ∧ lexedEnding m.tokens.tail ≠ .cut ∧
          m.after.cursor.offset = 12 + 2 ∧
          ∀ v ∈ m.tokens.tail, v.kind = .attributeValue → v.stop ≠ 12 + 1 := by
    decide +kernel
  obtain ⟨t, first, opens⟩ := Option.map_eq_some_iff.1 tokens
  obtain ⟨ts, htokens⟩ := List.head?_eq_some_iff.1 first
  rw [htokens, List.tail_cons] at ended values
  have first : m.tokens = [] ++ t :: ts := htokens
  refine ⟨m, mem, ?_⟩
  rw [htokens, List.tail_cons]
  exact (selfClosing_iff mem first opens ended stop (by decide)).2 values

/-- A value without quotes takes the slash: the tag stays open. -/
theorem slash_taken :
    ¬ ∀ m ∈ (LexerState.start (.of "page.aspx" "<Panel a=b/>")).moves
        (.of "page.aspx" "<Panel a=b/>"), ∀ before t ts, m.tokens = before ++ t :: ts →
      t.kind = .tagOpen → lexedEnding ts ≠ .cut → m.after.cursor.offset = 10 + 2 →
      "<Panel a=b/>".toList[10]? = some '/' →
        ts.getLast?.map Token.kind = some .tagSlashClose ∧ m.after.opened = m.before.opened := by
  intro closes
  obtain ⟨m, mem, tokens, ended, stop, left⟩ :
      ∃ m ∈ (LexerState.start (.of "page.aspx" "<Panel a=b/>")).moves
          (.of "page.aspx" "<Panel a=b/>"),
        m.tokens.head?.map Token.kind = some .tagOpen ∧ lexedEnding m.tokens.tail ≠ .cut ∧
          m.after.cursor.offset = 10 + 2 ∧ m.after.opened ≠ m.before.opened := by
    decide +kernel
  obtain ⟨t, first, opens⟩ := Option.map_eq_some_iff.1 tokens
  obtain ⟨ts, htokens⟩ := List.head?_eq_some_iff.1 first
  rw [htokens, List.tail_cons] at ended
  exact left (closes m mem [] t ts htokens opens ended stop (by decide)).2

end ServerMarkup
