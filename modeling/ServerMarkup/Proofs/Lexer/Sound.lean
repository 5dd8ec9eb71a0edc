/-
# Tokens that can be taken apart

The parser cuts what tokens hold and joins their spans, and relies on more than that they are
faithful (`Token.Sound`): all excerpts are closed, so they can be cut anywhere; a token that begins
a node or an attribute holds a character; a code block has marks around its code, and any other
token but a server comment stands for all of its span.

An excerpt is closed for one of four reasons.  A name, a mark and a value without quotes hold no
carriage return; a comment or document type ends in `>`, and code that is trimmed in no blank; a
server comment and a fragment of a quoted value end before a mark, a construct or a quote; and
gathered text ends before a `<` or with the source.
-/

import ServerMarkup.Proofs.Lexer.Faithful
import ServerMarkup.Proofs.Lexer.Shapes

namespace ServerMarkup

/-- Whether tokens of the kind may hold no character. -/
def TokenKind.mayBeEmpty : TokenKind → Bool
  | .attributeValue | .elementNamespace | .elementName => true
  | _ => false

/-- A trimmed excerpt is closed: it ends in no blank. -/
theorem Excerpt.closed_trim {s : Source} (e : Excerpt) : e.trim.Closed s := by
  intro last
  have blank := List.head?_dropWhile_not isBlank (trimStart e.chars).reverse
  rw [e.chars_trim, ServerMarkup.trim, trimEnd, List.getLast?_reverse] at last
  rw [last] at blank
  cases blank

/-- The token can be cut, and its excerpt lies in its span as one of its kind does. -/
structure Token.Sound (s : Source) (t : Token) : Prop where
  closed : t.text.Closed s
  filled : t.kind.mayBeEmpty = false → t.start < t.stop
  marked : t.isCode = true →
    t.start < t.text.span.start.offset ∧ t.text.span.stop.offset < t.stop
  whole : t.isCode = false → t.kind ≠ .serverComment → t.text.span = t.span

variable {s : Source} {c d : Cursor} {ts us : List Token}

/-! ### What is read at a cursor -/

/-- Before a reach ends, nothing stops it. -/
theorem not_stop_of_lt_reach {stop : Nat → List Char → Bool} {cs : List Char} {i : Nat}
    (h : i < reach stop cs) : stop i (cs.drop i) = false := by
  have from_ (k : Nat) (cs : List Char) (j : Nat) (h : k + j < reachFrom stop k cs) :
      stop (k + j) (cs.drop j) = false := by
    induction cs generalizing k j with
    | nil =>
      rw [reachFrom] at h
      omega
    | cons x xs ih =>
      unfold reachFrom at h
      split at h
      · omega
      · next going =>
        cases j with
        | zero => simpa using going
        | succ j =>
          have := ih (k + 1) j (by omega)
          rwa [Nat.add_right_comm] at this
  have := from_ 0 cs i (by simpa [reach] using h)
  simpa using this

/-- No blank is reached over by a name or a value without quotes. -/
theorem notMem_take_reach {stop : Nat → List Char → Bool} {cs : List Char} {x : Char}
    (stops : ∀ i xs, stop i (x :: xs) = true) : x ∉ cs.take (reach stop cs) := by
  intro mem
  obtain ⟨i, hi, rfl⟩ := List.mem_iff_getElem.1 mem
  rw [List.length_take] at hi
  have going : stop i (cs.drop i) = false := not_stop_of_lt_reach (by omega)
  rw [List.getElem_take] at stops
  rw [List.drop_eq_getElem_cons (by omega), stops] at going
  cases going

namespace Cursor

/-- A cursor that has come over a character has moved. -/
theorem offset_lt_skip {n : Nat} (filled : n ≠ 0) (left : c.rest ≠ []) :
    c.offset < (c.skip n).offset := by
  have := c.offset_skip n
  have := List.length_pos_iff.2 left
  omega

end Cursor

namespace Token

/-- A token that is read whole is sound if it can be cut and is not empty. -/
theorem sound_whole {kind : TokenKind} {e : Excerpt} (plain : kind.isCode = false)
    (closed : e.Closed s)
    (filled : kind.mayBeEmpty = false → e.span.start.offset < e.span.stop.offset) :
    (Token.whole kind e).Sound s :=
  ⟨closed, filled, fun code => by simp [isCode, whole, plain] at code, fun _ _ => rfl⟩

/-- A token that is a stretch of the source is sound if it can be cut. -/
theorem sound_excerpt {kind : TokenKind} {n : Nat} (plain : kind.isCode = false)
    (closed : (s.excerpt c n).Closed s) (filled : n ≠ 0) (left : c.rest ≠ []) :
    (Token.whole kind (s.excerpt c n)).Sound s :=
  sound_whole plain closed fun _ => Cursor.offset_lt_skip filled left

/-- A mark is sound. -/
theorem sound_mark {kind : TokenKind} {x : Char} {mark : List Char} (plain : kind.isCode = false)
    (uncut : '\r' ∉ x :: mark) (here : x :: mark <+: c.rest) {n : Nat}
    (size : n = mark.length + 1) : (Token.whole kind (s.excerpt c n)).Sound s := by
  obtain ⟨rest, same⟩ := here
  refine sound_excerpt plain (Excerpt.closed_of_notMem ?_) (by omega) fun none => ?_
  · rwa [Source.chars_excerpt, ← same, size, ← List.length_cons, List.take_left]
  · rw [none] at same
    cases same

/-- The parts of a name are sound. -/
theorem sound_nameTokens {e : Excerpt} (uncut : '\r' ∉ e.chars) :
    ∀ t ∈ nameTokens e, t.Sound s := by
  have part (a b : Nat) : (e.slice a b).Closed s := by
    refine Excerpt.closed_of_notMem fun mem => uncut ?_
    rw [Excerpt.chars_slice] at mem
    exact List.mem_of_mem_take (List.mem_of_mem_drop mem)
  unfold nameTokens
  split
  · refine List.forall_mem_cons.2 ⟨?_, List.forall_mem_singleton.2 ?_⟩
    · exact sound_whole rfl (part _ _) (by simp [TokenKind.mayBeEmpty])
    · exact sound_whole rfl (part _ _) (by simp [TokenKind.mayBeEmpty])
  · exact List.forall_mem_singleton.2
      (sound_whole rfl (Excerpt.closed_of_notMem uncut) (by simp [TokenKind.mayBeEmpty]))

theorem sound_commentToken {n : Nat} (hc : c.On s)
    (found : s.construct? c.offset c.rest = some (.comment, n)) : (s.commentToken c n).Sound s where
  closed := by
    obtain ⟨after, mark⟩ := Source.prefix_of_construct? found
    refine Excerpt.closed_of_head? ((hc.skip 4).skip n) ?_
    rw [Cursor.skip_skip, ← show Opening.comment.width + n = 4 + n from rfl, ← mark]
    simp [Opening.endMark, EndMark.chars]
  filled _ := by
    refine Cursor.offset_lt_skip (by omega) fun none => ?_
    simp [none, Source.construct?, Opening.of?] at found
  marked code := by simp [Source.commentToken, isCode, TokenKind.isCode] at code
  whole _ other := absurd rfl other

theorem sound_codeToken {kind : CodeKind} {n : Nat} (hc : c.On s)
    (found : s.construct? c.offset c.rest = some (.code kind, n)) :
    (s.codeToken c kind n).Sound s := by
  have width := (Opening.code kind).two_le_width
  have room : (Opening.code kind).width + n + 2 ≤ c.rest.length := by
    obtain ⟨after, mark⟩ := Source.prefix_of_construct? found
    have := congrArg List.length mark
    simp [Opening.endMark, EndMark.chars] at this
    omega
  have inner := Excerpt.verbatim_excerpt (hc.skip (Opening.code kind).width) n
  have size := inner.length_eq
  have le := inner.within.start_le
  have start := c.offset_skip (Opening.code kind).width
  have stop : ((c.skip (Opening.code kind).width).skip n).offset =
      c.offset + ((Opening.code kind).width + n) := by
    rw [Cursor.skip_skip, Cursor.offset_skip, Nat.min_eq_left (by omega)]
  have last : (s.codeToken c kind n).stop = c.offset + ((Opening.code kind).width + n + 2) := by
    change (c.skip _).offset = _
    rw [Cursor.offset_skip, Nat.min_eq_left room]
  have within : c.offset < (s.codeToken c kind n).text.span.start.offset ∧
      (s.codeToken c kind n).text.span.stop.offset < (s.codeToken c kind n).stop := by
    rw [last, Source.codeToken, Excerpt.trim, Excerpt.start_slice, Excerpt.stop_slice]
    change c.offset < (c.skip (Opening.code kind).width).offset + _ ∧
      (c.skip (Opening.code kind).width).offset + _ < _
    change _ = ((c.skip _).skip n).offset - (c.skip _).offset at size
    omega
  refine ⟨Excerpt.closed_trim _, fun _ => ?_, fun _ => within, fun plain => ?_⟩
  · rw [last]
    change c.offset < _
    omega
  · simp [Source.codeToken, isCode, TokenKind.isCode] at plain

/-- A name that is not empty is sound. -/
theorem sound_nameToken {place : Place} (named : nameReach place c ≠ 0) :
    (s.nameToken place c).Sound s := by
  have left : c.rest ≠ [] := by
    intro none
    exact named (by rw [nameReach, none]; rfl)
  refine sound_excerpt rfl (Excerpt.closed_of_notMem ?_) named left
  rw [Source.chars_excerpt]
  exact notMem_take_reach fun _ xs => by simp [endsName, show isBlank '\r' = true by decide]

theorem sound_valueToken (place : Place) (c : Cursor) : (s.valueToken place c).Sound s := by
  refine sound_whole rfl (Excerpt.closed_of_notMem ?_) (by simp [TokenKind.mayBeEmpty])
  rw [Source.chars_excerpt]
  exact notMem_take_reach fun _ xs => by simp [endsValue, show isBlank '\r' = true by decide]

/-- A fragment ends before a quote, before a construct, or with the text. -/
theorem sound_fragment {q : Char} {alone : Bool} (hc : c.On s) (quote : q ≠ '\n') :
    ∀ t ∈ s.fragment q alone c, t.Sound s := by
  unfold Source.fragment
  split
  · simp
  refine List.forall_mem_singleton.2 (sound_whole rfl ?_ (by simp [TokenKind.mayBeEmpty]))
  refine Excerpt.closed_of_head? (hc.skip _) fun feed => ?_
  rw [Cursor.rest_skip] at feed
  obtain ⟨rest, after⟩ : ∃ rest, c.rest.drop (fragmentReach s q c) = '\n' :: rest := by
    cases hr : c.rest.drop (fragmentReach s q c) with
    | nil => simp [hr] at feed
    | cons x xs =>
      rw [hr] at feed
      exact ⟨xs, by rw [Option.some.inj feed]⟩
  have more : fragmentReach s q c < c.rest.length := by
    have := congrArg List.length after
    rw [List.length_drop, List.length_cons] at this
    omega
  have ends := stop_reach more
  change ((c.rest.drop (fragmentReach s q c)).head? == some q ||
    (s.construct? (c.offset + fragmentReach s q c)
      (c.rest.drop (fragmentReach s q c))).isSome) = true at ends
  rw [after] at ends
  simp [Source.construct?, Opening.of?, Ne.symm quote] at ends

end Token

open Token

/-! ### Everything that is read -/

/-- A quoted value does not end with a line. -/
def Part.Quoted : Part → Prop
  | .quoted q _ => q ≠ '\n'
  | _ => True

theorem ne_of_quote? {cs : List Char} {q : Char} (h : quote? cs = some q) : q ≠ '\n' := by
  rcases eq_of_quote? h with rfl | rfl <;> decide

theorem Cursor.prefix_of_sees {mark : List Char} (h : c.sees mark = true) : mark <+: c.rest :=
  List.isPrefixOf_iff_prefix.1 h

/-- A directive begins with its mark. -/
theorem Source.prefix_of_directive {n : Nat}
    (found : s.construct? c.offset c.rest = some (.directive, n)) : ['<', '%', '@'] <+: c.rest := by
  obtain ⟨o, opening, found⟩ := Option.bind_eq_some_iff.1 found
  obtain ⟨_, -, found⟩ := Option.bind_eq_some_iff.1 found
  obtain rfl : o = .directive := congrArg Prod.fst (Option.some.inj found)
  unfold Opening.of? at opening
  split at opening
  · next rest same =>
    split at opening <;> cases opening
    rw [same]
    exact ⟨_, rfl⟩
  · cases opening

/-- A construct begins with a `<`. -/
theorem Reads.opens (h : Reads s .construct c ts d) : c.rest.head? = some '<' := by
  have begins {o : Opening} {n : Nat} (found : s.construct? c.offset c.rest = some (o, n)) :
      c.rest.head? = some '<' := by
    obtain ⟨_, opening, -⟩ := Option.bind_eq_some_iff.1 found
    unfold Opening.of? at opening
    split at opening
    · next same =>
      rw [same]
      rfl
    · cases opening
  cases h with
  | comment found | code found | directive found => exact begins found

theorem Reads.sound {part : Part} (h : Reads s part c ts d) (hc : c.On s) (hp : part.Quoted) :
    ∀ t ∈ ts, t.Sound s := by
  induction h with
  | comment found => exact List.forall_mem_singleton.2 (sound_commentToken hc found)
  | code found => exact List.forall_mem_singleton.2 (sound_codeToken hc found)
  | directive found _ ih =>
    have mark := Source.prefix_of_directive found
    exact List.forall_mem_cons.2 ⟨sound_mark rfl (by decide) mark rfl, ih (hc.skip 3) trivial⟩
  | directiveCut | bodyCut | closingBare => simp
  | directiveEnd closed | bodyOpened closed | bodySelfClosed closed | closingEnd closed =>
    exact List.forall_mem_singleton.2
      (sound_mark rfl (by decide) (Cursor.prefix_of_sees closed) rfl)
  | directiveAttribute first _ ih₁ ih₂ | bodyConstruct first _ ih₁ ih₂
  | bodyAttribute _ first _ ih₁ ih₂ =>
    exact List.forall_mem_append.2
      ⟨ih₁ hc.skipBlanks trivial, ih₂ (first.on hc.skipBlanks) trivial⟩
  | directiveStray _ _ _ _ ih | bodyStray _ _ _ _ _ _ ih =>
    exact ih (hc.skipBlanks.skip 1) trivial
  | bare named => exact List.forall_mem_singleton.2 (sound_nameToken named)
  | unquoted named =>
    exact List.forall_mem_cons.2 ⟨sound_nameToken named,
      List.forall_mem_singleton.2 (sound_valueToken _ _)⟩
  | quoted named _ opened _ ih =>
    exact List.forall_mem_cons.2 ⟨sound_nameToken named,
      ih (hc.afterName.afterEquals.skip 1) (ne_of_quote? opened)⟩
  | @quotedConstruct q _ c _ _ _ _ inner _ ih₁ ih₂ =>
    have hf := hc.skip (fragmentReach s q c)
    exact List.forall_mem_append.2 ⟨List.forall_mem_append.2
      ⟨sound_fragment hc hp, ih₁ hf trivial⟩, ih₂ (inner.on hf) hp⟩
  | quotedEnd => exact sound_fragment hc hp

namespace LexerState

variable {st next : LexerState}

/-- The mark and the name of a tag are sound. -/
theorem sound_tag {kind : TokenKind} {x : Char} {mark : List Char} {lead n : Nat}
    (plain : kind.isCode = false) (uncut : '\r' ∉ x :: mark) (here : c.sees (x :: mark) = true)
    (size : lead = mark.length + 1) (name : (tagNameOf (c.skip lead).rest).length = n)
    (h : ∀ t ∈ ts, t.Sound s) :
    ∀ t ∈ .whole kind (s.excerpt c lead) :: nameTokens (s.excerpt (c.skip lead) n) ++ ts,
      t.Sound s :=
  List.forall_mem_cons.2 ⟨sound_mark plain uncut (Cursor.prefix_of_sees here) size,
    List.forall_mem_append.2 ⟨sound_nameTokens (return_notMem_name name), h⟩⟩

/-- What is taken apart begins with a `<`. -/
theorem Takes.opens (h : Takes s st ts next) : st.cursor.rest.head? = some '<' := by
  cases h with
  | whole _ _ _ opens => exact opens
  | construct inner => exact inner.opens
  | openingTag tag | loneTag tag => exact head?_of_prefix_cons (Cursor.prefix_of_sees tag.opens)
  | closingTag tag => exact head?_of_prefix_cons (Cursor.prefix_of_sees tag.opens)

theorem Takes.sound (h : Takes s st ts next) (hc : st.cursor.On s) : ∀ t ∈ ts, t.Sound s := by
  cases h with
  | @whole kind size isWhole sized within opens ends =>
    have closed : (s.excerpt st.cursor size).Closed s := by
      intro last
      rw [Source.chars_excerpt, ends] at last
      cases last
    have left : st.cursor.rest ≠ [] := by
      intro none
      rw [none] at opens
      cases opens
    refine List.forall_mem_singleton.2 (sound_excerpt ?_ closed sized left)
    obtain rfl | rfl := isWhole <;> rfl
  | construct inner => exact inner.sound hc trivial
  | openingTag tag _ _ inner =>
    exact sound_tag rfl (by decide) tag.opens rfl st.length_startName
      (inner.sound (hc.skip _) trivial)
  | loneTag tag _ _ inner =>
    exact sound_tag rfl (by decide) tag.opens rfl st.length_startName
      (inner.sound (hc.skip _) trivial)
  | closingTag tag _ _ inner =>
    exact sound_tag rfl (by decide) tag.opens rfl st.length_endName
      (inner.sound (hc.skip _) trivial)

/-- Gathered text is sound if no line feed follows it. -/
theorem sound_gathered (h : st.On s) (ends : st.cursor.rest.head? ≠ some '\n') :
    ∀ t ∈ st.gathered s, t.Sound s := by
  unfold gathered
  split
  · next filled =>
    have size := h.text.length_rest
    have le := h.cursor.offset_le
    have reached : (st.text.skip (st.cursor.offset - st.text.offset)).rest = st.cursor.rest := by
      rw [Cursor.rest_skip, h.text.rest_eq, List.drop_drop, Nat.add_sub_of_le h.text_le,
        h.cursor.rest_eq]
    have closed : (s.excerpt st.text (st.cursor.offset - st.text.offset)).Closed s :=
      Excerpt.closed_of_head? (h.text.skip _) (reached ▸ ends)
    refine List.forall_mem_singleton.2 (sound_excerpt rfl closed (by omega) fun none => ?_)
    rw [none, List.length_nil] at size
    omega
  · simp

/-- No line feed stands where markup begins. -/
theorem ne_feed_of_opens (h : c.rest.head? = some '<') : c.rest.head? ≠ some '\n' := by
  rw [h]
  decide

theorem Goes.sound (h : Goes s st ts next) (hs : st.On s) : ∀ t ∈ ts, t.Sound s := by
  cases h with
  | text | literalTag | literalEnd | rawEnd => simp
  | @rawConstruct tag _ _ _ inner =>
    have ha := hs.addText (rawReach s tag st.cursor)
    exact List.forall_mem_append.2
      ⟨sound_gathered ha (ne_feed_of_opens inner.opens), inner.sound ha.cursor trivial⟩
  | taken _ takes =>
    exact List.forall_mem_append.2
      ⟨sound_gathered hs (ne_feed_of_opens takes.opens), takes.sound hs.cursor⟩

end LexerState

/-- **All tokens of a text are sound.** -/
theorem sound_of_mem_tokenize {file text : String} {t : Token} (mem : t ∈ tokenize file text) :
    t.Sound (.of file text) := by
  have on := LexerState.on_start (.of file text)
  rw [tokenize, Source.tokens, LexerState.tokens_eq_flatMap_moves] at mem
  obtain ⟨m, hm, ht⟩ := List.mem_flatMap.1 mem
  obtain ⟨on, goes | last⟩ := LexerState.goes_of_mem_moves on hm
  · exact goes.sound on t ht
  · have ends : m.before.cursor.rest.head? ≠ some '\n' := by simp [last.atEnd]
    exact LexerState.sound_gathered on ends t (last.tokens_eq ▸ ht)

end ServerMarkup
