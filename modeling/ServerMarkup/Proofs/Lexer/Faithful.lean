/-
# Tokens that hold their source

A token is *faithful* if its span is a stretch of the source, its excerpt is verbatim, and the
excerpt lies within the span.  What is read at a cursor is faithful at once.  Two kinds of excerpts
are cut: a tag name at its colon, and the code of a code block at its blanks.  Both are closed, the
name because it holds no carriage return, the code because `%>` follows it.

`tokens_faithful` says it of all tokens of a text, and that they stand in order.
-/

import ServerMarkup.Proofs.Lexer.Coverage

namespace ServerMarkup

/-- The token's span and excerpt are stretches of the source, with positions counted over it and the
text that stands there, the excerpt within the span. -/
structure Token.Faithful (s : Source) (t : Token) : Prop where
  span_in : t.span.In s
  verbatim : t.text.Verbatim s
  start_le : t.start ≤ t.text.span.start.offset
  le_stop : t.text.span.stop.offset ≤ t.stop

variable {s : Source} {c d : Cursor} {ts us : List Token}

/-! ### Excerpts that may be cut -/

/-- An excerpt is closed if no line feed follows it. -/
theorem Excerpt.closed_of_head? {n : Nat} (hc : (c.skip n).On s)
    (h : (c.skip n).rest.head? ≠ some '\n') : (s.excerpt c n).Closed s := by
  intro _
  have hat := hc.getElem?_rest 0
  rw [List.head?_eq_getElem?, hat] at h
  exact h

/-- An excerpt is closed if it holds no carriage return. -/
theorem Excerpt.closed_of_notMem {e : Excerpt} (h : '\r' ∉ e.chars) : e.Closed s :=
  fun last => absurd (List.mem_of_getLast? last) h

/-- The end mark of a construct stands where its text ends. -/
theorem Source.prefix_of_construct? {o : Opening} {n : Nat}
    (h : s.construct? c.offset c.rest = some (o, n)) :
    o.endMark.chars <+: (c.skip (o.width + n)).rest := by
  unfold Source.construct? at h
  obtain ⟨o', _, h⟩ := Option.bind_eq_some_iff.1 h
  obtain ⟨n', found, h⟩ := Option.bind_eq_some_iff.1 h
  obtain ⟨rfl, rfl⟩ := Prod.mk.inj (Option.some.inj h)
  unfold Source.ahead? at found
  split at found
  · simp at found
  · have := prefix_drop_of_distance? found
    rwa [List.drop_drop] at this

/-- The code of a code block is closed. -/
theorem closed_code {kind : CodeKind} {n : Nat} (hc : c.On s)
    (found : s.construct? c.offset c.rest = some (.code kind, n)) :
    (s.excerpt (c.skip (Opening.code kind).width) n).Closed s := by
  have mark := Source.prefix_of_construct? found
  obtain ⟨after, hafter⟩ := mark
  refine Excerpt.closed_of_head? ((hc.skip _).skip n) ?_
  rw [Cursor.skip_skip, ← hafter]
  simp [Opening.endMark, EndMark.chars]

/-- The name of a tag holds no carriage return. -/
theorem return_notMem_name {n : Nat} (hn : (tagNameOf c.rest).length = n) :
    '\r' ∉ (s.excerpt c n).chars := by
  intro h
  rw [Source.chars_excerpt, ← hn, take_length_tagNameOf] at h
  have := List.all_eq_true.1 (List.all_takeWhile (p := isTagNameChar) (l := c.rest)) _ h
  exact absurd this (by decide +kernel)

/-! ### Faithful tokens -/

namespace Token

theorem faithful_whole {kind : TokenKind} {e : Excerpt} (h : e.Verbatim s) :
    (Token.whole kind e).Faithful s :=
  ⟨h.within, h, Nat.le_refl _, Nat.le_refl _⟩

theorem faithful_excerpt {kind : TokenKind} (hc : c.On s) (n : Nat) :
    (Token.whole kind (s.excerpt c n)).Faithful s :=
  faithful_whole (Excerpt.verbatim_excerpt hc n)

/-- The code of a code block lies within its marks, and so does that of a server comment. -/
theorem faithful_inner {kind : TokenKind} {e : Excerpt} {lead n trail : Nat} (hc : c.On s)
    (he : e.Verbatim s) (start : (c.skip lead).offset ≤ e.span.start.offset)
    (stop : e.span.stop.offset ≤ ((c.skip lead).skip n).offset) :
    (⟨kind, s.span c (lead + n + trail), e⟩ : Token).Faithful s := by
  refine ⟨Source.in_span hc _, he, Nat.le_trans ?_ start, Nat.le_trans stop ?_⟩
  · have := c.offset_skip lead
    show c.offset ≤ (c.skip lead).offset
    omega
  · have hinner := c.offset_skip (lead + n)
    have houter := c.offset_skip (lead + n + trail)
    show ((c.skip lead).skip n).offset ≤ (c.skip (lead + n + trail)).offset
    rw [Cursor.skip_skip]
    omega

theorem faithful_commentToken (hc : c.On s) (n : Nat) : (s.commentToken c n).Faithful s := by
  have inner : (⟨.serverComment, s.span c (4 + n + 4), s.excerpt (c.skip 4) n⟩ : Token).Faithful s :=
    faithful_inner hc (Excerpt.verbatim_excerpt (hc.skip 4) n) (Nat.le_refl _) (Nat.le_refl _)
  rwa [show 4 + n + 4 = n + 8 by omega] at inner

theorem faithful_codeToken {kind : CodeKind} {n : Nat} (hc : c.On s)
    (found : s.construct? c.offset c.rest = some (.code kind, n)) :
    (s.codeToken c kind n).Faithful s := by
  have inner := Excerpt.verbatim_excerpt (hc.skip (Opening.code kind).width) n
  have hlen := inner.length_eq
  have hle := inner.within.start_le
  refine faithful_inner hc (inner.trim (closed_code hc found)) ?_ ?_
  · rw [Excerpt.trim, Excerpt.start_slice]
    exact Nat.le_add_right _ _
  · rw [Excerpt.trim, Excerpt.stop_slice]
    refine Nat.le_trans (Nat.add_le_add_left (Nat.min_le_right _ _) _) ?_
    rw [hlen, Nat.add_sub_of_le hle]
    exact Nat.le_refl _

theorem faithful_nameTokens {e : Excerpt} (he : e.Verbatim s) (closed : e.Closed s) :
    ∀ t ∈ nameTokens e, t.Faithful s := by
  unfold nameTokens
  split
  · intro t ht
    rcases List.mem_cons.1 ht with rfl | ht
    · exact faithful_whole (he.slice closed _ _)
    · obtain rfl := List.mem_singleton.1 ht
      exact faithful_whole (he.slice closed _ _)
  · exact List.forall_mem_singleton.2 (faithful_whole he)

theorem faithful_fragment {q : Char} {alone : Bool} (hc : c.On s) :
    ∀ t ∈ s.fragment q alone c, t.Faithful s := by
  unfold Source.fragment
  split
  · simp
  · exact List.forall_mem_singleton.2 (faithful_excerpt hc _)

end Token

open Token

/-! ### Everything that is read -/

theorem Reads.faithful {part : Part} (h : Reads s part c ts d) (hc : c.On s) :
    ∀ t ∈ ts, t.Faithful s := by
  induction h with
  | comment => exact List.forall_mem_singleton.2 (faithful_commentToken hc _)
  | code found => exact List.forall_mem_singleton.2 (faithful_codeToken hc found)
  | directive _ _ ih => exact List.forall_mem_cons.2 ⟨faithful_excerpt hc 3, ih (hc.skip 3)⟩
  | directiveCut | bodyCut | closingBare => simp
  | directiveEnd | bodyOpened | bodySelfClosed | closingEnd =>
    exact List.forall_mem_singleton.2 (faithful_excerpt hc.skipBlanks _)
  | directiveAttribute first _ ih₁ ih₂ | bodyConstruct first _ ih₁ ih₂
  | bodyAttribute _ first _ ih₁ ih₂ =>
    exact List.forall_mem_append.2 ⟨ih₁ hc.skipBlanks, ih₂ (first.on hc.skipBlanks)⟩
  | directiveStray _ _ _ _ ih | bodyStray _ _ _ _ _ _ ih => exact ih (hc.skipBlanks.skip 1)
  | bare => exact List.forall_mem_singleton.2 (faithful_excerpt hc _)
  | unquoted =>
    exact List.forall_mem_cons.2 ⟨faithful_excerpt hc _,
      List.forall_mem_singleton.2 (faithful_excerpt hc.afterName.afterEquals _)⟩
  | quoted _ _ _ _ ih =>
    exact List.forall_mem_cons.2 ⟨faithful_excerpt hc _, ih (hc.afterName.afterEquals.skip 1)⟩
  | @quotedConstruct q _ c _ _ _ _ inner _ ih₁ ih₂ =>
    have hf := hc.skip (fragmentReach s q c)
    exact List.forall_mem_append.2 ⟨List.forall_mem_append.2 ⟨faithful_fragment hc, ih₁ hf⟩,
      ih₂ (inner.on hf)⟩
  | quotedEnd => exact faithful_fragment hc

namespace LexerState

variable {st next : LexerState}

/-- The mark and the name of a tag are faithful. -/
theorem faithful_tag {kind : TokenKind} {mark n : Nat} (hc : c.On s)
    (hn : (tagNameOf (c.rest.drop mark)).length = n) (h : ∀ t ∈ ts, t.Faithful s) :
    ∀ t ∈ .whole kind (s.excerpt c mark) :: nameTokens (s.excerpt (c.skip mark) n) ++ ts,
      t.Faithful s := by
  have name := faithful_nameTokens (Excerpt.verbatim_excerpt (hc.skip mark) n)
    (Excerpt.closed_of_notMem (return_notMem_name hn))
  exact List.forall_mem_cons.2 ⟨faithful_excerpt hc mark, List.forall_mem_append.2 ⟨name, h⟩⟩

theorem Takes.faithful (h : Takes s st ts next) (hc : st.cursor.On s) :
    ∀ t ∈ ts, t.Faithful s := by
  cases h with
  | whole => exact List.forall_mem_singleton.2 (faithful_excerpt hc _)
  | construct inner => exact inner.faithful hc
  | openingTag _ _ _ inner => exact faithful_tag hc st.length_startName (inner.faithful (hc.skip _))
  | loneTag _ _ _ inner => exact faithful_tag hc st.length_startName (inner.faithful (hc.skip _))
  | closingTag _ _ _ inner => exact faithful_tag hc st.length_endName (inner.faithful (hc.skip _))

theorem faithful_gathered (h : st.On s) : ∀ t ∈ st.gathered s, t.Faithful s := by
  unfold gathered
  split
  · exact List.forall_mem_singleton.2 (faithful_excerpt h.text _)
  · simp

theorem Goes.faithful (h : Goes s st ts next) (hs : st.On s) : ∀ t ∈ ts, t.Faithful s := by
  cases h with
  | text | literalTag | literalEnd | rawEnd => simp
  | @rawConstruct tag _ _ _ inner =>
    have ha := hs.addText (rawReach s tag st.cursor)
    exact List.forall_mem_append.2 ⟨faithful_gathered ha, inner.faithful ha.cursor⟩
  | taken _ takes =>
    exact List.forall_mem_append.2 ⟨faithful_gathered hs, takes.faithful hs.cursor⟩

theorem faithful_of_mem_tokens (h : st.On s) {t : Token} (ht : t ∈ st.tokens s) :
    t.Faithful s := by
  rw [tokens_eq_flatMap_moves] at ht
  obtain ⟨m, hm, ht⟩ := List.mem_flatMap.1 ht
  obtain ⟨on, goes | last⟩ := goes_of_mem_moves h hm
  · exact goes.faithful on t ht
  · exact faithful_gathered on t (last.tokens_eq ▸ ht)

end LexerState

/-- Tokens that are laid out stand in order. -/
theorem Laid.pairwise {k : Option TokenKind} {a b : Nat} (h : Laid s k a ts b) :
    (∀ t ∈ ts, a ≤ t.start) ∧ ts.Pairwise fun t u => t.stop ≤ u.start := by
  induction ts generalizing k a with
  | nil => simp
  | cons t ts ih =>
    obtain ⟨gap, le, -, rest⟩ := h
    obtain ⟨after, order⟩ := ih rest
    have hgap := gap.le
    refine ⟨List.forall_mem_cons.2 ⟨hgap, fun u hu => ?_⟩, List.pairwise_cons.2 ⟨after, order⟩⟩
    have := after u hu
    omega

/-- **The tokens of a text stand in order and hold its parts.**  None begins before the one before it
ends; each spans a stretch of the text, with the positions that counting its characters gives, and
its excerpt lies within and reads as the text does there. -/
theorem tokens_faithful (file text : String) :
    (tokenize file text).Pairwise (fun t u => t.stop ≤ u.start) ∧
      ∀ t ∈ tokenize file text, t.start ≤ t.stop ∧ t.Faithful (.of file text) := by
  have on := LexerState.on_start (.of file text)
  refine ⟨(LexerState.laid_tokens (k := none) on).pairwise.2, ?_⟩
  intro t ht
  have faithful := LexerState.faithful_of_mem_tokens on ht
  exact ⟨faithful.span_in.start_le, faithful⟩

end ServerMarkup
