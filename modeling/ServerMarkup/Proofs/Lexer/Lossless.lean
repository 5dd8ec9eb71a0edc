/-
# What the tokens leave out

A character that belongs to no token stands in a gap of the layout (`Laid.of_uncovered`): it is
passed over, or it is the colon of a tag name.  A token that asks the next one to follow without a
gap is followed by one that is not empty (`Laid.covered`), and so is the start of the source.

Where the gaps are is seen step by step: the text that a step emits and a construct of one token
leave nothing out, so a character is left out only in a tag or a directive, behind the token of its
mark (`Goes.extent`).  `tokens_lossless` puts this together.
-/

import ServerMarkup.Proofs.Lexer.Coverage

namespace ServerMarkup

/-- The kinds of the tokens that open a tag or a directive. -/
def TokenKind.marks : List TokenKind :=
  [.tagOpen, .tagOpenSlash, .startDirective]

variable {s : Source} {ts : List Token} {o : Nat}

/-! ### Gaps between tokens -/

namespace Laid

variable {k : Option TokenKind} {a b : Nat}

/-- The next token after a tight one is not empty. -/
theorem covered (h : Laid s k a ts b) (hk : Tight k) (hab : a < b) : ∃ t ∈ ts, t.Covers a := by
  have stuck {k' : Option TokenKind} {d : Nat} (hg : Gap s k k' a d) : a = d := by
    cases hg with
    | nothing => rfl
    | colon _ => simp [Tight, TokenKind.isTight] at hk
    | passed loose _ _ => exact (not_tight_of_loose loose hk).elim
  cases ts with
  | nil => exact absurd (stuck h) (Nat.ne_of_lt hab)
  | cons t ts =>
    obtain ⟨gap, _, filled, _⟩ := h
    have start := stuck gap
    have := filled hk
    refine ⟨t, List.mem_cons_self, ?_, ?_⟩ <;> omega

theorem covered_stop (h : Laid s k a ts b) {t : Token} (ht : t ∈ ts)
    (tight : t.kind.isTight = true) (hb : t.stop < b) : ∃ u ∈ ts, u.Covers t.stop := by
  induction ts generalizing k a with
  | nil => simp at ht
  | cons u us ih =>
    obtain ⟨-, -, -, rest⟩ := h
    have later : ∃ v ∈ us, v.Covers t.stop := by
      rcases List.mem_cons.1 ht with rfl | ht
      · exact covered rest tight hb
      · exact ih rest ht
    obtain ⟨v, hv, covers⟩ := later
    exact ⟨v, List.mem_cons_of_mem u hv, covers⟩

/-- A character in no token is passed over, or it is the colon between a prefix and its name: after
the token before, or between two of the tokens. -/
theorem of_uncovered (h : Laid s k a ts b) (ha : a ≤ o) (hb : o < b)
    (uncovered : ∀ t ∈ ts, ¬ t.Covers o) :
    (s.text[o]?).any isPassedOver = true ∨ s.text[o]? = some ':' ∧
      ((k = some .elementNamespace ∧ a = o ∧
          ∃ u, ts.head? = some u ∧ u.kind = .elementName ∧ u.start = o + 1) ∨
        ∃ t u, [t, u] <:+: ts ∧ t.kind = .elementNamespace ∧ u.kind = .elementName ∧
          t.stop = o ∧ u.start = o + 1) := by
  induction ts generalizing k a with
  | nil =>
    cases h with
    | nothing => omega
    | passed _ _ all => exact .inl (all o ha hb)
  | cons t ts ih =>
    obtain ⟨gap, le, -, rest⟩ := h
    have htop := uncovered t List.mem_cons_self
    rcases Nat.lt_or_ge o t.start with before | behind
    · generalize hk' : some t.kind = k' at gap
      generalize hd : t.start = d at gap before
      cases gap with
      | nothing => omega
      | passed _ _ all => exact .inl (all o ha before)
      | colon colon =>
        obtain rfl : a = o := by omega
        exact .inr ⟨colon, .inl ⟨rfl, rfl, t, rfl, Option.some.inj hk', hd⟩⟩
    · have hstop : t.stop ≤ o := by
        refine Nat.le_of_not_lt fun hlt => htop ⟨behind, hlt⟩
      rcases ih rest hstop fun u hu => uncovered u (List.mem_cons_of_mem t hu) with
        passed | ⟨colon, ⟨kind, stop, u, head, name, start⟩ | ⟨v, u, inside, rest⟩⟩
      · exact .inl passed
      · obtain ⟨us, rfl⟩ := List.head?_eq_some_iff.1 head
        exact .inr ⟨colon, .inr ⟨t, u, ⟨[], us, rfl⟩, Option.some.inj kind, name, stop, start⟩⟩
      · exact .inr ⟨colon, .inr ⟨v, u, inside.trans (List.suffix_cons t ts).isInfix, rest⟩⟩

end Laid

/-! ### Where gaps are -/

variable {c d : Cursor}

/-- What is not covered by a token at the cursor lies behind it. -/
theorem Token.covers_or_le {t : Token} {n : Nat} (span : t.span = s.span c n) (ho : c.offset ≤ o) :
    t.Covers o ∨ t.stop ≤ o ∧ (c.skip n).offset ≤ o := by
  have hstart : t.start = c.offset := by rw [Token.start, span]; rfl
  have hstop : t.stop = (c.skip n).offset := by rw [Token.stop, span]; rfl
  rcases Nat.lt_or_ge o t.stop with h | h
  · exact .inl ⟨hstart ▸ ho, h⟩
  · exact .inr ⟨h, hstop ▸ h⟩

/-- A construct leaves out something only if it is a directive, behind its mark. -/
theorem Reads.extent (h : Reads s .construct c ts d) (ho : c.offset ≤ o) (hd : o < d.offset) :
    (∃ t ∈ ts, t.Covers o) ∨ ∃ t ∈ ts, t.kind ∈ TokenKind.marks ∧ t.stop ≤ o := by
  cases h with
  | @comment _ n _ =>
    rcases Token.covers_or_le (t := s.commentToken c n) rfl ho with covers | ⟨_, le⟩
    · exact .inl ⟨_, List.mem_singleton_self _, covers⟩
    · omega
  | @code _ kind n _ =>
    rcases Token.covers_or_le (t := s.codeToken c kind n) rfl ho with covers | ⟨_, le⟩
    · exact .inl ⟨_, List.mem_singleton_self _, covers⟩
    · omega
  | directive _ _ =>
    rcases Token.covers_or_le (t := .whole .startDirective (s.excerpt c 3)) rfl ho with
      covers | ⟨le, _⟩
    · exact .inl ⟨_, List.mem_cons_self, covers⟩
    · exact .inr ⟨_, List.mem_cons_self, List.mem_of_elem_eq_true rfl, le⟩

namespace LexerState

variable {st next : LexerState}

/-- What is taken apart leaves out something only if it is a tag or a directive, behind its mark. -/
theorem Takes.extent (h : Takes s st ts next) (ho : st.cursor.offset ≤ o)
    (hd : o < next.text.offset) :
    (∃ t ∈ ts, t.Covers o) ∨ ∃ t ∈ ts, t.kind ∈ TokenKind.marks ∧ t.stop ≤ o := by
  have tag {kind : TokenKind} {n : Nat} {us : List Token} (hk : kind ∈ TokenKind.marks) :
      (∃ t ∈ .whole kind (s.excerpt st.cursor n) :: us, t.Covers o) ∨
        ∃ t ∈ .whole kind (s.excerpt st.cursor n) :: us, t.kind ∈ TokenKind.marks ∧ t.stop ≤ o := by
    rcases Token.covers_or_le (t := .whole kind (s.excerpt st.cursor n)) rfl ho with
      covers | ⟨le, _⟩
    · exact .inl ⟨_, List.mem_cons_self, covers⟩
    · exact .inr ⟨_, List.mem_cons_self, hk, le⟩
  cases h with
  | @whole kind n _ _ _ =>
    rcases Token.covers_or_le (t := .whole kind (s.excerpt st.cursor n)) rfl ho with
      covers | ⟨_, le⟩
    · exact .inl ⟨_, List.mem_singleton_self _, covers⟩
    · exact absurd hd (Nat.not_lt.2 le)
  | construct inner => exact inner.extent ho hd
  | openingTag | loneTag | closingTag => exact tag (by decide)

theorem covers_gathered (h : st.On s) (ho : st.text.offset ≤ o) (hd : o < st.cursor.offset) :
    ∃ t ∈ st.gathered s, t.Covers o := by
  have hcur := h.cursor.offset_le
  have hlen := h.text.length_rest
  have hoff := st.text.offset_skip (st.cursor.offset - st.text.offset)
  unfold gathered
  rw [if_pos (by omega)]
  refine ⟨_, List.mem_singleton_self _, ho, ?_⟩
  show o < (st.text.skip (st.cursor.offset - st.text.offset)).offset
  omega

/-- A step leaves out something only in a tag or a directive, behind its mark. -/
theorem Goes.extent (h : Goes s st ts next) (hs : st.On s) (ho : st.text.offset ≤ o)
    (hd : o < next.text.offset) :
    (∃ t ∈ ts, t.Covers o) ∨ ∃ t ∈ ts, t.kind ∈ TokenKind.marks ∧ t.stop ≤ o := by
  have after {st : LexerState} {us : List Token} (hs : st.On s) (ho : st.text.offset ≤ o)
      (extent : st.cursor.offset ≤ o →
        (∃ t ∈ us, t.Covers o) ∨ ∃ t ∈ us, t.kind ∈ TokenKind.marks ∧ t.stop ≤ o) :
      (∃ t ∈ st.gathered s ++ us, t.Covers o) ∨
        ∃ t ∈ st.gathered s ++ us, t.kind ∈ TokenKind.marks ∧ t.stop ≤ o := by
    rcases Nat.lt_or_ge o st.cursor.offset with before | behind
    · obtain ⟨t, ht, covers⟩ := covers_gathered hs ho before
      exact .inl ⟨t, List.mem_append_left _ ht, covers⟩
    · rcases extent behind with ⟨t, ht, covers⟩ | ⟨t, ht, mark⟩
      · exact .inl ⟨t, List.mem_append_right _ ht, covers⟩
      · exact .inr ⟨t, List.mem_append_right _ ht, mark⟩
  cases h with
  | text | literalTag | literalEnd | rawEnd => exact absurd hd (Nat.not_lt.2 ho)
  | @rawConstruct tag _ _ _ inner =>
    exact after (hs.addText (rawReach s tag st.cursor)) ho fun ho => inner.extent ho hd
  | taken _ takes => exact after hs ho fun ho => takes.extent ho hd

/-- A run leaves out something only in a tag or a directive: between the token of its mark and the
place where the lexer goes on after the tag or directive. -/
theorem extent_of_uncovered (h : st.On s) (ho : st.text.offset ≤ o) (hlen : o < s.text.length)
    (uncovered : ∀ t ∈ st.tokens s, ¬ t.Covers o) :
    ∃ m ∈ st.moves s, ∃ t ∈ m.tokens,
      t.kind ∈ TokenKind.marks ∧ t.stop ≤ o ∧ o < m.after.cursor.offset := by
  fun_induction moves s st with
  | case1 st ts hs =>
    obtain ⟨_, atEnd, rfl⟩ := eq_gathered_of_step hs
    have hrest := h.cursor.length_rest
    have hle := h.cursor.offset_le
    rw [atEnd, List.length_nil] at hrest
    obtain ⟨t, ht, covers⟩ := covers_gathered h ho (by omega)
    refine absurd covers (uncovered t ?_)
    rw [tokens_of_step hs]
    exact List.mem_append_left _ ht
  | case2 st ts next hs ih =>
    have goes := goes_of_step hs
    have hnext := goes.on h
    rw [tokens_of_step hs] at uncovered
    rcases Nat.lt_or_ge o next.text.offset with before | behind
    · rcases goes.extent h ho before with ⟨t, ht, covers⟩ | ⟨t, ht, mark, le⟩
      · exact absurd covers (uncovered t (List.mem_append_left _ ht))
      · exact ⟨_, List.mem_cons_self, t, ht, mark, le, Nat.lt_of_lt_of_le before hnext.text_le⟩
    · obtain ⟨m, hm, found⟩ := ih hnext behind fun t ht =>
        uncovered t (List.mem_append_right _ ht)
      exact ⟨m, List.mem_cons_of_mem _ hm, found⟩

end LexerState

/-- What is known of a character `c` at the offset `o` that belongs to no token. -/
structure LeftOut (file text : String) (o : Nat) (c : Char) : Prop where
  /-- It is passed over, or the colon between a prefix and its name. -/
  delimiter : isPassedOver c = true ∨ c = ':' ∧ ∃ t u, [t, u] <:+: tokenize file text ∧
    t.kind = .elementNamespace ∧ u.kind = .elementName ∧ t.stop = o ∧ u.start = o + 1
  not_first : o ≠ 0
  /-- It does not come right after a text, a comment, a document type or a mark of a tag. -/
  not_after : ∀ t ∈ tokenize file text, t.kind.isTight = true → t.stop ≠ o
  /-- It lies in a tag or directive that the lexer takes apart, behind its opening mark. -/
  inside : ∃ m ∈ (LexerState.start (.of file text)).moves (.of file text), ∃ t ∈ m.tokens,
    t.kind ∈ TokenKind.marks ∧ t.stop ≤ o ∧ o < m.after.cursor.offset

/-- **The tokens lose nothing but delimiters.**  A character that belongs to no token is a blank, a
quote, `=`, `/`, `<`, `>` or the null character, or the colon of a tag name, and it lies in a tag or
a directive: elsewhere each token follows on the one before. -/
theorem tokens_lossless (file text : String) {c : Char} (hc : text.toList[o]? = some c)
    (uncovered : ∀ t ∈ tokenize file text, ¬ t.Covers o) : LeftOut file text o c := by
  have on := LexerState.on_start (.of file text)
  have laid : Laid (.of file text) none 0 (tokenize file text) text.toList.length :=
    LexerState.laid_tokens on
  obtain ⟨hlen, -⟩ := List.getElem?_eq_some_iff.1 hc
  constructor
  case delimiter =>
    rcases laid.of_uncovered (Nat.zero_le o) hlen uncovered with
      passed | ⟨colon, ⟨kind, -⟩ | between⟩
    · exact .inl (by simpa [Source.of, hc] using passed)
    · simp at kind
    · exact .inr ⟨Option.some.inj (hc.symm.trans colon), between⟩
  case not_first =>
    rintro rfl
    obtain ⟨t, ht, covers⟩ := laid.covered rfl hlen
    exact uncovered t ht covers
  case not_after =>
    intro t ht tight stop
    obtain ⟨u, hu, covers⟩ := laid.covered_stop ht tight (stop ▸ hlen)
    exact uncovered u hu (stop ▸ covers)
  case inside => exact LexerState.extent_of_uncovered on (Nat.zero_le o) hlen uncovered

/-- The colon of a server tag is left out. -/
theorem leftOut_colon : LeftOut "page.aspx" "<a:B />" 2 ':' :=
  tokens_lossless "page.aspx" "<a:B />" (by decide) (by decide +kernel)

end ServerMarkup
