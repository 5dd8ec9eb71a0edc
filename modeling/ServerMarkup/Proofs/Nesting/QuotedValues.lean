/-
# Quoted values of literal tags

Of a literal start tag the lexer gathers the `<` and the name.  What follows is text like any other
to it, up to the next `<`, and it keeps no account of quotes: a `<` in a quoted value is read as one
in the content would be.

`QuotedTag` walks over the rest of a tag whose values are quoted, up to its `>`, and lists the
places where a `<` stands in a value outside the constructs.  No mark begins in a value and no open
tag changes there exactly if each of these is inert (`values_undivided_iff`).
-/

import ServerMarkup.Proofs.Nesting.Entries
import ServerMarkup.Proofs.Nesting.Inert

namespace ServerMarkup

open LexerState

/-! ### Tags with quoted values -/

/-- A value between its quotes, and the places in it where a `<` begins no construct. -/
structure ValueSpan where
  start : Nat
  stop : Nat
  opens : List Cursor

/-- The character at the offset belongs to the value. -/
def ValueSpan.Holds (v : ValueSpan) (o : Nat) : Prop :=
  v.start ≤ o ∧ o < v.stop

/-- `QuotedRest s q c ps d`: the rest of a value in the quotes `q`, from the cursor `c` on, ends
before the quote at `d`; the list `ps` holds the places where a `<` begins no construct. -/
inductive QuotedRest (s : Source) (q : Char) : Cursor → List Cursor → Cursor → Prop where
  | ends {c} (closed : c.rest.head? = some q) : QuotedRest s q c [] c
  | char {c x ps d} (here : c.rest.head? = some x) (inside : x ≠ q) (plain : x ≠ '<')
      (more : QuotedRest s q (c.skip 1) ps d) : QuotedRest s q c ps d
  | opens {c ps d} (here : c.rest.head? = some '<') (plain : readConstruct? s c = none)
      (more : QuotedRest s q (c.skip 1) ps d) : QuotedRest s q c (c :: ps) d
  | construct {c r ps d} (read : readConstruct? s c = some r) (more : QuotedRest s q r.next ps d) :
      QuotedRest s q c ps d

/-- `QuotedTag s c vs d`: the rest of a start tag, from the cursor `c` on, ends with the `>` at `d`
and has the quoted values `vs`.  Quotes stand nowhere else, and outside the values a `<` begins a
construct. -/
inductive QuotedTag (s : Source) : Cursor → List ValueSpan → Cursor → Prop where
  | ends {c} (closed : c.rest.head? = some '>') : QuotedTag s c [] c
  | char {c x vs d} (here : c.rest.head? = some x) (plain : x ∉ ['<', '>', '"', '\x27'])
      (more : QuotedTag s (c.skip 1) vs d) : QuotedTag s c vs d
  | construct {c r vs d} (read : readConstruct? s c = some r) (more : QuotedTag s r.next vs d) :
      QuotedTag s c vs d
  | value {c q ps e vs d} (here : c.rest.head? = some q) (quote : q = '"' ∨ q = '\x27')
      (inner : QuotedRest s q (c.skip 1) ps e) (more : QuotedTag s (e.skip 1) vs d) :
      QuotedTag s c (⟨(c.skip 1).offset, e.offset, ps⟩ :: vs) d

section
variable {s : Source} {q x : Char} {c d e : Cursor} {ps : List Cursor} {vs : List ValueSpan}

theorem Cursor.offset_skip_one (here : c.rest.head? = some x) :
    (c.skip 1).offset = c.offset + 1 := by
  obtain ⟨cs, hcs⟩ := List.head?_eq_some_iff.1 here
  rw [Cursor.offset_skip, hcs, List.length_cons, Nat.min_eq_left (by omega)]

/-- A construct ends in the source, behind its beginning. -/
theorem on_of_readConstruct? {r : Reading c.rest.length} (on : c.On s)
    (read : readConstruct? s c = some r) : r.next.On s ∧ c.offset ≤ r.next.offset := by
  have there := (reads_readConstruct? read).on on
  have shorter := r.shorter
  have := on.length_rest
  have := there.length_rest
  have := on.offset_le
  have := there.offset_le
  exact ⟨there, by omega⟩

theorem QuotedRest.closed (h : QuotedRest s q c ps d) : d.rest.head? = some q := by
  induction h with
  | ends closed => exact closed
  | char _ _ _ _ ih | opens _ _ _ ih | construct _ _ ih => exact ih

/-- The places in a value lie before its end. -/
theorem QuotedRest.places (h : QuotedRest s q c ps d) (on : c.On s) :
    d.On s ∧ c.offset ≤ d.offset ∧ ∀ p ∈ ps, c.offset ≤ p.offset ∧ p.offset < d.offset := by
  induction h with
  | ends => exact ⟨on, Nat.le_refl _, List.forall_mem_nil _⟩
  | char here _ _ _ ih =>
    have next := Cursor.offset_skip_one here
    obtain ⟨there, le, places⟩ := ih (on.skip 1)
    exact ⟨there, by omega, fun p mem => ⟨by have := places p mem; omega, (places p mem).2⟩⟩
  | opens here _ _ ih =>
    have next := Cursor.offset_skip_one here
    obtain ⟨there, le, places⟩ := ih (on.skip 1)
    refine ⟨there, by omega, List.forall_mem_cons.2 ⟨by omega, fun p mem => ?_⟩⟩
    exact ⟨by have := places p mem; omega, (places p mem).2⟩
  | construct read _ ih =>
    obtain ⟨next, le'⟩ := on_of_readConstruct? on read
    obtain ⟨there, le, places⟩ := ih next
    exact ⟨there, by omega, fun p mem => ⟨by have := places p mem; omega, (places p mem).2⟩⟩

/-- The values of a tag lie in it, and the places in a value in the value. -/
theorem QuotedTag.places (h : QuotedTag s c vs d) (on : c.On s) :
    c.offset ≤ d.offset ∧ ∀ v ∈ vs, c.offset < v.start ∧ v.stop ≤ d.offset ∧
      ∀ p ∈ v.opens, v.Holds p.offset := by
  induction h with
  | ends => exact ⟨Nat.le_refl _, List.forall_mem_nil _⟩
  | char here _ _ ih =>
    have next := Cursor.offset_skip_one here
    obtain ⟨le, places⟩ := ih (on.skip 1)
    exact ⟨by omega, fun v mem => ⟨by have := places v mem; omega, (places v mem).2⟩⟩
  | construct read _ ih =>
    obtain ⟨next, le'⟩ := on_of_readConstruct? on read
    obtain ⟨le, places⟩ := ih next
    exact ⟨by omega, fun v mem => ⟨by have := places v mem; omega, (places v mem).2⟩⟩
  | value here _ inner _ ih =>
    have next := Cursor.offset_skip_one here
    obtain ⟨there, le', within⟩ := inner.places (on.skip 1)
    have behind := Cursor.offset_skip_one inner.closed
    obtain ⟨le, places⟩ := ih (there.skip 1)
    refine ⟨by omega, List.forall_mem_cons.2 ⟨⟨?_, ?_, within⟩, fun v mem => ?_⟩⟩
    · dsimp only
      omega
    · dsimp only
      omega
    · exact ⟨by have := places v mem; omega, (places v mem).2⟩

/-! ### The walk of the lexer -/

variable {st mid : LexerState}

/-- From a state the lexer passes the inert marks at the places `ps` and reaches `d`, or it comes to
the first of these marks that is not inert. -/
def LexerState.Walks (s : Source) (st : LexerState) (ps : List Cursor) (d : Cursor) : Prop :=
  ((∀ p ∈ ps, Inert s (st.moved p)) ∧ ∃ next, Passes s st next ∧ next.Reached d) ∨
    ∃ p ∈ ps, ∃ next, Passes s st next ∧ next.cursor = p ∧ ¬ Inert s next ∧
      readConstruct? s p = none

namespace LexerState.Walks

theorem of_passes (passes : Passes s st mid) (h : mid.Walks s ps d) : st.Walks s ps d := by
  rcases h with ⟨inert, next, more, reached⟩ | ⟨p, mem, next, more, marked⟩
  · refine .inl ⟨fun p mem => (inert p mem).congr rfl passes.opened.symm passes.raw.symm, next,
      passes.trans more, reached⟩
  · exact .inr ⟨p, mem, next, passes.trans more, marked⟩

theorem append {qs : List Cursor} (h : st.Walks s ps d) (outside : st.raw = none)
    (more : ∀ next : LexerState, next.Reached d → next.raw = none → next.Walks s qs e) :
    st.Walks s (ps ++ qs) e := by
  rcases h with ⟨inert, mid, passes, reached⟩ | ⟨p, mem, marked⟩
  · rcases of_passes passes (more mid reached (passes.raw.trans outside)) with
      ⟨inert', rest⟩ | ⟨p, mem, marked⟩
    · exact .inl ⟨List.forall_mem_append.2 ⟨inert, inert'⟩, rest⟩
    · exact .inr ⟨p, List.mem_append_right _ mem, marked⟩
  · exact .inr ⟨p, List.mem_append_left _ mem, marked⟩

end LexerState.Walks

theorem QuotedRest.walks (h : QuotedRest s q c ps d) (reached : st.Reached c)
    (outside : st.raw = none) : st.Walks s ps d := by
  induction h generalizing st with
  | ends => exact .inl ⟨List.forall_mem_nil _, st, .refl st, reached⟩
  | char here _ plain _ ih =>
    obtain ⟨next, passes, reached⟩ := reached.exists_char (s := s) outside here plain
    exact .of_passes passes (ih reached (passes.raw.trans outside))
  | @opens c ps d here plain _ ih =>
    by_cases inert : Inert s (st.moved c)
    · obtain ⟨next, passes, reached⟩ := reached.exists_inert outside here plain inert
      have rest := ih reached (passes.raw.trans outside)
      rcases Walks.of_passes passes rest with ⟨others, reached⟩ | ⟨p, mem, marked⟩
      · exact .inl ⟨List.forall_mem_cons.2 ⟨inert, others⟩, reached⟩
      · exact .inr ⟨p, List.mem_cons_of_mem c mem, marked⟩
    · have at' := reached.cursor_eq here
      refine .inr ⟨c, List.mem_cons_self, st, .refl st, at', fun inert' => inert ?_, plain⟩
      exact inert'.congr at'.symm rfl rfl
  | construct read _ ih =>
    obtain ⟨next, passes, reached⟩ := reached.exists_construct outside read
    exact .of_passes passes (ih reached (passes.raw.trans outside))

theorem QuotedTag.walks (h : QuotedTag s c vs d) (reached : st.Reached c)
    (outside : st.raw = none) :
    st.Walks s (vs.flatMap ValueSpan.opens) d := by
  induction h generalizing st with
  | ends => exact .inl ⟨List.forall_mem_nil _, st, .refl st, reached⟩
  | char here plain _ ih =>
    have other : _ ≠ '<' := fun same => plain (same ▸ List.mem_cons_self)
    obtain ⟨next, passes, reached⟩ := reached.exists_char (s := s) outside here other
    exact .of_passes passes (ih reached (passes.raw.trans outside))
  | construct read _ ih =>
    obtain ⟨next, passes, reached⟩ := reached.exists_construct outside read
    exact .of_passes passes (ih reached (passes.raw.trans outside))
  | @value c q ps e vs d here quote inner _ ih =>
    have other {q : Char} (quote : q = '"' ∨ q = '\x27') : q ≠ '<' := by
      rcases quote with rfl | rfl <;> decide
    obtain ⟨next, passes, reached⟩ := reached.exists_char (s := s) outside here (other quote)
    refine .of_passes passes ?_
    rw [List.flatMap_cons]
    refine (inner.walks reached (passes.raw.trans outside)).append (passes.raw.trans outside) ?_
    intro mid reached outside
    obtain ⟨next, passes, reached⟩ :=
      reached.exists_char (s := s) outside inner.closed (other quote)
    exact .of_passes passes (ih reached (passes.raw.trans outside))

end

/-! ### Marks in values -/

section
variable {s : Source} {st next : LexerState} {ts : List Token} {m : Move} {ms ns : List Move}

/-- Tokens that are laid out end where they are laid out to. -/
theorem Laid.stop_le {k : Option TokenKind} {a b : Nat} (h : Laid s k a ts b) :
    ∀ t ∈ ts, t.start ≤ t.stop ∧ t.stop ≤ b := by
  have le {k : Option TokenKind} {a b : Nat} {ts : List Token} (h : Laid s k a ts b) : a ≤ b := by
    induction ts generalizing k a with
    | nil => exact Gap.le h
    | cons t ts ih =>
      obtain ⟨gap, sized, -, rest⟩ := h
      exact Nat.le_trans gap.le (Nat.le_trans sized (ih rest))
  induction ts generalizing k a with
  | nil => exact List.forall_mem_nil _
  | cons t ts ih =>
    obtain ⟨-, sized, -, rest⟩ := h
    exact List.forall_mem_cons.2 ⟨⟨sized, le rest⟩, ih rest⟩

/-- The tokens of the moves before one end where its text begins. -/
theorem laid_of_moves (on : st.On s) (run : st.moves s = ms ++ m :: ns) (k : Option TokenKind) :
    Laid s k st.text.offset (ms.flatMap Move.tokens) m.before.text.offset := by
  induction ms generalizing st k with
  | nil =>
    obtain ⟨n, _, first, rfl⟩ := exists_moves_eq_cons s st
    obtain ⟨rfl, -⟩ := List.cons.inj (first.symm.trans run)
    exact .nothing
  | cons n ms ih =>
    rw [moves, List.cons_append] at run
    split at run
    · have := (List.cons.inj run).2
      simp at this
    · next ts next hs =>
      obtain ⟨first, tail⟩ := List.cons.inj run
      have goes := goes_of_step hs
      rw [List.flatMap_cons]
      exact (first ▸ goes.laid on : Laid s k _ n.tokens next.text.offset).append
        (ih (goes.on on) tail _)

/-- A mark begins where the lexer stood, and not in the text that was gathered before. -/
theorem start_of_opensMarkup (on : st.On s) (hm : m ∈ st.moves s) :
    ∀ t ∈ m.tokens, t.kind.opensMarkup = true → m.before.cursor.offset ≤ t.start := by
  have text {st : LexerState} {t : Token} (ht : t ∈ st.gathered s) : t.kind.opensMarkup ≠ true := by
    rw [kind_gathered ht]
    exact Bool.false_ne_true
  intro t ht opens
  obtain ⟨on, goes | last⟩ := goes_of_mem_moves on hm
  · generalize m.tokens = ts, m.after = next at ht goes
    cases goes with
    | text | literalTag | literalEnd | rawEnd => cases ht
    | rawConstruct _ inner =>
      rcases List.mem_append.1 ht with ht | ht
      · exact absurd opens (text ht)
      · cases opens.symm.trans (opensMarkup_of_isInner (inner.inner trivial t ht))
    | taken _ takes =>
      rcases List.mem_append.1 ht with ht | ht
      · exact absurd opens (text ht)
      · exact (Laid.pairwise (takes.laid (k := none) on.cursor)).1 t ht
  · exact absurd opens (text (last.tokens_eq ▸ ht))

/-- Where all marks are passed over, no token and no move of the rest stands in the values. -/
theorem unmarked_of_passes {vs : List ValueSpan} {d : Cursor} (on : st.On s)
    (passes : Passes s st next) (reached : next.Reached d) (within : ∀ v ∈ vs, v.stop ≤ d.offset) :
    (∀ t ∈ st.tokens s, t.kind.opensMarkup = true → ∀ v ∈ vs, ¬ v.Holds t.start) ∧
      ∀ k ∈ st.moves s, ∀ v ∈ vs, v.Holds k.before.cursor.offset →
        k.after.opened = k.before.opened := by
  have on' := passes.on on
  obtain ⟨ks, pass, still⟩ := passes.run
  have away : ∀ k ∈ next.moves s, d.offset ≤ k.before.cursor.offset := fun k hk =>
    Nat.le_trans reached.offset_le (offset_le_of_mem_moves on' hk)
  rw [tokens_eq_flatMap_moves, pass]
  refine ⟨fun t ht opens v hv holds => ?_, fun k hk v hv holds => ?_⟩
  · obtain ⟨k, hk, ht⟩ := List.mem_flatMap.1 ht
    rcases List.mem_append.1 hk with hk | hk
    · cases opens.symm.trans ((still k hk).2 t ht)
    · have start := start_of_opensMarkup on' hk t ht opens
      have := away k hk
      have := within v hv
      have := holds.2
      omega
  · rcases List.mem_append.1 hk with hk | hk
    · exact (still k hk).1
    · have := away k hk
      have := within v hv
      have := holds.2
      omega

/-- At a mark that is not inert there is a token or a change of the open tags. -/
theorem marked_of_passes (passes : Passes s st next) (outside : st.raw = none)
    (plain : readConstruct? s next.cursor = none) (marked : ¬ Inert s next) :
    (∃ t ∈ st.tokens s, t.kind.opensMarkup = true ∧ t.start = next.cursor.offset) ∨
      ∃ k ∈ st.moves s, k.before = next ∧ k.after.opened ≠ k.before.opened := by
  obtain ⟨ks, pass, -⟩ := passes.run
  rw [tokens_eq_flatMap_moves, pass]
  rcases hs : next.step s with ⟨ts, _ | next'⟩
  · have atEnd := (eq_gathered_of_step hs).2.1
    exact absurd (inert_of_markup?_eq_none (markup?_eq_none_of_head? (by simp [atEnd]))) marked
  · have first := moves_of_step hs
    rcases marked_of_not_inert marked (passes.raw.trans outside) plain hs with
      changed | ⟨t, ht, opens, start⟩
    · exact .inr ⟨⟨next, ts, next'⟩, by simp [first], rfl, changed⟩
    · exact .inl ⟨t, by simp [first, ht], opens, start⟩

end

/-- **Quotes are of no account in a literal tag.**  In the quoted values of a literal start tag no
tag, comment or document type begins, and no open tag changes, exactly if each `<` in them that
begins no construct is inert for the tags that are open behind the name of the tag. -/
theorem values_undivided_iff {file text : String} {ms ns : List Move} {m : Move}
    {vs : List ValueSpan} {d : Cursor} (run : movesOf file text = ms ++ m :: ns)
    (tag : m.before.AtStartTag) (role : m.before.startRole (.of file text) = .literal)
    (quoted : QuotedTag (.of file text)
      (m.before.cursor.skip (m.before.startName.length + 1)) vs d) :
    ((∀ t ∈ tokenize file text, t.kind.opensMarkup = true → ∀ v ∈ vs, ¬ v.Holds t.start) ∧
      ∀ k ∈ ns, ∀ v ∈ vs, v.Holds k.before.cursor.offset → k.after.opened = k.before.opened) ↔
    ∀ v ∈ vs, ∀ p ∈ v.opens, Inert (.of file text) (m.after.moved p) := by
  obtain ⟨on, here⟩ := goes_of_moves (on_start (.of file text)) run
  obtain ⟨after, silent, behind⟩ := after_of_literal run tag role
  have place : m.after.cursor = m.before.cursor.skip (m.before.startName.length + 1) := by
    rw [after]
    rfl
  have outside : m.after.raw = none := by
    rw [after]
    exact tag.outside
  obtain ⟨le, places⟩ := quoted.places (on.cursor.skip _)
  rw [← place] at quoted le places
  have walks := quoted.walks (.here m.after) outside
  have on' : m.after.On (.of file text) := by
    rcases here with ⟨goes, -⟩ | ⟨last, -⟩
    · exact goes.on on
    · exact last.after_eq ▸ on
  have tokens : tokenize file text =
      ms.flatMap Move.tokens ++ m.after.tokens (.of file text) := by
    have run' : (start (.of file text)).moves (.of file text) =
        (ms ++ [m]) ++ m.after.moves (.of file text) := by
      rw [behind, List.append_assoc]
      exact run
    have all := tokens_eq_of_moves run'
    rwa [List.flatMap_append, List.flatMap_singleton, silent, List.append_nil] at all
  -- The tokens before the tag end before its values.
  have apart : ∀ t ∈ ms.flatMap Move.tokens, ∀ v ∈ vs, ¬ v.Holds t.start := by
    intro t ht v hv holds
    have laid := laid_of_moves (on_start (.of file text)) run none
    have := laid.stop_le t ht
    have := on.text_le
    have := (places v hv).1
    have := holds.1
    have := m.before.cursor.offset_skip (m.before.startName.length + 1)
    rw [place] at *
    omega
  subst behind
  constructor
  · rintro ⟨unmarked, still⟩ v hv p hp
    rcases walks with ⟨inert, -⟩ | ⟨p, mem, next, passes, at', marked, plain⟩
    · exact inert p (List.mem_flatMap.2 ⟨v, hv, hp⟩)
    · obtain ⟨v, hv, hp⟩ := List.mem_flatMap.1 mem
      subst at'
      have holds := (places v hv).2.2 _ hp
      rcases marked_of_passes passes outside plain marked with
        ⟨t, ht, opens, start⟩ | ⟨k, hk, rfl, changed⟩
      · have mem : t ∈ tokenize file text := tokens ▸ List.mem_append_right _ ht
        exact absurd (start ▸ holds) (unmarked t mem opens v hv)
      · exact absurd (still k hk v hv holds) changed
  · intro inert
    rcases walks with ⟨-, next, passes, reached⟩ | ⟨p, mem, next, passes, rfl, marked, -⟩
    · obtain ⟨unmarked, still⟩ :=
        unmarked_of_passes on' passes reached fun v hv => (places v hv).2.1
      refine ⟨fun t ht opens v hv => ?_, still⟩
      rcases List.mem_append.1 (tokens ▸ ht) with ht | ht
      · exact apart t ht v hv
      · exact unmarked t ht opens v hv
    · obtain ⟨v, hv, hp⟩ := List.mem_flatMap.1 mem
      have inert' : Inert (.of file text) next :=
        (inert v hv _ hp).congr rfl passes.opened passes.raw
      exact absurd inert' marked

/-- A tag in small letters is text in a value, as it would be in the content. -/
theorem values_undivided_bold : ∃ m ns v,
    movesOf "page.aspx" "<p a='<b>'>" = m :: ns ∧ v.start = 6 ∧ v.stop = 9 ∧
      (∀ t ∈ tokenize "page.aspx" "<p a='<b>'>", t.kind.opensMarkup = true →
        ∀ v' ∈ [v], ¬ ValueSpan.Holds v' t.start) ∧
      ∀ k ∈ ns, ∀ v' ∈ [v], ValueSpan.Holds v' k.before.cursor.offset →
        k.after.opened = k.before.opened := by
  have tag : (start (.of "page.aspx" "<p a='<b>'>")).AtStartTag :=
    ⟨rfl, by decide +kernel, by decide +kernel⟩
  have role : (start (.of "page.aspx" "<p a='<b>'>")).startRole (.of "page.aspx" "<p a='<b>'>") =
      .literal := by decide +kernel
  have run := moves_of_step (tag.step_literal role)
  have plain : readConstruct? (.of "page.aspx" "<p a='<b>'>")
      ((Source.of "page.aspx" "<p a='<b>'>").begin.skip 6) = none :=
    readConstruct?_eq_none_iff.2 (by decide +kernel)
  have value : QuotedRest (.of "page.aspx" "<p a='<b>'>") '\x27'
      ((Source.of "page.aspx" "<p a='<b>'>").begin.skip 6)
      [(Source.of "page.aspx" "<p a='<b>'>").begin.skip 6]
      ((Source.of "page.aspx" "<p a='<b>'>").begin.skip 9) :=
    .opens rfl plain (.char (x := 'b') rfl (by decide) (by decide)
      (.char (x := '>') rfl (by decide) (by decide) (.ends rfl)))
  have quoted := QuotedTag.char (c := (Source.of "page.aspx" "<p a='<b>'>").begin.skip 2) rfl
    (show ' ' ∉ _ by decide) (.char rfl (show 'a' ∉ _ by decide) (.char rfl
      (show '=' ∉ _ by decide) (.value rfl (.inr rfl) value (.ends rfl))))
  refine ⟨_, _, _, run, by decide +kernel, by decide +kernel,
    (@values_undivided_iff _ _ [] _ _ _ _ run tag role quoted).2 ?_⟩
  refine List.forall_mem_singleton.2 (List.forall_mem_singleton.2 ?_)
  exact AtStartTag.inert ⟨rfl, by decide +kernel, by decide +kernel⟩ (by decide +kernel)
    (.inr (.inr (by decide +kernel)))

/-- A capitalised tag in a value is taken apart there, and left open. -/
theorem value_divided : ∃ m ns v d,
    movesOf "page.aspx" "<p a=\"<B>\">" = m :: ns ∧ m.before.AtStartTag ∧
      m.before.startRole (.of "page.aspx" "<p a=\"<B>\">") = .literal ∧
      QuotedTag (.of "page.aspx" "<p a=\"<B>\">")
        (m.before.cursor.skip (m.before.startName.length + 1)) [v] d ∧
      (∃ t ∈ tokenize "page.aspx" "<p a=\"<B>\">", t.kind = .tagOpen ∧ v.Holds t.start) ∧
      ∃ k ∈ ns, v.Holds k.before.cursor.offset ∧ k.after.opened ≠ k.before.opened := by
  have tag : (start (.of "page.aspx" "<p a=\"<B>\">")).AtStartTag :=
    ⟨rfl, by decide +kernel, by decide +kernel⟩
  have role : (start (.of "page.aspx" "<p a=\"<B>\">")).startRole
      (.of "page.aspx" "<p a=\"<B>\">") = .literal := by decide +kernel
  have run := moves_of_step (tag.step_literal role)
  have plain : readConstruct? (.of "page.aspx" "<p a=\"<B>\">")
      ((Source.of "page.aspx" "<p a=\"<B>\">").begin.skip 6) = none :=
    readConstruct?_eq_none_iff.2 (by decide +kernel)
  have value : QuotedRest (.of "page.aspx" "<p a=\"<B>\">") '"'
      ((Source.of "page.aspx" "<p a=\"<B>\">").begin.skip 6)
      [(Source.of "page.aspx" "<p a=\"<B>\">").begin.skip 6]
      ((Source.of "page.aspx" "<p a=\"<B>\">").begin.skip 9) :=
    .opens rfl plain (.char (x := 'B') rfl (by decide) (by decide)
      (.char (x := '>') rfl (by decide) (by decide) (.ends rfl)))
  have quoted := QuotedTag.char (c := (Source.of "page.aspx" "<p a=\"<B>\">").begin.skip 2) rfl
    (show ' ' ∉ _ by decide) (.char rfl (show 'a' ∉ _ by decide) (.char rfl
      (show '=' ∉ _ by decide) (.value rfl (.inl rfl) value (.ends rfl))))
  refine ⟨_, _, _, _, run, tag, role, quoted, ?_, ?_⟩
  · unfold ValueSpan.Holds
    decide +kernel
  · unfold ValueSpan.Holds
    decide +kernel

end ServerMarkup
