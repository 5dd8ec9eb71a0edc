/-
# Marks that begin nothing

A `<` is *inert* for the tags that are open if nothing that is complete begins with it, its closing
tag closes nothing, and its start tag is literal and not kept open.  Where the lexer comes to such a
`<`, it gathers text and changes no open tag (`Inert.step`); at any other `<` that begins no
construct it emits a mark or changes the open tags (`marked_of_not_inert`).

Text is gathered up to the next `<`, so the lexer may be ahead of a place with no mark in between
(`Reached`).  `Passes` says that it comes from one state to another and has neither emitted a mark
nor changed the open tags.
-/

import ServerMarkup.Proofs.Lexer.Faithful
import ServerMarkup.Proofs.Lexer.Openings
import ServerMarkup.Proofs.Lexer.Pieces
import ServerMarkup.Proofs.Lexer.Shapes
import ServerMarkup.Proofs.Nesting.Backed

namespace ServerMarkup

/-- Whether a token of the kind begins with a mark of HTML. -/
def TokenKind.opensMarkup (k : TokenKind) : Bool :=
  [.tagOpen, .tagOpenSlash, .comment, .docType].contains k

theorem opensMarkup_of_isInner {k : TokenKind} (h : k.isInner = true) : k.opensMarkup = false := by
  cases k <;> first
    | rfl
    | cases h

/-- A closing tag that is read as one closes something. -/
theorem ne_of_closeTag? {opened rest : List OpenTag} {name : String} {role : TagRole}
    (h : closeTag? opened name = some (role, rest)) : rest ≠ opened := by
  rintro rfl
  unfold closeTag? at h
  dsimp only at h
  split at h
  · next onTop =>
    obtain ⟨t, first, ht⟩ := Option.map_eq_some_iff.1 h
    obtain ⟨below, hr⟩ := List.head?_eq_some_iff.1 first
    have same := (Prod.mk.inj ht).2
    rw [hr, List.tail_cons] at same
    exact List.cons_ne_self t below same.symm
  split at h
  · split at h
    · cases h
    · next t ts ht =>
      obtain ⟨-, rfl⟩ := Prod.mk.inj (Option.some.inj h)
      have suffix : t :: ts <:+ ts := ht ▸ List.dropWhile_suffix _
      have := suffix.length_le
      rw [List.length_cons] at this
      omega
  · cases h

namespace LexerState

variable {s : Source} {st next : LexerState} {ts : List Token} {c d : Cursor} {x : Char}

/-- The `<` at the cursor begins nothing for the lexer. -/
structure Inert (s : Source) (st : LexerState) : Prop where
  comment : st.cursor.sees ['<', '!', '-', '-'] = true →
    s.ahead? .comment (st.cursor.offset + 4) (st.cursor.rest.drop 4) = none
  docType : namedAt ['<', '!', 'd', 'o', 'c', 't', 'y', 'p', 'e'] st.cursor.rest = true →
    s.ahead? .docType st.cursor.offset st.cursor.rest = none
  endTag : st.AtEndTag → closeTag? st.opened st.endName = none
  literal : st.AtStartTag → st.startRole s = .literal
  unkept : st.AtStartTag →
    (inspectTag s (st.cursor.skip (st.startName.length + 1))).selfClosing = true ∨
      isVoidTag st.startName = true ∨ structuredOpen st.opened st.startName = false

/-- The gathered text is of no account. -/
theorem Inert.congr {st' : LexerState} (h : Inert s st) (cursor : st'.cursor = st.cursor)
    (opened : st'.opened = st.opened) (raw : st'.raw = st.raw) : Inert s st' := by
  obtain ⟨c, t, os, r⟩ := st
  obtain ⟨c', t', os', r'⟩ := st'
  obtain rfl : c' = c := cursor
  obtain rfl : os' = os := opened
  obtain rfl : r' = r := raw
  exact ⟨h.comment, h.docType, fun tag => h.endTag ⟨tag.outside, tag.opens, tag.letter⟩,
    fun tag => h.literal ⟨tag.outside, tag.opens, tag.letter⟩,
    fun tag => h.unkept ⟨tag.outside, tag.opens, tag.letter⟩⟩

/-! ### One step -/

/-- A construct is taken apart. -/
theorem step_construct {r : Reading st.cursor.rest.length} (outside : st.raw = none)
    (read : readConstruct? s st.cursor = some r) :
    st.step s = (st.gathered s ++ r.tokens, some (st.moved r.next)) := by
  obtain ⟨cs, hcs⟩ := prefix_of_readConstruct? read
  have markup : st.markup? s = some (st.gathered s ++ r.tokens, st.moved r.next) := by
    simp only [markup?, Cursor.sees, ← hcs, read]
    rfl
  simp [step, outside, ← hcs, markup]

theorem enclosed?_eq_none {kind : TokenKind} {lead : Nat} {m : EndMark}
    (h : s.ahead? m (st.cursor.offset + lead) (st.cursor.rest.drop lead) = none) :
    st.enclosed? s kind lead m = none := by
  rw [enclosed?, h]
  rfl

/-- A tag that is no start tag is no markup if it is inert. -/
theorem Inert.markup?_eq_none (h : Inert s st) (plain : readConstruct? s st.cursor = none)
    (outside : st.raw = none) (other : ¬ st.AtStartTag) : st.markup? s = none := by
  unfold markup?
  dsimp only
  split
  · next sees => exact enclosed?_eq_none (h.comment sees)
  split
  · rw [plain]
    rfl
  split
  · next named => exact enclosed?_eq_none (h.docType named)
  split
  · next sees =>
    split
    · next letter =>
      have tag : st.AtEndTag := ⟨outside, sees, letter⟩
      rw [length_endName, closingTag?, value_excerpt_endName, h.endTag tag]
    · rfl
  split
  · next sees =>
    split
    · next letter => exact absurd ⟨outside, sees, letter⟩ other
    · rfl
  · rfl

/-- At an inert `<` text is gathered, and what is open stays open. -/
theorem Inert.step (h : Inert s st) (outside : st.raw = none)
    (here : st.cursor.rest.head? = some '<') (plain : readConstruct? s st.cursor = none) :
    ∃ n, st.step s = ([], some (st.addText (n + 1))) ∧ n ≤ (st.cursor.skip 1).rest.length ∧
      '<' ∉ (st.cursor.skip 1).rest.take n := by
  obtain ⟨cs, hcs⟩ := List.head?_eq_some_iff.1 here
  by_cases tag : st.AtStartTag
  · refine ⟨st.startName.length, ?_, ?_, ?_⟩
    · rw [tag.step_literal (h.literal tag), afterLiteralTag_of_unkept (h.unkept tag)]
    · rw [← length_startName, Cursor.rest_skip]
      exact (List.takeWhile_prefix _).length_le
    · rw [← length_startName, Cursor.rest_skip, take_length_tagNameOf]
      exact fun mem => absurd (List.mem_takeWhile_imp mem) (by decide +kernel)
  · refine ⟨(cs.takeWhile (· != '<')).length, ?_, ?_, ?_⟩
    · rw [step_text outside (by simp [hcs]) (h.markup?_eq_none plain outside tag), hcs, textReach,
        Nat.add_comm]
    · rw [Cursor.rest_skip, hcs]
      exact (List.takeWhile_prefix _).length_le
    · rw [Cursor.rest_skip, hcs, List.drop_succ_cons, List.drop_zero,
        ← List.prefix_iff_eq_take.1 (List.takeWhile_prefix _)]
      exact fun mem => absurd (List.mem_takeWhile_imp mem) (by decide)

theorem ahead?_eq_none {kind : TokenKind} {lead : Nat} {m : EndMark}
    (h : st.enclosed? s kind lead m = none) :
    s.ahead? m (st.cursor.offset + lead) (st.cursor.rest.drop lead) = none :=
  Option.map_eq_none_iff.1 h

/-- What a document type begins with. -/
theorem exists_of_docType {cs : List Char}
    (named : namedAt ['<', '!', 'd', 'o', 'c', 't', 'y', 'p', 'e'] cs = true) :
    ∃ x ds, cs = '<' :: '!' :: x :: ds ∧ x ≠ '-' := by
  rcases cs with _ | ⟨a, _ | ⟨b, _ | ⟨x, ds⟩⟩⟩
  · cases named
  · simp [namedAt] at named
  · simp [namedAt] at named
  · simp only [namedAt, Bool.and_eq_true, beq_iff_eq, toLower_eq_iff (x := '<') (by decide),
      toLower_eq_iff (x := '!') (by decide)] at named
    obtain ⟨rfl, rfl, third, -⟩ := named
    refine ⟨x, ds, rfl, ?_⟩
    rintro rfl
    exact absurd third (by decide)

/-- A document type is no comment and no construct. -/
theorem markup?_of_docType
    (named : namedAt ['<', '!', 'd', 'o', 'c', 't', 'y', 'p', 'e'] st.cursor.rest = true) :
    st.markup? s = st.enclosed? s .docType 0 .docType := by
  obtain ⟨x, cs, hcs, other⟩ := exists_of_docType named
  rw [hcs] at named
  simp [markup?, Cursor.sees, hcs, named, other.symm]

/-- Where the lexer sees no markup, nothing begins. -/
theorem inert_of_markup?_eq_none (none : st.markup? s = none) : Inert s st where
  comment sees := by
    rw [markup?, if_pos sees] at none
    exact ahead?_eq_none none
  docType named := by
    rw [markup?_of_docType named] at none
    exact ahead?_eq_none none
  endTag tag := by
    rw [tag.markup?_eq] at none
    cases closes : closeTag? st.opened st.endName with
    | none => rfl
    | some closed =>
      obtain ⟨role, opened⟩ := closed
      by_cases literal : role = .literal
      · rw [closingTag?, value_excerpt_endName, closes, literal] at none
        cases none
      · obtain ⟨us, d, -, hc⟩ := closingTag?_of_taken (s := s) closes literal
        cases hc.symm.trans none
  literal tag := by cases tag.markup?_eq.symm.trans none
  unkept tag := by cases tag.markup?_eq.symm.trans none

/-- A literal start tag that is not kept open begins nothing. -/
theorem AtStartTag.inert (tag : st.AtStartTag) (role : st.startRole s = .literal)
    (unkept : (inspectTag s (st.cursor.skip (st.startName.length + 1))).selfClosing = true ∨
      isVoidTag st.startName = true ∨ structuredOpen st.opened st.startName = false) :
    Inert s st := by
  have second {x : Char} (cs : List Char) (other : isLetter x = false) :
      st.cursor.rest ≠ '<' :: x :: cs := by
    intro hcs
    have letter := tag.letter
    rw [hcs] at letter
    cases letter.symm.trans other
  refine ⟨fun sees => ?_, fun named => ?_, fun endTag => ?_, fun _ => role, fun _ => unkept⟩
  · obtain ⟨cs, hcs⟩ := List.isPrefixOf_iff_prefix.1 sees
    exact absurd hcs.symm (second _ (by decide +kernel))
  · obtain ⟨x, cs, hcs, -⟩ := exists_of_docType named
    exact absurd hcs (second _ (by decide +kernel))
  · obtain ⟨cs, hcs⟩ := List.isPrefixOf_iff_prefix.1 endTag.opens
    exact absurd hcs.symm (second _ (by decide +kernel))

/-- At another `<` than an inert one a mark is emitted, or the open tags change. -/
theorem marked_of_not_inert (h : ¬ Inert s st) (outside : st.raw = none)
    (plain : readConstruct? s st.cursor = none) (hs : st.step s = (ts, some next)) :
    next.opened ≠ st.opened ∨
      ∃ t ∈ ts, t.kind.opensMarkup = true ∧ t.start = st.cursor.offset := by
  have first {t : Token} {us vs : List Token} (opens : t.kind.opensMarkup = true)
      (start : t.start = st.cursor.offset) : ∃ t' ∈ us ++ t :: vs, t'.kind.opensMarkup = true ∧
        t'.start = st.cursor.offset := ⟨t, by simp, opens, start⟩
  cases goes_of_step hs with
  | text _ none => exact absurd (inert_of_markup?_eq_none none) h
  | literalTag tag role =>
    refine .inl fun same => h (tag.inert role ?_)
    by_contra kept
    simp only [not_or, Bool.not_eq_true, Bool.not_eq_false] at kept
    have nested := kept.2.2
    rw [structuredOpen] at nested
    simp [afterLiteralTag, kept, nested] at same
  | literalEnd tag closes => exact .inl (ne_of_closeTag? closes)
  | rawEnd inside _ => cases outside.symm.trans inside
  | rawConstruct inside _ => cases outside.symm.trans inside
  | taken _ takes =>
    cases takes with
    | whole kind _ _ =>
      exact .inr (first (by rcases kind with h | h <;> rw [Token.whole, h] <;> rfl) rfl)
    | construct inner => exact absurd (readConstruct?_eq_none_iff.1 plain) inner.construct?_ne_none
    | openingTag => exact .inl (List.cons_ne_self _ _)
    | loneTag => exact .inr (first rfl rfl)
    | closingTag => exact .inr (first rfl rfl)

/-! ### From one place to another -/

/-- The lexer stands at the place, or ahead of it with no `<` in between. -/
def Reached (st : LexerState) (c : Cursor) : Prop :=
  ∃ n ≤ c.rest.length, st.cursor = c.skip n ∧ '<' ∉ c.rest.take n

namespace Reached

theorem here (st : LexerState) : st.Reached st.cursor :=
  ⟨0, Nat.zero_le _, (Cursor.skip_zero _).symm, by simp⟩

/-- A `<` is not passed over. -/
theorem cursor_eq (h : st.Reached c) (opens : c.rest.head? = some '<') : st.cursor = c := by
  obtain ⟨n, -, place, within⟩ := h
  obtain ⟨cs, hcs⟩ := List.head?_eq_some_iff.1 opens
  cases n with
  | zero => rw [place, Cursor.skip_zero]
  | succ n => simp [hcs] at within

theorem offset_le (h : st.Reached c) : c.offset ≤ st.cursor.offset := by
  obtain ⟨n, -, place, -⟩ := h
  rw [place, Cursor.offset_skip]
  exact Nat.le_add_right _ _

end Reached

/-- The lexer comes from one state to another by steps that emit no mark and change no open tag. -/
structure Passes (s : Source) (st next : LexerState) : Prop where
  run : ∃ ms, st.moves s = ms ++ next.moves s ∧ ∀ m ∈ ms, m.after.opened = m.before.opened ∧
    ∀ t ∈ m.tokens, t.kind.opensMarkup = false
  opened : next.opened = st.opened
  raw : next.raw = st.raw

namespace Passes

variable {mid : LexerState}

theorem refl (st : LexerState) : Passes s st st :=
  ⟨⟨[], rfl, List.forall_mem_nil _⟩, rfl, rfl⟩

theorem trans (h : Passes s st mid) (k : Passes s mid next) : Passes s st next := by
  obtain ⟨⟨ms, run, still⟩, opened, raw⟩ := h
  obtain ⟨⟨ms', run', still'⟩, opened', raw'⟩ := k
  exact ⟨⟨ms ++ ms', by rw [run, run', List.append_assoc],
      List.forall_mem_append.2 ⟨still, still'⟩⟩,
    opened'.trans opened, raw'.trans raw⟩

theorem of_step (h : st.step s = (ts, some next)) (opened : next.opened = st.opened)
    (raw : next.raw = st.raw) (unmarked : ∀ t ∈ ts, t.kind.opensMarkup = false) :
    Passes s st next :=
  ⟨⟨[⟨st, ts, next⟩], moves_of_step h, List.forall_mem_singleton.2 ⟨opened, unmarked⟩⟩, opened, raw⟩

/-- The lexer is in the source wherever it passes to. -/
theorem on (passes : Passes s st next) (on : st.On s) : next.On s := by
  obtain ⟨ms, run, -⟩ := passes.run
  obtain ⟨m, more, first, rfl⟩ := exists_moves_eq_cons s next
  exact (goes_of_moves on (run.trans (congrArg (ms ++ ·) first))).1

end Passes

/-- A character that is no `<` is passed over. -/
theorem Reached.exists_char (h : st.Reached c) (outside : st.raw = none)
    (here : c.rest.head? = some x) (plain : x ≠ '<') :
    ∃ next, Passes s st next ∧ next.Reached (c.skip 1) := by
  obtain ⟨n, le, place, within⟩ := h
  obtain ⟨cs, hcs⟩ := List.head?_eq_some_iff.1 here
  cases n with
  | zero =>
    rw [Cursor.skip_zero] at place
    have none : st.markup? s = none := by
      refine markup?_eq_none_of_head? ?_
      rw [place, here]
      exact fun same => plain (Option.some.inj same)
    have stepped := step_text outside (by simp [place, hcs]) none
    refine ⟨_, .of_step stepped rfl rfl (List.forall_mem_nil _),
      (cs.takeWhile (· != '<')).length, ?_, ?_, ?_⟩
    · rw [Cursor.rest_skip, hcs]
      exact (List.takeWhile_prefix _).length_le
    · rw [cursor_addText, place, hcs, textReach, Cursor.skip_skip]
    · rw [Cursor.rest_skip, hcs, List.drop_succ_cons, List.drop_zero,
        ← List.prefix_iff_eq_take.1 (List.takeWhile_prefix _)]
      exact fun mem => absurd (List.mem_takeWhile_imp mem) (by decide)
  | succ n =>
    refine ⟨st, .refl st, n, ?_, ?_, ?_⟩
    · rw [Cursor.length_rest_skip]
      omega
    · rw [Cursor.skip_skip, place, Nat.add_comm]
    · rw [Cursor.rest_skip, hcs, List.drop_succ_cons, List.drop_zero]
      rw [hcs, List.take_succ_cons] at within
      exact fun mem => within (List.mem_cons_of_mem _ mem)

/-- A construct is passed over. -/
theorem Reached.exists_construct {r : Reading c.rest.length} (h : st.Reached c)
    (outside : st.raw = none) (read : readConstruct? s c = some r) :
    ∃ next, Passes s st next ∧ next.Reached r.next := by
  obtain ⟨cs, hcs⟩ := prefix_of_readConstruct? read
  obtain rfl := h.cursor_eq (by rw [← hcs]; rfl)
  refine ⟨_, .of_step (step_construct outside read) rfl rfl ?_, .here (st.moved r.next)⟩
  refine List.forall_mem_append.2 ⟨fun t ht => ?_, fun t ht => ?_⟩
  · rw [kind_gathered ht]
    rfl
  · exact opensMarkup_of_isInner ((reads_readConstruct? read).inner trivial t ht)

/-- An inert `<` is passed over. -/
theorem Reached.exists_inert (h : st.Reached c) (outside : st.raw = none)
    (here : c.rest.head? = some '<') (plain : readConstruct? s c = none)
    (inert : Inert s (st.moved c)) : ∃ next, Passes s st next ∧ next.Reached (c.skip 1) := by
  obtain rfl := h.cursor_eq here
  have inert' : Inert s st := inert.congr rfl rfl rfl
  obtain ⟨n, stepped, le, within⟩ := inert'.step outside here plain
  exact ⟨_, .of_step stepped rfl rfl (List.forall_mem_nil _), n, le,
    by rw [cursor_addText, Cursor.skip_skip, Nat.add_comm], within⟩

end LexerState
end ServerMarkup
