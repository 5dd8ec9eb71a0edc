/-
# The letter case of a literal closing tag

A literal element may be closed in another letter case than it is opened in.  That is of no account
where the closing tag is looked for among the open tags, which compares names without regard to
case, but a capital makes the name one of a server tag, and then a closing tag that closes nothing
is taken to close the innermost structured tag (`Backed.exists_closeTag?`).

So in another letter case the closing tag is the same text exactly if that does not happen
(`literalPair_recased_iff`): if the name does not begin with a capital then, if no structured tag is
open, or if one of that name is.  In the last case the literal tag has been kept open for this
closing tag.

`LiteralPair` is a start tag and its closing tag in a run, with the same tags open at the second as
behind the first.  So are the tags of balanced content (`exists_literalPair_of_literalText`).
-/

import ServerMarkup.Proofs.Lexer.Recased
import ServerMarkup.Proofs.Nesting.LiteralContent
import ServerMarkup.Proofs.Nesting.QuotedValues

namespace ServerMarkup

open LexerState

/-- What kind of token it is, its span and the span of its text. -/
def Token.extent (t : Token) : TokenKind × Span × Span :=
  (t.kind, t.span, t.text.span)

theorem map_extent_of_lowered {ts ts' : List Token}
    (same : ts'.map Token.lowered = ts.map Token.lowered) :
    ts'.map Token.extent = ts.map Token.extent := by
  have all (ts : List Token) : (ts.map Token.lowered).map Token.extent = ts.map Token.extent := by
    rw [List.map_map]
    rfl
  rw [← all, same, all]

/-! ### Closing tags -/

/-- The letter case of a closing tag's name is of no account if both or none are capitalised, if the
tag closes the innermost tag, or if no structured tag is open. -/
theorem closeTag?_eq_of_sameName {opened : List OpenTag} {name name' : String}
    (same : sameName name' name = true)
    (h : looksLikeServerTag name' = looksLikeServerTag name ∨
      opened.head?.any (sameName ·.name name) = true ∨ opened.filter OpenTag.isStructured = []) :
    closeTag? opened name' = closeTag? opened name := by
  have names (t : OpenTag) : sameName t.name name' = sameName t.name name := by
    rw [sameName, sameName, sameName_iff.1 same]
  simp only [closeTag?, names]
  rcases h with capital | top | none
  · rw [capital]
  · rw [if_pos top, if_pos top]
  · have below : opened.dropWhile (! ·.isStructured) = [] := by
      refine List.dropWhile_eq_nil_iff.2 fun t mem => ?_
      simpa using List.filter_eq_nil_iff.1 none t mem
    rw [below]
    simp

namespace LexerState

variable {s : Source} {st : LexerState}

/-- A closing tag that closes no structured tag is text. -/
theorem AtEndTag.exists_step (tag : st.AtEndTag)
    (closes : ∀ role rest, closeTag? st.opened st.endName = some (role, rest) → role = .literal) :
    ∃ next, st.step s = ([], some next) ∧ next.structured = st.structured := by
  cases closed : closeTag? st.opened st.endName with
  | none =>
    have left : st.cursor.rest ≠ [] := rest_ne_nil_of_sees tag.opens
    exact ⟨_, step_text tag.outside left (tag.markup?_eq_none closed), rfl⟩
  | some pair =>
    obtain ⟨role, rest⟩ := pair
    obtain rfl := closes role rest closed
    refine ⟨_, tag.step_literal closed, ?_⟩
    have popped := structured_closeTag? closed
    rwa [if_pos rfl] at popped

theorem AtEndTag.not_atStartTag (tag : st.AtEndTag) : ¬ st.AtStartTag := by
  intro start
  obtain ⟨cs, hcs⟩ := List.isPrefixOf_iff_prefix.1 tag.opens
  have letter := start.letter
  rw [← hcs] at letter
  cases letter.symm.trans (by decide +kernel : isLetter '/' = false)

end LexerState

/-! ### Two texts -/

/-- The text `before`, a closing tag with the name, and the text `after` behind the name. -/
def closingText (before name after : List Char) : String :=
  .ofList (before ++ '<' :: '/' :: (name ++ after))

section
variable {before name name' after : List Char} {o : Nat}

theorem toList_closingText :
    (closingText before name after).toList = before ++ '<' :: '/' :: (name ++ after) :=
  String.toList_ofList

theorem tagNameOf_append_lt (bs cs : List Char) : tagNameOf (bs ++ '<' :: cs) = tagNameOf bs := by
  induction bs with
  | nil => rfl
  | cons b bs ih =>
    rw [tagNameOf, tagNameOf, List.cons_append, List.takeWhile_cons, List.takeWhile_cons]
    split
    · exact congrArg (b :: ·) ih
    · rfl

/-- A `<` behind the one of the closing tag comes after its name. -/
theorem le_of_opens (plain : ∀ x ∈ name, isTagNameChar x = true) (beyond : before.length < o)
    (opens : ((closingText before name after).toList.drop o).head? = some '<') :
    before.length + 2 + name.length ≤ o := by
  refine Nat.le_of_not_lt fun lt => ?_
  obtain ⟨i, rfl⟩ := Nat.exists_eq_add_of_lt beyond
  have within : i < ('/' :: name).length := by
    rw [List.length_cons]
    omega
  rw [List.head?_drop, toList_closingText, Nat.add_assoc,
    List.getElem?_append_right (Nat.le_add_right _ _),
    Nat.add_sub_cancel_left, List.getElem?_cons_succ, ← List.cons_append,
    List.getElem?_append_left within] at opens
  rcases List.mem_cons.1 (List.mem_of_getElem? opens) with slash | mem
  · cases slash
  · cases (plain '<' mem).symm.trans (by decide +kernel : isTagNameChar '<' = false)

theorem drop_closingText (le : before.length + 2 + name.length ≤ o) :
    (closingText before name after).toList.drop o =
      after.drop (o - (before.length + 2 + name.length)) := by
  have size : (before ++ '<' :: '/' :: name).length = before.length + 2 + name.length := by
    rw [List.length_append, List.length_cons, List.length_cons]
    omega
  have split : (closingText before name after).toList =
      (before ++ '<' :: '/' :: name) ++ after := by
    simp [toList_closingText]
  rw [split, List.drop_append, List.drop_of_length_le (size ▸ le), size, List.nil_append]

/-- Elsewhere the two texts have the same tag names. -/
theorem tagNameOf_drop_closingText {j : Nat} (plain : ∀ x ∈ name, isTagNameChar x = true)
    (size : name'.length = name.length)
    (away : o + j ≤ before.length ∨
      before.length < o ∧ ((closingText before name after).toList.drop o).head? = some '<') :
    tagNameOf ((closingText before name' after).toList.drop (o + j)) =
      tagNameOf ((closingText before name after).toList.drop (o + j)) := by
  rcases away with front | ⟨beyond, opens⟩
  · rw [toList_closingText, toList_closingText, List.drop_append_of_le_length front,
      List.drop_append_of_le_length front, tagNameOf_append_lt, tagNameOf_append_lt]
  · have behind := le_of_opens plain beyond opens
    rw [drop_closingText (by omega), drop_closingText (by omega), size]

end

section
variable {file : String} {before name name' after : List Char} {st q : LexerState}

theorem text_closingText : (Source.of file (closingText before name after)).text =
    before ++ '<' :: '/' :: (name ++ after) :=
  toList_closingText

theorem endName_of_closingText
    (on : st.On (.of file (closingText before name after)))
    (place : st.cursor.offset = before.length) (whole : tagNameOf (name ++ after) = name) :
    st.endName = .ofList name := by
  have rest := on.cursor.rest_eq
  rw [place, text_closingText, List.drop_left] at rest
  rw [endName, rest]
  exact congrArg String.ofList whole

section
variable (same : name'.map Char.toLower = name.map Char.toLower)
include same

theorem length_eq_of_recased : name'.length = name.length := by
  simpa using congrArg List.length same

theorem sameName_of_recased : sameName (.ofList name') (.ofList name) = true := by
  rw [sameName_iff, lowered, lowered, String.toList_ofList, String.toList_ofList, same]

/-- A name in another letter case ends at the same place. -/
theorem tagNameOf_of_recased (whole : tagNameOf (name ++ after) = name) :
    tagNameOf (name' ++ after) = name' := by
  have small := tagNameOf_map_toLower (name' ++ after)
  rw [List.map_append, same, ← List.map_append, tagNameOf_map_toLower, whole] at small
  have size : (tagNameOf (name' ++ after)).length = name'.length := by
    rw [length_eq_of_recased same]
    simpa using (congrArg List.length small).symm
  rw [← take_length_tagNameOf, size, List.take_left]

theorem recased_start : Recased (.of file (closingText before name after))
    (.of file (closingText before name' after)) (start (.of file (closingText before name after)))
    (start (.of file (closingText before name' after))) := by
  have text : ServerMarkup.lowered (closingText before name' after) =
      ServerMarkup.lowered (closingText before name after) := by
    rw [ServerMarkup.lowered, ServerMarkup.lowered, toList_closingText, toList_closingText]
    simp [same]
  have source : (Source.of file (closingText before name' after)).lowered =
      (Source.of file (closingText before name after)).lowered := by
    rw [Source.lowered_of, Source.lowered_of, text]
  have state (s : Source) : (start s).lowered = start s.lowered := rfl
  exact ⟨source, by rw [state, state, source]⟩

end

/-- In two texts that differ in the letter case of a closing tag, the tags elsewhere mean the same.
-/
theorem Recased.sameTags (h : Recased (.of file (closingText before name after))
      (.of file (closingText before name' after)) st q)
    (on : st.On (.of file (closingText before name after)))
    (on' : q.On (.of file (closingText before name' after)))
    (plain : ∀ x ∈ name, isTagNameChar x = true) (size : name'.length = name.length)
    (away : st.raw = none → st.cursor.offset ≠ before.length) : st.SameTags q := by
  have rest := on.cursor.rest_eq
  have rest' := on'.cursor.rest_eq
  rw [h.offset] at rest'
  have names {j : Nat} (apart : st.cursor.offset + j ≤ before.length ∨
      before.length < st.cursor.offset ∧ st.cursor.rest.head? = some '<') :
      tagNameOf (q.cursor.rest.drop j) = tagNameOf (st.cursor.rest.drop j) := by
    rw [rest] at apart
    rw [rest', rest, List.drop_drop, List.drop_drop]
    exact tagNameOf_drop_closingText plain size apart
  constructor
  · intro tag
    obtain ⟨cs, hcs⟩ := List.isPrefixOf_iff_prefix.1 tag.opens
    have opens : st.cursor.rest.head? = some '<' := hcs ▸ rfl
    have same : q.startName = st.startName := by
      refine congrArg String.ofList (names ?_)
      rcases Nat.lt_or_gt_of_ne (away tag.outside) with front | behind
      · exact .inl front
      · exact .inr ⟨behind, opens⟩
    rw [same]
  · intro tag
    obtain ⟨cs, hcs⟩ := List.isPrefixOf_iff_prefix.1 tag.opens
    have opens : st.cursor.rest.head? = some '<' := hcs ▸ rfl
    have same : q.endName = st.endName := by
      refine congrArg String.ofList (names ?_)
      rcases Nat.lt_or_gt_of_ne (away tag.outside) with front | behind
      · refine .inl (Nat.lt_of_le_of_ne front fun next => ?_)
        -- Behind the `<` at the cursor is a `/`, and no `<`.
        have slash := congrArg (List.drop 1) (hcs.trans rest)
        rw [List.drop_drop, show st.cursor.offset + 1 = before.length from next, text_closingText,
          List.drop_left] at slash
        cases (List.cons.inj slash).1
      · exact .inr ⟨behind, opens⟩
    exact closeTag?_congr h.opened h.endName (congrArg looksLikeServerTag same)

end

/-! ### A literal tag and its closing tag -/

/-- In the letter case of `name'`, a closing tag of the name of a literal tag closes no structured
tag. -/
def StaysText (opened : List OpenTag) (name name' : String) : Prop :=
  looksLikeServerTag name' = false ∨ opened.filter OpenTag.isStructured = [] ∨
    structuredOpen opened name = true

/-- The move `m` over `closingText before name after` passes over a literal start tag of the name,
and the move `k` comes to the closing tag, with the tags open that were so behind the start tag. -/
structure LiteralPairAt (file : String) (before name after : List Char) (m k : Move) : Prop where
  tag : m.before.AtStartTag
  literal : m.before.startRole (.of file (closingText before name after)) = .literal
  filled : isVoidTag m.before.startName = false
  content : (inspectTag (.of file (closingText before name after))
    (m.before.cursor.skip (m.before.startName.length + 1))).selfClosing = false
  closing : k.before.AtEndTag
  place : k.before.cursor.offset = before.length
  named : m.before.startName = .ofList name
  whole : tagNameOf (name ++ after) = name
  balanced : k.before.opened = m.after.opened

instance (file : String) (before name after : List Char) (m k : Move) :
    Decidable (LiteralPairAt file before name after m k) :=
  decidable_of_iff
    (m.before.AtStartTag ∧
      m.before.startRole (.of file (closingText before name after)) = .literal ∧
      isVoidTag m.before.startName = false ∧
      (inspectTag (.of file (closingText before name after))
        (m.before.cursor.skip (m.before.startName.length + 1))).selfClosing = false ∧
      k.before.AtEndTag ∧ k.before.cursor.offset = before.length ∧
      m.before.startName = .ofList name ∧ tagNameOf (name ++ after) = name ∧
      k.before.opened = m.after.opened)
    ⟨fun ⟨tag, literal, filled, content, closing, place, named, whole, balanced⟩ =>
      ⟨tag, literal, filled, content, closing, place, named, whole, balanced⟩,
    fun pair => ⟨pair.tag, pair.literal, pair.filled, pair.content, pair.closing, pair.place,
      pair.named, pair.whole, pair.balanced⟩⟩

/-- In a run over the text, `m` and `k` are moves of such a pair. -/
structure LiteralPair (file : String) (before name after : List Char) (ms ns ks : List Move)
    (m k : Move) : Prop extends LiteralPairAt file before name after m k where
  run : movesOf file (closingText before name after) = ms ++ m :: (ns ++ k :: ks)

namespace LiteralPair

variable {file : String} {before name name' after : List Char} {ms ns ks : List Move} {m k : Move}
  (pair : LiteralPair file before name after ms ns ks m k)
include pair

theorem run_eq : movesOf file (closingText before name after) = (ms ++ m :: ns) ++ k :: ks := by
  rw [pair.run, List.append_assoc, List.cons_append]

theorem on : k.before.On (.of file (closingText before name after)) :=
  (goes_of_moves (on_start _) pair.run_eq).1

theorem backed : Backed k.before.opened :=
  @backed_of_moves _ (start _) _ _ _ trivial pair.run_eq

theorem endName : k.before.endName = .ofList name :=
  endName_of_closingText pair.on pair.place pair.whole

theorem not_capital : looksLikeServerTag (.ofList name) = false := by
  have literal := pair.literal
  rw [← pair.named]
  unfold startRole at literal
  split at literal
  · cases literal
  · next plain => exact (Bool.or_eq_false_iff.1 (by simpa using plain)).2

/-- If a structured tag of the name is open, the literal tag is the innermost one. -/
theorem exists_opened_eq (kept : structuredOpen k.before.opened (.ofList name) = true) :
    ∃ below, k.before.opened = ⟨.ofList name, .literal⟩ :: below := by
  obtain ⟨after, -⟩ := after_of_literal pair.run pair.tag pair.literal
  rw [pair.filled, afterLiteralTag_of_content pair.content, pair.named] at after
  rw [pair.balanced, after] at kept ⊢
  exact exists_keepOpen_eq kept

/-- The closing tag closes no structured tag. -/
theorem closes (role : TagRole) (rest : List OpenTag)
    (closed : closeTag? k.before.opened k.before.endName = some (role, rest)) :
    role = .literal := by
  rw [pair.endName] at closed
  by_cases kept : structuredOpen k.before.opened (.ofList name) = true
  · obtain ⟨below, opened⟩ := pair.exists_opened_eq kept
    simp only [closeTag?, opened, List.head?_cons, Option.any_some, sameName_refl, if_true,
      Option.map_some, Option.some.injEq, Prod.mk.injEq] at closed
    exact closed.1.symm
  · rw [pair.backed.closeTag?_eq_none (by simpa using kept) pair.not_capital] at closed
    cases closed

theorem tokens_eq : tokenize file (closingText before name after) =
    (ms ++ m :: ns).flatMap Move.tokens ++
      k.before.tokens (.of file (closingText before name after)) := by
  refine @tokens_eq_of_moves _ (start (.of file (closingText before name after))) _ _ ?_
  rw [moves_eq_of_append pair.run_eq]
  exact pair.run_eq

/-- In the original letter case the closing tag is text. -/
theorem exists_step : ∃ next,
    k.before.step (.of file (closingText before name after)) = ([], some next) ∧
      k.tokens = [] ∧ next.moves (.of file (closingText before name after)) = ks := by
  obtain ⟨next, hs, -⟩ :=
    pair.closing.exists_step (s := .of file (closingText before name after)) pair.closes
  have here := (moves_eq_of_append pair.run_eq).symm.trans (moves_of_step hs)
  obtain ⟨first, behind⟩ := List.cons.inj here
  exact ⟨next, hs, congrArg Move.tokens first, behind.symm⟩

/-- The original has no mark of the size of `</` at the closing tag. -/
theorem unmarked : ∀ t ∈ tokenize file (closingText before name after), t.kind = .tagOpenSlash →
    t.start = before.length → t.stop ≠ before.length + 2 := by
  obtain ⟨next, hs, -⟩ := pair.exists_step
  intro t ht mark start stop
  -- A token of the moves before ends at the closing tag, and a mark of those behind begins behind it.
  rw [pair.tokens_eq, tokens_of_step hs] at ht
  rcases List.mem_append.1 ht with ht | ht
  · have laid := laid_of_moves (on_start _) pair.run_eq none
    have := laid.stop_le t ht
    have := pair.on.text_le
    have := pair.place
    omega
  · rw [Option.map_some, Option.getD_some, List.nil_append, tokens_eq_flatMap_moves] at ht
    obtain ⟨j, hj, ht⟩ := List.mem_flatMap.1 ht
    have on := (goes_of_step hs).on pair.on
    have := start_of_opensMarkup on hj t ht (by rw [mark]; rfl)
    have := offset_le_of_mem_moves on hj
    have := offset_lt_of_step pair.on pair.closing.outside hs
    have := pair.place
    omega

section
variable (same : name'.map Char.toLower = name.map Char.toLower)
include same

/-- In the other letter case the lexer comes to the closing tag as well. -/
theorem exists_state : ∃ q ms',
    Recased (.of file (closingText before name after))
      (.of file (closingText before name' after)) k.before q ∧
    q.On (.of file (closingText before name' after)) ∧
    movesOf file (closingText before name' after) =
      ms' ++ q.moves (.of file (closingText before name' after)) ∧
    (ms'.flatMap Move.tokens).map Token.lowered =
      ((ms ++ m :: ns).flatMap Move.tokens).map Token.lowered := by
  have plain := (tagNameOf_append_iff.1 pair.whole).1
  refine (recased_start same).exists_of_moves (on_start _) pair.run_eq fun j hj q h onq => ?_
  have on := goes_of_mem_moves (on_start _) (pair.run_eq ▸ List.mem_append_left _ hj)
  refine h.sameTags on.1 onq plain (length_eq_of_recased same) fun outside => Nat.ne_of_lt ?_
  exact pair.place ▸ offset_lt_of_moves (on_start _) pair.run_eq hj outside

/-- Where the closing tag stays text, the letter case of its name is of no account. -/
theorem extents_of_staysText
    (stays : StaysText k.before.opened (.ofList name) (.ofList name')) :
    (tokenize file (closingText before name' after)).map Token.extent =
        (tokenize file (closingText before name after)).map Token.extent ∧
      ∃ k' ∈ movesOf file (closingText before name' after), k'.before.AtEndTag ∧
        k'.before.cursor.offset = before.length ∧ k'.tokens = [] ∧
        k'.after.structured = k'.before.structured := by
  obtain ⟨q, ms', h, onq, run, front⟩ := pair.exists_state same
  obtain ⟨next, hs, silent, behind⟩ := pair.exists_step
  have named : q.endName = .ofList name' :=
    endName_of_closingText onq (h.offset.trans pair.place) (tagNameOf_of_recased same pair.whole)
  -- The closing tag is the one place where the names may differ, but it closes the same there.
  have closes : (closeTag? q.opened q.endName).map loweredClosing =
      (closeTag? k.before.opened k.before.endName).map loweredClosing := by
    rw [named, pair.endName, closeTag?_congr h.opened rfl rfl]
    refine congrArg (Option.map loweredClosing) (closeTag?_eq_of_sameName ?_ ?_)
    · exact sameName_of_recased same
    rcases stays with plain | none | kept
    · exact .inl (plain.trans pair.not_capital.symm)
    · exact .inr (.inr none)
    · obtain ⟨below, opened⟩ := pair.exists_opened_eq kept
      exact .inr (.inl (by simp [opened]))
  have tags : k.before.SameTags q :=
    ⟨fun tag => absurd tag pair.closing.not_atStartTag, fun _ => closes⟩
  obtain ⟨ts, next', hs', tokens, h'⟩ := h.exists_step tags hs
  obtain rfl : ts = [] := by simpa using tokens
  have onNext := (goes_of_step hs).on pair.on
  have beyond : before.length < next.cursor.offset :=
    pair.place ▸ offset_lt_of_step pair.on pair.closing.outside hs
  constructor
  · have more := h'.tokens ((goes_of_step hs').on onq) fun j hj p hp onp =>
      hp.sameTags (goes_of_mem_moves onNext hj).1 onp (tagNameOf_append_iff.1 pair.whole).1
        (length_eq_of_recased same) fun _ =>
          Nat.ne_of_gt (Nat.lt_of_lt_of_le beyond (offset_le_of_mem_moves onNext hj))
    refine map_extent_of_lowered ?_
    rw [pair.tokens_eq, show tokenize file (closingText before name' after) = _ from
      tokens_eq_of_moves run, List.map_append, List.map_append, front, tokens_of_step hs,
      tokens_of_step hs']
    exact congrArg (List.map Token.lowered _ ++ ·) more
  · obtain ⟨next'', hs'', still⟩ := (h.atEndTag pair.closing).exists_step
      (s := .of file (closingText before name' after)) fun role rest closed => by
        rw [closed, Option.map_some] at closes
        obtain ⟨pair', closed', same'⟩ := Option.map_eq_some_iff.1 closes.symm
        have same : pair'.1 = role := (Prod.mk.inj same').1
        exact same.symm.trans (pair.closes pair'.1 pair'.2 closed')
    refine ⟨⟨q, [], next''⟩, ?_, h.atEndTag pair.closing, h.offset.trans pair.place, rfl, still⟩
    rw [run, moves_of_step hs'']
    simp

/-- Where the closing tag does not stay text it is taken apart. -/
theorem exists_mark (moves : ¬ StaysText k.before.opened (.ofList name) (.ofList name')) :
    ∃ t ∈ tokenize file (closingText before name' after), t.kind = .tagOpenSlash ∧
      t.start = before.length ∧ t.stop = before.length + 2 := by
  obtain ⟨q, ms', h, onq, run, -⟩ := pair.exists_state same
  rw [StaysText, not_or, not_or, Bool.not_eq_false, Bool.not_eq_true] at moves
  obtain ⟨capital, inner, alone⟩ := moves
  rw [← structuredOpen_eq_of_sameName (sameName_of_recased same)] at alone
  obtain ⟨role, rest, closed, taken⟩ := pair.backed.exists_closeTag? alone capital inner
  have closes := closeTag?_congr h.opened (Eq.refl (lowered (.ofList name'))) rfl
  rw [closed, Option.map_some, Option.map_eq_some_iff] at closes
  obtain ⟨⟨role', rest'⟩, closed', same'⟩ := closes
  obtain rfl : role' = role := (Prod.mk.inj same').1
  rw [← endName_of_closingText onq (h.offset.trans pair.place)
    (tagNameOf_of_recased same pair.whole)] at closed'
  have tag := h.atEndTag pair.closing
  obtain ⟨us, d, -, hs⟩ := tag.exists_step_taken
    (s := .of file (closingText before name' after)) closed' taken
  refine ⟨.whole .tagOpenSlash ((Source.of file (closingText before name' after)).excerpt
    q.cursor 2), ?_, rfl, h.offset.trans pair.place, ?_⟩
  · rw [show tokenize file (closingText before name' after) = _ from tokens_eq_of_moves run,
      tokens_of_step hs]
    simp [endTokens]
  · have wide : 2 ≤ q.cursor.rest.length := (List.isPrefixOf_iff_prefix.1 tag.opens).length_le
    change (q.cursor.skip 2).offset = before.length + 2
    rw [Cursor.offset_skip, Nat.min_eq_left wide, h.offset, pair.place]

end

end LiteralPair

/-- The tags of a literal element (`LiteralText`) are such a pair, wherever it stands and whatever
follows its closing name. -/
theorem exists_literalPair_of_literalText {file : String}
    {before name attrs inner after : List Char} {ms rest : List Move} {m : Move}
    (run : movesOf file (closingText before name after) = ms ++ m :: rest)
    (outside : m.before.raw = none) (named : LiteralName name)
    (filled : isVoidTag (.ofList name) = false) (attributes : TagAttributes attrs)
    (content : LiteralText inner) (ends : after.head?.any isTagNameChar = false)
    (opens : m.before.cursor.rest = '<' :: (name ++ (attrs ++ (tagEnding false ++
      (inner ++ '<' :: '/' :: (name ++ after)))))) :
    ∃ ns k ks, LiteralPair file before name after ms ns ks m k := by
  have backed : Backed m.before.opened := @backed_of_moves _ (start _) _ _ _ trivial run
  obtain ⟨tag, literal, spelled, shape⟩ := atStartTag_of_literalName
    (s := .of file (closingText before name after)) named attributes outside opens
  obtain ⟨behind, -, moves⟩ := after_of_literal run tag literal
  rw [shape, spelled, filled, afterLiteralTag_of_content rfl, String.length_ofList] at behind
  have rest' : m.after.cursor.rest = attrs ++ tagEnding false ++
      (inner ++ '<' :: '/' :: (name ++ after)) := by
    rw [behind]
    simp [opens]
  -- The lexer gathers the content up to the closing tag.
  have outside' : m.after.raw = none := by
    rw [behind]
    exact outside
  have backed' : Backed m.after.opened := by
    rw [behind]
    exact backed.kept
  obtain ⟨ns, -, run'⟩ := @LiteralText.gathers (.of file (closingText before name after)) _ content
    _ _ _ outside' backed' rest' (.inr rfl) (.inr (text_attributes attributes false rest'))
  obtain ⟨k, ks, first, place⟩ := exists_moves_eq_cons (.of file (closingText before name after))
    (m.after.addText (attrs ++ tagEnding false ++ inner).length)
  have rest'' : k.before.cursor.rest = '<' :: '/' :: (name ++ after) := by
    rw [place, cursor_addText, Cursor.rest_skip, rest', ← List.append_assoc, List.drop_left]
  have whole : movesOf file (closingText before name after) = ms ++ m :: (ns ++ k :: ks) := by
    rw [run, ← moves, run', first]
  have closing : k.before.AtEndTag := by
    refine ⟨?_, by simp [Cursor.sees, rest''], by rw [rest'']; exact named.head?_append _⟩
    rw [place]
    exact outside'
  have offset : k.before.cursor.offset = before.length := by
    have run'' : movesOf file (closingText before name after) = (ms ++ m :: ns) ++ k :: ks := by
      rw [whole, List.append_assoc, List.cons_append]
    have on := (goes_of_moves (on_start _) run'').1.cursor
    have size := on.length_rest
    have le := on.offset_le
    rw [text_closingText, List.length_append] at size le
    rw [rest''] at size
    omega
  refine ⟨ns, k, ks, ⟨tag, literal, by rwa [spelled], by rw [shape], closing, offset, spelled,
    tagNameOf_append_iff.2 ⟨named.chars, ends⟩, ?_⟩, whole⟩
  rw [place]
  rfl

/-- The moves of such a pair can be looked up in the run. -/
theorem exists_literalPair {file : String} {before name after : List Char} {i j : Nat}
    {p : Move → Move → Bool}
    (found : ((movesOf file (closingText before name after))[i]?.any fun m =>
      (movesOf file (closingText before name after))[i + 1 + j]?.any fun k =>
        decide (LiteralPairAt file before name after m k) && p m k) = true) :
    ∃ ms ns ks m k, LiteralPair file before name after ms ns ks m k ∧ p m k = true := by
  generalize run : movesOf file (closingText before name after) = l at found
  obtain ⟨m, hm, found⟩ := (Option.any_eq_true _ _).1 found
  obtain ⟨k, hk, found⟩ := (Option.any_eq_true _ _).1 found
  obtain ⟨pair, holds⟩ := Bool.and_eq_true_iff.1 found
  rw [← List.getElem?_drop] at hk
  obtain ⟨first, hm⟩ := List.getElem?_eq_some_iff.1 hm
  obtain ⟨second, hk⟩ := List.getElem?_eq_some_iff.1 hk
  refine ⟨l.take i, (l.drop (i + 1)).take j, (l.drop (i + 1)).drop (j + 1), m, k,
    ⟨of_decide_eq_true pair, ?_⟩, holds⟩
  rw [run, ← hk, ← List.drop_eq_getElem_cons second, List.take_append_drop, ← hm,
    ← List.drop_eq_getElem_cons first, List.take_append_drop]

/-- **The letter case of a literal closing tag is of no account exactly where the tag stays text.**
Where its name is capitalised and structured tags are open, but none of that name, it closes the
innermost of them instead; everywhere else it closes none. -/
theorem literalPair_recased_iff {file : String} {before name name' after : List Char}
    {ms ns ks : List Move} {m k : Move} (pair : LiteralPair file before name after ms ns ks m k)
    (same : name'.map Char.toLower = name.map Char.toLower) :
    ((tokenize file (closingText before name' after)).map Token.extent =
        (tokenize file (closingText before name after)).map Token.extent ↔
      StaysText k.before.opened (.ofList name) (.ofList name')) ∧
    (StaysText k.before.opened (.ofList name) (.ofList name') →
      ∃ k' ∈ movesOf file (closingText before name' after), k'.before.AtEndTag ∧
        k'.before.cursor.offset = before.length ∧ k'.tokens = [] ∧
        k'.after.structured = k'.before.structured) := by
  refine ⟨⟨fun extents => ?_, fun stays => (pair.extents_of_staysText same stays).1⟩,
    fun stays => (pair.extents_of_staysText same stays).2⟩
  by_contra moves
  obtain ⟨t, ht, kind, start, stop⟩ := pair.exists_mark same moves
  obtain ⟨u, hu, extent⟩ := List.mem_map.1 (extents ▸ List.mem_map_of_mem ht)
  obtain ⟨kind', span, -⟩ : u.kind = t.kind ∧ u.span = t.span ∧ _ := by
    simpa [Token.extent] using extent
  refine pair.unmarked u hu (kind'.trans kind) ?_ ?_
  · rw [Token.start, span]
    exact start
  · rw [Token.stop, span]
    exact stop

/-- A shouted closing tag is text where a server tag of that name is open: the tag that it closes
has been kept open. -/
theorem literalPair_recased_nested : ∃ ms ns ks m k,
    LiteralPair "page.aspx" "<p runat='server'><p>x".toList ['p'] "></p>".toList ms ns ks m k ∧
      (tokenize "page.aspx"
          (closingText "<p runat='server'><p>x".toList ['P'] "></p>".toList)).map Token.extent =
        (tokenize "page.aspx"
          (closingText "<p runat='server'><p>x".toList ['p'] "></p>".toList)).map Token.extent := by
  obtain ⟨ms, ns, ks, m, k, pair, nested⟩ := @exists_literalPair "page.aspx"
    "<p runat='server'><p>x".toList ['p'] "></p>".toList 1 1
    (fun _ k => structuredOpen k.before.opened "p") (by decide +kernel)
  exact ⟨ms, ns, ks, m, k, pair,
    (literalPair_recased_iff pair (by decide)).1.2 (.inr (.inr nested))⟩

/-- A shouted closing tag closes the server tag around it. -/
theorem closingCase_matters : ∃ ms ns ks m k,
    LiteralPair "page.aspx" "<Panel><b>x".toList ['b'] "></Panel>".toList ms ns ks m k ∧
      ['B'].map Char.toLower = ['b'].map Char.toLower ∧
      (tokenize "page.aspx"
          (closingText "<Panel><b>x".toList ['B'] "></Panel>".toList)).map Token.extent ≠
        (tokenize "page.aspx"
          (closingText "<Panel><b>x".toList ['b'] "></Panel>".toList)).map Token.extent := by
  obtain ⟨ms, ns, ks, m, k, pair, -⟩ := @exists_literalPair "page.aspx"
    "<Panel><b>x".toList ['b'] "></Panel>".toList 1 1 (fun _ _ => true) (by decide +kernel)
  exact ⟨ms, ns, ks, m, k, pair, by decide, by decide +kernel⟩

end ServerMarkup
