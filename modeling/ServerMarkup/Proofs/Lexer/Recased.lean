/-
# Letter case along a run

Two sources that differ in letter case only are cut into the same tokens, but for the letters of
their texts, as long as the lexer comes to no tag that means something else in the other letter
case. `Recased` says of two states that they differ in letter case only: a step preserves it if the
tags at the cursors mean the same (`Recased.step`), and so does a run (`Recased.tokens`).
-/

import ServerMarkup.Proofs.Lexer.LoweredStates

namespace ServerMarkup

open LexerState

/-- Two sources and two states in them that differ in letter case only. -/
structure Recased (s s' : Source) (st st' : LexerState) : Prop where
  source : s'.lowered = s.lowered
  state : st'.lowered = st.lowered

/-- The tags at the cursors of two states mean the same. -/
structure LexerState.SameTags (st st' : LexerState) : Prop where
  capital : st.AtStartTag → looksLikeServerTag st'.startName = looksLikeServerTag st.startName
  closes : st.AtEndTag → (closeTag? st'.opened st'.endName).map loweredClosing =
    (closeTag? st.opened st.endName).map loweredClosing

/-- What follows a step is the same if the open tags and the body are. -/
theorem LexerState.result_congr {r r' : List Token × LexerState}
    (same : loweredResult r' = loweredResult r) {opened opened' : List OpenTag}
    (ho : opened'.map OpenTag.lowered = opened.map OpenTag.lowered) {raw raw' : Option String}
    (hr : raw'.map ServerMarkup.lowered = raw.map ServerMarkup.lowered) :
    loweredResult (r'.1, { r'.2 with opened := opened', raw := raw' }) =
      loweredResult (r.1, { r.2 with opened, raw }) := by
  obtain ⟨tokens, next⟩ := Prod.mk.inj same
  refine congrArg₂ Prod.mk tokens ?_
  change (⟨r'.2.lowered.cursor, r'.2.lowered.text, opened'.map OpenTag.lowered,
    raw'.map ServerMarkup.lowered⟩ : LexerState) = _
  rw [next, ho, hr]
  rfl

namespace Recased

variable {s s' : Source} {st st' : LexerState} (h : Recased s s' st st')
include h

/-- The cursors differ in letter case only. -/
theorem cursor : st'.cursor.lowered = st.cursor.lowered :=
  congrArg LexerState.cursor h.state

/-- The texts behind the cursors differ in letter case only. -/
theorem rest : st'.cursor.rest.map Char.toLower = st.cursor.rest.map Char.toLower :=
  congrArg Cursor.rest h.cursor

/-- The cursors are at one offset. -/
theorem offset : st'.cursor.offset = st.cursor.offset := by
  rw [← Cursor.offset_lowered, h.cursor, Cursor.offset_lowered]

/-- What does not depend on letter case is the same of both texts. -/
theorem rest_congr {α : Type} {f : List Char → α} (blind : ∀ cs, f (cs.map Char.toLower) = f cs) :
    f st'.cursor.rest = f st.cursor.rest := by
  rw [← blind, h.rest, blind]

/-- The cursors see the same marks. -/
theorem sees {mark : List Char} (plain : mark.any Char.isAlpha = false) :
    st'.cursor.sees mark = st.cursor.sees mark :=
  h.rest_congr (isPrefixOf_map_toLower plain)

/-- A letter follows in both texts or in none. -/
theorem letter (n : Nat) : (st'.cursor.rest.drop n).head?.any isLetter =
    (st.cursor.rest.drop n).head?.any isLetter := by
  refine h.rest_congr (f := fun cs => (cs.drop n).head?.any isLetter) fun cs => ?_
  rw [← List.map_drop, List.head?_map, Option.any_map]
  exact congrArg ((cs.drop n).head?.any ·) (funext isLetter_toLower)

/-- Going on alike, the cursors differ in letter case only. -/
theorem skip (n : Nat) : (st'.cursor.skip n).lowered = (st.cursor.skip n).lowered := by
  rw [← Cursor.skip_lowered, h.cursor, Cursor.skip_lowered]

/-- The names of the start tags differ in letter case only. -/
theorem startName : lowered st'.startName = lowered st.startName := by
  rw [← startName_lowered, h.state, startName_lowered]

/-- The names of the closing tags differ in letter case only. -/
theorem endName : lowered st'.endName = lowered st.endName := by
  rw [← endName_lowered, h.state, endName_lowered]

/-- The names of the start tags are as long. -/
theorem length_startName : st'.startName.length = st.startName.length := by
  rw [← length_lowered, h.startName, length_lowered]

/-- The names of the closing tags are as long. -/
theorem length_endName : st'.endName.length = st.endName.length := by
  rw [← length_lowered, h.endName, length_lowered]

/-- The gathered texts differ in letter case only. -/
theorem gathered : (st'.gathered s').map Token.lowered = (st.gathered s).map Token.lowered := by
  rw [← gathered_lowered, h.source, h.state, gathered_lowered]

/-- The looks ahead over the tags come to the same. -/
theorem inspectTag (n : Nat) :
    ServerMarkup.inspectTag s' (st'.cursor.skip n) =
      ServerMarkup.inspectTag s (st.cursor.skip n) := by
  rw [← inspectTag_lowered, h.source, h.skip, inspectTag_lowered]

/-- Comments and document types end alike. -/
theorem enclosed? (kind : TokenKind) (lead : Nat) (m : EndMark) :
    (st'.enclosed? s' kind lead m).map loweredResult =
      (st.enclosed? s kind lead m).map loweredResult := by
  rw [← enclosed?_lowered, h.source, h.state, enclosed?_lowered]

/-- Constructs at the cursors are read alike. -/
theorem construct? :
    (st'.construct? s').map loweredResult = (st.construct? s).map loweredResult := by
  rw [← construct?_lowered, h.source, h.state, construct?_lowered]

/-- The tags of the raw bodies differ in letter case only. -/
theorem raw : st'.raw.map lowered = st.raw.map lowered :=
  congrArg LexerState.raw h.state

/-- The open tags differ in letter case only. -/
theorem opened : st'.opened.map OpenTag.lowered = st.opened.map OpenTag.lowered :=
  congrArg LexerState.opened h.state

/-- A closing tag stands at both cursors or at none. -/
theorem atEndTag (tag : st.AtEndTag) : st'.AtEndTag := by
  have outside := h.raw
  rw [tag.outside, Option.map_none, Option.map_eq_none_iff] at outside
  exact ⟨outside, (h.sees (by decide)).trans tag.opens, (h.letter 2).trans tag.letter⟩

/-! ### One step -/

/-- Readings of one part are the same. -/
theorem reads {part : Part} {n : Nat} {ts ts' : List Token} {d d' : Cursor}
    (inner : Reads s part (st.cursor.skip n) ts d)
    (inner' : Reads s' part (st'.cursor.skip n) ts' d')
    (plain : part.Plain) :
    ts'.map Token.lowered = ts.map Token.lowered ∧ d'.lowered = d.lowered := by
  have read := inner.lowered plain
  have read' := inner'.lowered plain
  rw [h.source, h.skip] at read'
  exact read.unique read'

/-- The attributes and the ends of the tags are read alike. -/
theorem tagBody (n : Nat) :
    (readTagBody s' (st'.cursor.skip n)).1.tokens.map Token.lowered =
        (readTagBody s (st.cursor.skip n)).1.tokens.map Token.lowered ∧
      (readTagBody s' (st'.cursor.skip n)).1.next.lowered =
        (readTagBody s (st.cursor.skip n)).1.next.lowered ∧
      (readTagBody s' (st'.cursor.skip n)).2 = (readTagBody s (st.cursor.skip n)).2 := by
  obtain ⟨read, ending⟩ := readTagBody_lowered s (st.cursor.skip n)
  obtain ⟨read', ending'⟩ := readTagBody_lowered s' (st'.cursor.skip n)
  rw [h.source, h.skip] at read' ending'
  obtain ⟨tokens, next⟩ := Prod.mk.inj (read'.symm.trans read)
  exact ⟨tokens, next, ending'.symm.trans ending⟩

/-- Emitting tokens that differ in letter case only comes to such states. -/
theorem emit {ts ts' : List Token} {d d' : Cursor}
    (tokens : ts'.map Token.lowered = ts.map Token.lowered) (next : d'.lowered = d.lowered) :
    loweredResult (st'.emit s' ts' d') = loweredResult (st.emit s ts d) := by
  rw [← emit_lowered, ← emit_lowered, h.source, h.state, tokens, next]

/-- Gathering text comes to states that differ in letter case only. -/
theorem text {n n' : Nat} (same : n' = n) :
    (st'.addText n').lowered = (st.addText n).lowered := by
  rw [← addText_lowered, h.state, same, addText_lowered]

/-- Closing tags that mean the same are read alike. -/
theorem closingTag? (closes : (closeTag? st'.opened st'.endName).map loweredClosing =
      (closeTag? st.opened st.endName).map loweredClosing) :
    (st'.closingTag? s' st'.endName.length).map loweredResult =
      (st.closingTag? s st.endName.length).map loweredResult := by
  cases closed : closeTag? st.opened st.endName with
  | none =>
    rw [closed, Option.map_none, Option.map_eq_none_iff] at closes
    rw [LexerState.closingTag?, LexerState.closingTag?, value_excerpt_endName,
      value_excerpt_endName, closed, closes]
  | some pair =>
    obtain ⟨role, opened⟩ := pair
    rw [closed, Option.map_some, Option.map_eq_some_iff] at closes
    obtain ⟨⟨role', opened'⟩, closed', same⟩ := closes
    obtain ⟨rfl, same⟩ : role' = role ∧ _ := Prod.mk.inj same
    by_cases literal : role' = .literal
    · subst literal
      rw [LexerState.closingTag?, LexerState.closingTag?, value_excerpt_endName,
        value_excerpt_endName, closed, closed']
      have gathered := congrArg (Prod.mk ([] : List Token))
        (h.text (congrArg (· + 2) h.length_endName))
      exact congrArg some (@result_congr ([], _) ([], _) gathered _ _ same _ _ h.raw)
    · obtain ⟨us, d, inner, hu⟩ := closingTag?_of_taken (s := s) closed literal
      obtain ⟨us', d', inner', hu'⟩ := closingTag?_of_taken (s := s') closed' literal
      rw [h.length_endName] at inner'
      obtain ⟨tokens, next⟩ := h.reads inner inner' trivial
      have ends : (st'.endTokens s').map Token.lowered = (st.endTokens s).map Token.lowered := by
        rw [← endTokens_lowered, h.source, h.state, endTokens_lowered]
      rw [hu, hu']
      refine congrArg some (result_congr (h.emit ?_ next) same h.raw)
      rw [List.map_append, List.map_append, ends, tokens]

/-- Start tags are read alike if both names or none are capitalised. -/
theorem startTag
    (capital : looksLikeServerTag st'.startName = looksLikeServerTag st.startName) :
    loweredResult (st'.startTag s' st'.startName.length) =
      loweredResult (st.startTag s st.startName.length) := by
  have void : isVoidTag st'.startName = isVoidTag st.startName := by
    rw [← isVoidTag_lowered, h.startName, isVoidTag_lowered]
  have structured : isStructuredTag st'.startName = isStructuredTag st.startName := by
    rw [isStructuredTag, ← nameIn_lowered, h.startName, nameIn_lowered, isStructuredTag]
  have raw : isRawTextElement st'.startName = isRawTextElement st.startName := by
    rw [isRawTextElement, ← nameIn_lowered, h.startName, nameIn_lowered, isRawTextElement]
  have first : (st'.startTokens s').map Token.lowered = (st.startTokens s).map Token.lowered := by
    rw [← startTokens_lowered, h.source, h.state, startTokens_lowered]
  obtain ⟨body, next, ending⟩ := h.tagBody (st.startName.length + 1)
  rw [LexerState.startTag, LexerState.startTag, ofList_take_startName, ofList_take_startName]
  dsimp only
  rw [← isVoidTag, ← isVoidTag, void, structured, raw, capital, h.length_startName, h.inspectTag,
    ending]
  have tokens :
      (st'.startTokens s' ++ (readTagBody s'
        (st'.cursor.skip (st.startName.length + 1))).1.tokens).map Token.lowered =
      (st.startTokens s ++ (readTagBody s
        (st.cursor.skip (st.startName.length + 1))).1.tokens).map Token.lowered := by
    rw [List.map_append, List.map_append, first, body]
  rw [startTokens, startTokens, h.length_startName] at tokens
  have emits := h.emit tokens next
  split
  · split
    · refine result_congr emits ?_ ?_
      · rw [List.map_cons, List.map_cons, h.opened, OpenTag.lowered, h.startName]
        rfl
      · split
        · exact congrArg some h.startName
        · rfl
    · exact emits
  · refine congrArg (fun st : LexerState => ([], st)) ?_
    rw [← afterLiteralTag_lowered, ← afterLiteralTag_lowered, h.state, h.startName]

/-- Markup at the cursors is read alike if the tags mean the same. -/
theorem markup? (tags : st.SameTags st') (outside : st.raw = none) :
    (st'.markup? s').map loweredResult = (st.markup? s).map loweredResult := by
  have doctype := h.rest_congr (namedAt_map_toLower ['<', '!', 'd', 'o', 'c', 't', 'y', 'p', 'e'])
  rw [LexerState.markup?, LexerState.markup?, h.sees (by decide), h.sees (by decide), doctype,
    h.sees (by decide), h.sees (by decide), h.letter, h.letter, LexerState.length_endName,
    LexerState.length_endName, LexerState.length_startName, LexerState.length_startName]
  split
  · exact h.enclosed? .comment 4 .comment
  split
  · exact h.construct?
  split
  · exact h.enclosed? .docType 0 .docType
  split
  · next opens =>
    split
    · next letter => exact h.closingTag? (tags.closes ⟨outside, opens, letter⟩)
    · rfl
  split
  · next opens =>
    split
    · next letter => exact congrArg some (h.startTag (tags.capital ⟨outside, opens, letter⟩))
    · rfl
  · rfl

/-- Steps in raw bodies are alike. -/
theorem rawStep {tag tag' : String} (same : lowered tag' = lowered tag) :
    loweredResult (LexerState.rawStep s' tag' st') =
      loweredResult (LexerState.rawStep s tag st) := by
  rw [← rawStep_lowered, h.source, h.state, same, rawStep_lowered]

/-- **A step comes to the same in either letter case**, if the tags at the cursors mean the same. -/
theorem step (tags : st.SameTags st') :
    (st'.step s').1.map Token.lowered = (st.step s).1.map Token.lowered ∧
      (st'.step s').2.map LexerState.lowered = (st.step s).2.map LexerState.lowered := by
  have body := h.raw
  rw [LexerState.step, LexerState.step]
  cases inside : st.raw with
  | some tag =>
    rw [inside, Option.map_some, Option.map_eq_some_iff] at body
    obtain ⟨tag', inside', same⟩ := body
    rw [inside']
    obtain ⟨tokens, next⟩ := Prod.mk.inj (h.rawStep same)
    exact ⟨tokens, congrArg some next⟩
  | none =>
    rw [inside, Option.map_none, Option.map_eq_none_iff] at body
    rw [body]
    dsimp only
    have ends : st'.cursor.rest = [] ↔ st.cursor.rest = [] := by
      rw [← List.map_eq_nil_iff (f := Char.toLower), h.rest, List.map_eq_nil_iff]
    have markup := h.markup? tags inside
    by_cases atEnd : st.cursor.rest = []
    · rw [if_pos atEnd, if_pos (ends.2 atEnd)]
      exact ⟨h.gathered, rfl⟩
    rw [if_neg atEnd, if_neg (mt ends.1 atEnd)]
    cases found : st.markup? s with
    | none =>
      rw [found, Option.map_none, Option.map_eq_none_iff] at markup
      rw [markup]
      exact ⟨rfl, congrArg some (h.text (h.rest_congr textReach_map_toLower))⟩
    | some result =>
      rw [found, Option.map_some, Option.map_eq_some_iff] at markup
      obtain ⟨result', found', same⟩ := markup
      rw [found']
      obtain ⟨tokens, next⟩ := Prod.mk.inj same
      exact ⟨tokens, congrArg some next⟩

/-- If one state has a step, so has the other, to a state that differs in letter case only. -/
theorem exists_step {ts : List Token} {next : LexerState} (tags : st.SameTags st')
    (hs : st.step s = (ts, some next)) : ∃ ts' next', st'.step s' = (ts', some next') ∧
      ts'.map Token.lowered = ts.map Token.lowered ∧ Recased s s' next next' := by
  obtain ⟨tokens, after⟩ := h.step tags
  rw [hs] at tokens after
  rw [Option.map_some, Option.map_eq_some_iff] at after
  obtain ⟨next', hn, same⟩ := after
  exact ⟨_, next', Prod.ext rfl hn, tokens, h.source, same⟩

/-! ### Runs -/

/-- A run comes to the same states in either letter case, as long as the tags on its way mean the
same. -/
theorem exists_of_moves {ms ns : List Move} {m : Move} (on : st'.On s')
    (run : st.moves s = ms ++ m :: ns)
    (tags : ∀ k ∈ ms, ∀ q, Recased s s' k.before q → q.On s' → k.before.SameTags q) :
    ∃ q ms', Recased s s' m.before q ∧ q.On s' ∧ st'.moves s' = ms' ++ q.moves s' ∧
      (ms'.flatMap Move.tokens).map Token.lowered = (ms.flatMap Move.tokens).map Token.lowered := by
  induction ms generalizing st st' with
  | nil =>
    obtain ⟨n, _, first, rfl⟩ := exists_moves_eq_cons s st
    obtain ⟨rfl, -⟩ := List.cons.inj (first.symm.trans run)
    exact ⟨st', [], h, on, rfl, rfl⟩
  | cons n ms ih =>
    rw [moves, List.cons_append] at run
    split at run
    · have := (List.cons.inj run).2
      simp at this
    · next ts next hs =>
      obtain ⟨rfl, tail⟩ := List.cons.inj run
      obtain ⟨here, later⟩ := List.forall_mem_cons.1 tags
      obtain ⟨ts', next', hs', tokens, h'⟩ := h.exists_step (here st' h on) hs
      obtain ⟨q, ms', hq, onq, split, same⟩ := ih h' ((goes_of_step hs').on on) tail later
      refine ⟨q, ⟨st', ts', next'⟩ :: ms', hq, onq, ?_, ?_⟩
      · rw [moves_of_step hs', split, List.cons_append]
      · rw [List.flatMap_cons, List.flatMap_cons, List.map_append, List.map_append, tokens, same]

/-- **A run emits the same in either letter case**, if all tags on its way mean the same. -/
theorem tokens (on : st'.On s')
    (tags : ∀ k ∈ st.moves s, ∀ q, Recased s s' k.before q → q.On s' → k.before.SameTags q) :
    (st'.tokens s').map Token.lowered = (st.tokens s).map Token.lowered := by
  fun_induction moves s st generalizing st' with
  | case1 st ts hs =>
    obtain ⟨tokens, after⟩ := h.step (List.forall_mem_singleton.1 tags st' h on)
    rw [hs] at tokens after
    rw [Option.map_none, Option.map_eq_none_iff] at after
    have hs' : st'.step s' = ((st'.step s').1, none) := Prod.ext rfl after
    rw [tokens_of_step hs, tokens_of_step hs']
    simpa using tokens
  | case2 st ts next hs ih =>
    obtain ⟨here, later⟩ := List.forall_mem_cons.1 tags
    obtain ⟨ts', next', hs', tokens, h'⟩ := h.exists_step (here st' h on) hs
    have more := ih h' ((goes_of_step hs').on on) later
    rw [tokens_of_step hs, tokens_of_step hs', List.map_append, List.map_append, tokens]
    exact congrArg (_ ++ ·) more

end Recased

end ServerMarkup
