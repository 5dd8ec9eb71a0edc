/-
# What a step of the lexer does, as rules

`LexerState.step` reads one construct or some text.  `Takes` lists what it takes apart at its
cursor, `Goes` all that a step does: it gathers text, or emits the text gathered before and the
tokens of one construct or tag.  `goes_of_step` says that every step but the last keeps to these
rules; the last one (`eq_gathered_of_step`) emits what is left of the text.

A tag is taken apart unless its role is literal.  Its name is all that a tag name may hold from the
first character on, `startName` behind `<` and `endName` behind `</`.
-/

import ServerMarkup.Lexer.Tokens
import ServerMarkup.Proofs.Lexer.Reads
import ServerMarkup.Proofs.Source.LetterCase

namespace ServerMarkup

theorem take_length_tagNameOf (cs : List Char) : cs.take (tagNameOf cs).length = tagNameOf cs := by
  have h := List.takeWhile_prefix isTagNameChar (l := cs)
  exact (List.prefix_iff_eq_take.1 h).symm

/-- A tag name that begins with a letter holds it. -/
theorem tagNameOf_ne_nil {cs : List Char} (h : cs.head?.any isLetter = true) :
    tagNameOf cs ≠ [] := by
  cases cs with
  | nil => simp at h
  | cons c cs =>
    have hc : isLetter c = true := by simpa using h
    simp [tagNameOf, isTagNameChar, isAlphanumeric, hc]

theorem head?_of_prefix_cons {x : Char} {mark cs : List Char} (h : x :: mark <+: cs) :
    cs.head? = some x := by
  obtain ⟨rest, rfl⟩ := h
  rfl

/-- A word whose first character is no letter begins with it in any letter case. -/
theorem head?_of_namedAt {x : Char} {word cs : List Char} (other : x.isAlpha = false)
    (h : namedAt (x :: word) cs = true) : cs.head? = some x := by
  cases cs with
  | nil => cases h
  | cons c cs =>
    have same : c.toLower = x := by
      simp only [namedAt, Bool.and_eq_true, beq_iff_eq] at h
      exact h.1
    exact congrArg some ((toLower_eq_iff other).1 same)

/-- Whether a tag of the name has no content. -/
def isVoidTag (name : String) : Bool :=
  !name.toList.contains ':' && isVoidElement name

namespace LexerState

/-- The name of the start tag at the cursor. -/
def startName (st : LexerState) : String :=
  .ofList (tagNameOf (st.cursor.rest.drop 1))

/-- The name of the closing tag at the cursor. -/
def endName (st : LexerState) : String :=
  .ofList (tagNameOf (st.cursor.rest.drop 2))

/-- What the start tag at the cursor is to the lexer. -/
def startRole (s : Source) (st : LexerState) : TagRole :=
  if (inspectTag s (st.cursor.skip (st.startName.length + 1))).runat ||
      looksLikeServerTag st.startName then .server
  else if isStructuredTag st.startName then .structured
  else .literal

/-- A start tag begins at the cursor, outside the body of a script or style sheet. -/
structure AtStartTag (st : LexerState) : Prop where
  outside : st.raw = none
  opens : st.cursor.sees ['<'] = true
  letter : (st.cursor.rest.drop 1).head?.any isLetter = true

instance (st : LexerState) : Decidable st.AtStartTag :=
  decidable_of_iff (st.raw = none ∧ st.cursor.sees ['<'] = true ∧
      (st.cursor.rest.drop 1).head?.any isLetter = true)
    ⟨fun ⟨outside, opens, letter⟩ => ⟨outside, opens, letter⟩,
      fun tag => ⟨tag.outside, tag.opens, tag.letter⟩⟩

/-- A closing tag begins at the cursor, outside the body of a script or style sheet. -/
structure AtEndTag (st : LexerState) : Prop where
  outside : st.raw = none
  opens : st.cursor.sees ['<', '/'] = true
  letter : (st.cursor.rest.drop 2).head?.any isLetter = true

instance (st : LexerState) : Decidable st.AtEndTag :=
  decidable_of_iff (st.raw = none ∧ st.cursor.sees ['<', '/'] = true ∧
      (st.cursor.rest.drop 2).head?.any isLetter = true)
    ⟨fun ⟨outside, opens, letter⟩ => ⟨outside, opens, letter⟩,
      fun tag => ⟨tag.outside, tag.opens, tag.letter⟩⟩

/-- The first tokens of a start tag: the `<` and its name. -/
def startTokens (s : Source) (st : LexerState) : List Token :=
  .whole .tagOpen (s.excerpt st.cursor 1) ::
    nameTokens (s.excerpt (st.cursor.skip 1) st.startName.length)

/-- The first tokens of a closing tag: the `</` and its name. -/
def endTokens (s : Source) (st : LexerState) : List Token :=
  .whole .tagOpenSlash (s.excerpt st.cursor 2) ::
    nameTokens (s.excerpt (st.cursor.skip 2) st.endName.length)

/-- The state at the cursor `d`, with no text gathered. -/
def moved (st : LexerState) (d : Cursor) : LexerState :=
  { st with cursor := d, text := d }

/-- `Takes s st ts next`: outside the body of a script or style sheet, the lexer takes what begins
at its cursor apart into the tokens `ts`, and is in the state `next` after it. -/
inductive Takes (s : Source) (st : LexerState) : List Token → LexerState → Prop where
  | whole {kind size} (isWhole : kind = .comment ∨ kind = .docType) (sized : size ≠ 0)
      (within : size ≤ st.cursor.rest.length) (opens : st.cursor.rest.head? = some '<')
      (ends : (st.cursor.rest.take size).getLast? = some '>') :
      Takes s st [.whole kind (s.excerpt st.cursor size)] (st.moved (st.cursor.skip size))
  | construct {ts d} (inner : Reads s .construct st.cursor ts d) : Takes s st ts (st.moved d)
  | openingTag {ts d} (tag : st.AtStartTag) (role : st.startRole s ≠ .literal)
      (filled : isVoidTag st.startName = false)
      (inner : Reads s (.body .opened) (st.cursor.skip (st.startName.length + 1)) ts d) :
      Takes s st (st.startTokens s ++ ts) { st.moved d with
        opened := ⟨st.startName, st.startRole s⟩ :: st.opened
        raw := if isRawTextElement st.startName then some st.startName else none }
  | loneTag {ending ts d} (tag : st.AtStartTag) (role : st.startRole s ≠ .literal)
      (empty : ending = .opened → isVoidTag st.startName = true)
      (inner : Reads s (.body ending) (st.cursor.skip (st.startName.length + 1)) ts d) :
      Takes s st (st.startTokens s ++ ts) (st.moved d)
  | closingTag {role opened ts d} (tag : st.AtEndTag)
      (closes : closeTag? st.opened st.endName = some (role, opened))
      (taken : role ≠ .literal)
      (inner : Reads s .closing (st.cursor.skip (st.endName.length + 2)) ts d) :
      Takes s st (st.endTokens s ++ ts) { st.moved d with opened }

/-- `Goes s st ts next`: a step from `st` emits the tokens `ts` and comes to `next`. -/
inductive Goes (s : Source) (st : LexerState) : List Token → LexerState → Prop where
  | text (outside : st.raw = none) (plain : st.markup? s = none) :
      Goes s st [] (st.addText (textReach st.cursor.rest))
  | literalTag (tag : st.AtStartTag) (role : st.startRole s = .literal) :
      Goes s st [] (st.afterLiteralTag st.startName
        (inspectTag s (st.cursor.skip (st.startName.length + 1))) (isVoidTag st.startName)
        (st.startName.length + 1))
  | literalEnd {opened} (tag : st.AtEndTag)
      (closes : closeTag? st.opened st.endName = some (.literal, opened)) :
      Goes s st [] { st.addText (st.endName.length + 2) with opened }
  | rawEnd {tag} (inside : st.raw = some tag)
      (plain : s.construct? (st.cursor.skip (rawReach s tag st.cursor)).offset
        (st.cursor.skip (rawReach s tag st.cursor)).rest = none) :
      Goes s st [] { st.addText (rawReach s tag st.cursor) with raw := none }
  | rawConstruct {tag ts d} (inside : st.raw = some tag)
      (inner : Reads s .construct (st.cursor.skip (rawReach s tag st.cursor)) ts d) :
      Goes s st ((st.addText (rawReach s tag st.cursor)).gathered s ++ ts) (st.moved d)
  | taken {ts next} (outside : st.raw = none) (takes : Takes s st ts next) :
      Goes s st (st.gathered s ++ ts) next

variable {s : Source} {st next : LexerState} {ts : List Token}

theorem length_startName (st : LexerState) :
    (tagNameOf (st.cursor.rest.drop 1)).length = st.startName.length := by
  simp [startName]

theorem length_endName (st : LexerState) :
    (tagNameOf (st.cursor.rest.drop 2)).length = st.endName.length := by
  simp [endName]

theorem ofList_take_startName (st : LexerState) :
    String.ofList ((st.cursor.rest.drop 1).take st.startName.length) = st.startName := by
  rw [← length_startName, take_length_tagNameOf, startName]

theorem value_excerpt_endName (s : Source) (st : LexerState) :
    (s.excerpt (st.cursor.skip 2) st.endName.length).value = st.endName := by
  rw [← length_endName, Source.excerpt, Cursor.rest_skip, take_length_tagNameOf, endName]

/-- A construct of one kind of token goes from the cursor to behind its end mark. -/
theorem takes_of_enclosed? {kind : TokenKind} {lead : Nat} {m : EndMark}
    (hk : kind = .comment ∨ kind = .docType) (hl : lead ≤ st.cursor.rest.length)
    (opens : st.cursor.rest.head? = some '<') (h : st.enclosed? s kind lead m = some (ts, next)) :
    ∃ us, ts = st.gathered s ++ us ∧ Takes s st us next := by
  obtain ⟨n, hn, he⟩ := Option.map_eq_some_iff.1 h
  obtain ⟨rfl, rfl⟩ := Prod.mk.inj he
  have found : distance? m.chars (st.cursor.rest.drop lead) = some n := by
    unfold Source.ahead? at hn
    split at hn
    · cases hn
    · exact hn
  refine ⟨_, rfl, .whole hk ?_ ?_ opens ?_⟩
  · cases m <;> simp [EndMark.chars]
  · have := length_le_of_distance? found
    rw [List.length_drop] at this
    omega
  · have mark := prefix_drop_of_distance? found
    rw [List.drop_drop, List.prefix_iff_eq_take] at mark
    rw [List.take_add, ← mark]
    cases m <;> simp [EndMark.chars]

/-- The role of a start tag that is taken apart. -/
theorem startRole_of_taken
    (h : ((inspectTag s (st.cursor.skip (st.startName.length + 1))).runat ||
      looksLikeServerTag st.startName || isStructuredTag st.startName) = true) :
    st.startRole s = if (inspectTag s (st.cursor.skip (st.startName.length + 1))).runat ||
      looksLikeServerTag st.startName then .server else .structured := by
  unfold startRole
  split
  · rfl
  · next hs => rw [if_pos (by simpa [hs] using h)]

/-- A start tag is taken apart, or gathered up to the end of its name if its role is literal. -/
theorem goes_of_startTag (tag : st.AtStartTag)
    (h : st.startTag s (tagNameOf (st.cursor.rest.drop 1)).length = (ts, next)) :
    Goes s st ts next := by
  have body := reads_readTagBody s (st.cursor.skip (st.startName.length + 1))
  rw [length_startName, startTag, ofList_take_startName] at h
  dsimp only at h
  rw [← isVoidTag] at h
  split at h
  · next taken =>
    have hrole := startRole_of_taken taken
    have role : st.startRole s ≠ .literal := by
      rw [hrole]
      split <;> simp
    split at h
    · next filled =>
      obtain ⟨rfl, rfl⟩ := Prod.mk.inj h
      simp only [Bool.and_eq_true, decide_eq_true_eq, Bool.not_eq_true'] at filled
      have takes := Takes.openingTag tag role filled.2 (filled.1 ▸ body)
      rw [hrole] at takes
      exact .taken tag.outside takes
    · next empty =>
      obtain ⟨rfl, rfl⟩ := Prod.mk.inj h
      refine .taken tag.outside (.loneTag tag role (fun he => ?_) body)
      simpa [he] using empty
  · next plain =>
    obtain ⟨rfl, rfl⟩ := Prod.mk.inj h
    refine .literalTag tag ?_
    simp only [Bool.or_eq_true, not_or, Bool.not_eq_true] at plain
    simp [startRole, plain]

/-- A closing tag that closes a structured tag is taken apart, with its `>` if that comes next. -/
theorem closingTag?_of_taken {role : TagRole} {opened : List OpenTag}
    (closes : closeTag? st.opened st.endName = some (role, opened)) (taken : role ≠ .literal) :
    ∃ us d, Reads s .closing (st.cursor.skip (st.endName.length + 2)) us d ∧
      st.closingTag? s st.endName.length =
        some (st.gathered s ++ (st.endTokens s ++ us), { st.moved d with opened }) := by
  rw [closingTag?, value_excerpt_endName, closes]
  cases role with
  | literal => exact absurd rfl taken
  | structured | server =>
    dsimp only
    split
    · next closed => exact ⟨_, _, .closingEnd closed, rfl⟩
    · next unclosed =>
      refine ⟨_, _, .closingBare (by simpa using unclosed), ?_⟩
      rw [List.append_nil]
      rfl

/-- A closing tag is taken apart if it closes a structured one, and gathered if it closes a literal
one. -/
theorem goes_of_closingTag? (tag : st.AtEndTag)
    (h : st.closingTag? s (tagNameOf (st.cursor.rest.drop 2)).length = some (ts, next)) :
    Goes s st ts next := by
  rw [length_endName] at h
  cases hc : closeTag? st.opened st.endName with
  | none => simp [closingTag?, value_excerpt_endName, hc] at h
  | some closed =>
    obtain ⟨role, opened⟩ := closed
    by_cases hr : role = .literal
    · subst hr
      rw [closingTag?, value_excerpt_endName, hc] at h
      obtain ⟨rfl, rfl⟩ := Prod.mk.inj (Option.some.inj h)
      exact .literalEnd tag hc
    · obtain ⟨us, d, inner, hu⟩ := closingTag?_of_taken (s := s) hc hr
      obtain ⟨rfl, rfl⟩ := Prod.mk.inj (Option.some.inj (hu.symm.trans h))
      exact .taken tag.outside (.closingTag tag hc hr inner)

theorem goes_of_markup? (outside : st.raw = none) (h : st.markup? s = some (ts, next)) :
    Goes s st ts next := by
  unfold markup? at h
  dsimp only at h
  split at h
  · next sees =>
    have mark := List.isPrefixOf_iff_prefix.1 sees
    obtain ⟨us, rfl, takes⟩ := takes_of_enclosed? (.inl rfl) mark.length_le
      (head?_of_prefix_cons mark) h
    exact .taken outside takes
  split at h
  · obtain ⟨r, hr, he⟩ := Option.map_eq_some_iff.1 h
    obtain ⟨rfl, rfl⟩ := Prod.mk.inj he
    exact .taken outside (.construct (reads_readConstruct? hr))
  split at h
  · next named =>
    obtain ⟨us, rfl, takes⟩ := takes_of_enclosed? (.inr rfl) (Nat.zero_le _)
      (head?_of_namedAt (by decide) named) h
    exact .taken outside takes
  split at h
  · next sees =>
    split at h
    · next letter => exact goes_of_closingTag? ⟨outside, sees, letter⟩ h
    · simp at h
  split at h
  · next sees =>
    split at h
    · next letter => exact goes_of_startTag ⟨outside, sees, letter⟩ (Option.some.inj h)
    · simp at h
  · simp at h

/-- Every step but the last one keeps to the rules. -/
theorem goes_of_step (h : st.step s = (ts, some next)) : Goes s st ts next := by
  unfold step at h
  split at h
  · next tag inside =>
    obtain ⟨rfl, hn⟩ := Prod.mk.inj h
    obtain rfl := Option.some.inj hn
    split
    · next r hr => exact .rawConstruct inside (reads_readConstruct? hr)
    · next hr => exact .rawEnd inside (readConstruct?_eq_none_iff.1 hr)
  · next outside =>
    split at h
    · simp at h
    split at h
    · next us st' hm =>
      obtain ⟨rfl, hn⟩ := Prod.mk.inj h
      obtain rfl := Option.some.inj hn
      exact goes_of_markup? outside hm
    · next plain =>
      obtain ⟨rfl, hn⟩ := Prod.mk.inj h
      obtain rfl := Option.some.inj hn
      exact .text outside plain

/-- The last step is at the end of the text, and emits the text gathered before. -/
theorem eq_gathered_of_step (h : st.step s = (ts, none)) :
    st.raw = none ∧ st.cursor.rest = [] ∧ ts = st.gathered s := by
  unfold step at h
  split at h
  · cases congrArg Prod.snd h
  · next outside =>
    split at h
    · next atEnd => exact ⟨outside, atEnd, (Prod.mk.inj h).1.symm⟩
    · split at h <;> simp at h

/-- A body that is read to its end is followed by its closing tag, unless the source ends. -/
theorem closesRaw_rawReach {tag : String} {c : Cursor}
    (plain : s.construct? (c.skip (rawReach s tag c)).offset (c.skip (rawReach s tag c)).rest =
      none) :
    (c.skip (rawReach s tag c)).rest = [] ∨
      closesRaw tag (c.skip (rawReach s tag c)).rest = true := by
  have le : rawReach s tag c ≤ c.rest.length := reach_le _ _
  rcases Nat.lt_or_eq_of_le le with lt | eq
  · right
    have stop := stop_reach lt
    rw [Cursor.offset_skip, Nat.min_eq_left le, Cursor.rest_skip] at plain
    rw [← rawReach, plain] at stop
    simpa using stop
  · left
    rw [Cursor.rest_skip, eq, List.drop_length]

end LexerState
end ServerMarkup
