/-
# The lexer between two steps

Outside tags every character belongs to a token: what is no construct is text, and text is gathered
until something else comes.  Besides its place the lexer keeps where the gathered text begins, the
open tags, and whether it is in the body of a script or a style sheet.

The open tags decide which closing tags are taken apart (`closeTag?`).  A tag that is taken apart is
*structured*, and a structured tag meant for the server is a *server* tag; a *literal* tag is text,
and is kept only while a structured tag of its name is open, so that its closing tag is text too.
`step` reads one construct, or text up to the next `<`; `measure_step` says that each step but the
last one comes closer to the end.
-/

import ServerMarkup.Lexer.Tag

namespace ServerMarkup

/-- What an open tag is to the lexer. -/
inductive TagRole where
  | literal
  | structured
  | server
deriving DecidableEq, Repr

/-- A tag whose closing tag has not been met. -/
structure OpenTag where
  name : String
  role : TagRole
deriving DecidableEq, Repr

namespace OpenTag

/-- Whether the tag has been taken apart. -/
def isStructured (t : OpenTag) : Bool :=
  t.role != .literal

end OpenTag

/-- How a closing tag is read among the open tags, innermost first: as a literal tag or as a
structured one, and what stays open.  It closes the innermost tag if that has its name; if it can
only be meant for a server tag, it closes the innermost structured tag and all in it; else it is
no tag at all. -/
def closeTag? (opened : List OpenTag) (name : String) : Option (TagRole × List OpenTag) :=
  let onTop := opened.head?.any (sameName ·.name name)
  if onTop then opened.head?.map fun t => (t.role, opened.tail)
  else if looksLikeServerTag name ||
      opened.any (fun t => t.role == .server && sameName t.name name) then
    match opened.dropWhile (! ·.isStructured) with
    | [] => none
    | t :: rest => some (t.role, rest)
  else none

/-- The lexer between two steps: its place, where the gathered text begins, the open tags
(innermost first), and the tag whose body is being read as text. -/
structure LexerState where
  cursor : Cursor
  text : Cursor
  opened : List OpenTag
  raw : Option String
deriving DecidableEq, Repr

namespace LexerState

/-- The state before the first character. -/
def start (s : Source) : LexerState :=
  ⟨s.begin, s.begin, [], none⟩

/-- The text gathered so far, as one token unless there is none. -/
def gathered (s : Source) (st : LexerState) : List Token :=
  if st.text.offset < st.cursor.offset then
    [.whole .text (s.excerpt st.text (st.cursor.offset - st.text.offset))]
  else []

/-- The state after `n` more characters of text. -/
def addText (st : LexerState) (n : Nat) : LexerState :=
  { st with cursor := st.cursor.skip n }

/-- The gathered text and then the tokens up to the cursor `next`. -/
def emit (s : Source) (st : LexerState) (ts : List Token) (next : Cursor) :
    List Token × LexerState :=
  (st.gathered s ++ ts, { st with cursor := next, text := next })

/-- The number of steps that can be left, at most. -/
def measure (st : LexerState) : Nat :=
  2 * st.cursor.rest.length + (if st.raw.isSome then 1 else 0)

/-- A construct that is one token, if its end mark follows: `lead` characters come before what is
searched for the mark. -/
def enclosed? (s : Source) (st : LexerState) (kind : TokenKind) (lead : Nat) (m : EndMark) :
    Option (List Token × LexerState) :=
  (s.ahead? m (st.cursor.offset + lead) (st.cursor.rest.drop lead)).map fun n =>
    let size := lead + n + m.chars.length
    st.emit s [.whole kind (s.excerpt st.cursor size)] (st.cursor.skip size)

/-- The state after a start tag that is text: it is kept open only if it can have content and lies
in a structured tag of its name. -/
def afterLiteralTag (st : LexerState) (name : String) (shape : TagShape) (void : Bool) (n : Nat) :
    LexerState :=
  let nested := !shape.selfClosing && !void &&
    st.opened.any fun t => t.isStructured && sameName t.name name
  { st.addText n with opened := if nested then ⟨name, .literal⟩ :: st.opened else st.opened }

/-- A start tag, whose name of `n` characters follows the `<` at the cursor. -/
def startTag (s : Source) (st : LexerState) (n : Nat) : List Token × LexerState :=
  let name := String.ofList ((st.cursor.rest.drop 1).take n)
  let shape := inspectTag s (st.cursor.skip (n + 1))
  let void := !name.toList.contains ':' && isVoidElement name
  let server := shape.runat || looksLikeServerTag name
  if server || isStructuredTag name then
    let (body, ending) := readTagBody s (st.cursor.skip (n + 1))
    let ts := .whole .tagOpen (s.excerpt st.cursor 1) ::
      nameTokens (s.excerpt (st.cursor.skip 1) n) ++ body.tokens
    let (ts, next) := st.emit s ts body.next
    if ending = .opened && !void then
      (ts, { next with
        opened := ⟨name, if server then .server else .structured⟩ :: st.opened
        raw := if isRawTextElement name then some name else none })
    else (ts, next)
  else ([], st.afterLiteralTag name shape void (n + 1))

/-- A closing tag, whose name of `n` characters follows the `</` at the cursor, unless it closes
nothing. -/
def closingTag? (s : Source) (st : LexerState) (n : Nat) : Option (List Token × LexerState) :=
  let name := s.excerpt (st.cursor.skip 2) n
  match closeTag? st.opened name.value with
  | none => none
  | some (.literal, opened) => some ([], { st.addText (n + 2) with opened })
  | some (_, opened) =>
    let after := (st.cursor.skip (n + 2)).skipBlanks
    let ts := .whole .tagOpenSlash (s.excerpt st.cursor 2) :: nameTokens name
    let (ts, next) :=
      if after.sees ['>'] then
        st.emit s (ts ++ [.whole .tagClose (s.excerpt after 1)]) (after.skip 1)
      else st.emit s ts after
    some (ts, { next with opened })

/-- The construct or the tag at the cursor, if there is one that is complete. -/
def markup? (s : Source) (st : LexerState) : Option (List Token × LexerState) :=
  let rest := st.cursor.rest
  if st.cursor.sees ['<', '!', '-', '-'] then st.enclosed? s .comment 4 .comment
  else if st.cursor.sees ['<', '%'] then
    (readConstruct? s st.cursor).map fun r => st.emit s r.tokens r.next
  else if namedAt ['<', '!', 'd', 'o', 'c', 't', 'y', 'p', 'e'] rest then
    st.enclosed? s .docType 0 .docType
  else if st.cursor.sees ['<', '/'] then
    if (rest.drop 2).head?.any isLetter then st.closingTag? s (tagNameOf (rest.drop 2)).length
    else none
  else if st.cursor.sees ['<'] then
    if (rest.drop 1).head?.any isLetter then some (st.startTag s (tagNameOf (rest.drop 1)).length)
    else none
  else none

/-- Whether the text begins with the closing tag of `tag`. -/
def closesRaw (tag : String) : List Char → Bool
  | '<' :: '/' :: cs => !(tagNameOf cs).isEmpty && sameName (String.ofList (tagNameOf cs)) tag
  | _ => false

/-- How far the text of a script or style body reaches: to its closing tag, a complete construct,
or the end. -/
def rawReach (s : Source) (tag : String) (c : Cursor) : Nat :=
  reach (fun i cs => closesRaw tag cs || (s.construct? (c.offset + i) cs).isSome) c.rest

/-- One step in the body of `tag`: text and the construct after it, or the end of the body. -/
def rawStep (s : Source) (tag : String) (st : LexerState) : List Token × LexerState :=
  let st := st.addText (rawReach s tag st.cursor)
  match readConstruct? s st.cursor with
  | some r => st.emit s r.tokens r.next
  | none => ([], { st with raw := none })

/-- How many characters are text if the cursor stands before none that is markup: the first one,
and all up to the next `<`. -/
def textReach : List Char → Nat
  | [] => 0
  | _ :: cs => 1 + (cs.takeWhile (· != '<')).length

/-- One construct, or text up to the next `<`; at the end of the source, the gathered text. -/
def step (s : Source) (st : LexerState) : List Token × Option LexerState :=
  match st.raw with
  | some tag => (rawStep s tag st).map id some
  | none =>
    if st.cursor.rest = [] then (st.gathered s, none)
    else match st.markup? s with
      | some (ts, next) => (ts, some next)
      | none => ([], some (st.addText (textReach st.cursor.rest)))

/-! ### Each step comes closer to the end -/

@[simp] theorem cursor_addText (st : LexerState) (n : Nat) :
    (st.addText n).cursor = st.cursor.skip n := rfl

@[simp] theorem cursor_emit (s : Source) (st : LexerState) (ts : List Token) (next : Cursor) :
    (st.emit s ts next).2.cursor = next := rfl

theorem length_rest_of_enclosed? {s : Source} {st st' : LexerState} {kind : TokenKind} {lead : Nat}
    {m : EndMark} {ts : List Token} (h : st.enclosed? s kind lead m = some (ts, st'))
    (hr : st.cursor.rest ≠ []) : st'.cursor.rest.length < st.cursor.rest.length := by
  have := List.length_pos_iff.2 hr
  obtain ⟨n, _, hn⟩ := Option.map_eq_some_iff.1 h
  obtain rfl := congrArg Prod.snd hn
  have : 0 < m.chars.length := by cases m <;> simp [EndMark.chars]
  simp only [cursor_emit, Cursor.length_rest_skip]
  omega

theorem length_rest_startTag (s : Source) (st : LexerState) (n : Nat) (hr : st.cursor.rest ≠ []) :
    (st.startTag s n).2.cursor.rest.length < st.cursor.rest.length := by
  have := List.length_pos_iff.2 hr
  have body := (readTagBody s (st.cursor.skip (n + 1))).1.shorter
  have skipped := st.cursor.length_rest_skip (n + 1)
  unfold startTag
  dsimp only
  split
  · split <;> simp only [cursor_emit] <;> omega
  · simp only [afterLiteralTag, cursor_addText, Cursor.length_rest_skip]
    omega

theorem length_rest_of_closingTag? {s : Source} {st st' : LexerState} {n : Nat} {ts : List Token}
    (h : st.closingTag? s n = some (ts, st')) (hr : st.cursor.rest ≠ []) :
    st'.cursor.rest.length < st.cursor.rest.length := by
  have := List.length_pos_iff.2 hr
  unfold closingTag? at h
  dsimp only at h
  split at h
  · simp at h
  · obtain rfl := congrArg Prod.snd (Option.some.inj h)
    simp only [cursor_addText, Cursor.length_rest_skip]
    omega
  · obtain rfl := congrArg Prod.snd (Option.some.inj h)
    have blanks := (st.cursor.skip (n + 2)).length_rest_skipBlanks_le
    rw [Cursor.length_rest_skip] at blanks
    split <;> simp only [cursor_emit, Cursor.length_rest_skip] <;> omega

/-- Markup takes at least one character. -/
theorem length_rest_of_markup? {s : Source} {st st' : LexerState} {ts : List Token}
    (h : st.markup? s = some (ts, st')) (hr : st.cursor.rest ≠ []) :
    st'.cursor.rest.length < st.cursor.rest.length := by
  unfold markup? at h
  dsimp only at h
  split at h
  · exact length_rest_of_enclosed? h hr
  split at h
  · obtain ⟨r, _, hn⟩ := Option.map_eq_some_iff.1 h
    obtain rfl := congrArg Prod.snd hn
    exact r.shorter
  split at h
  · exact length_rest_of_enclosed? h hr
  split at h
  · split at h
    · exact length_rest_of_closingTag? h hr
    · simp at h
  split at h
  · split at h
    · obtain rfl := congrArg Prod.snd (Option.some.inj h)
      exact length_rest_startTag s st _ hr
    · simp at h
  · simp at h

/-- A step in a raw body comes closer to the end of the text or leaves the body. -/
theorem measure_rawStep {s : Source} {st : LexerState} {tag : String} (hr : st.raw = some tag) :
    (rawStep s tag st).2.measure < st.measure := by
  have skipped := st.cursor.length_rest_skip (rawReach s tag st.cursor)
  unfold rawStep
  dsimp only
  cases readConstruct? s (st.addText (rawReach s tag st.cursor)).cursor with
  | none =>
    simp only [measure, addText, hr, Option.isSome_some, Option.isSome_none, if_true,
      Bool.false_eq_true, if_false]
    omega
  | some r =>
    have := r.shorter
    simp only [cursor_addText] at this
    simp only [measure, emit, addText, hr, Option.isSome_some, if_true]
    omega

/-- Every step but the last one comes closer to the end. -/
theorem measure_step {s : Source} {st st' : LexerState} {ts : List Token}
    (h : st.step s = (ts, some st')) : st'.measure < st.measure := by
  unfold step at h
  split at h
  · next tag hr =>
    obtain rfl := Option.some.inj (congrArg Prod.snd h)
    exact measure_rawStep hr
  · next hr =>
    split at h
    · simp at h
    · next he =>
      have := List.length_pos_iff.2 he
      split at h
      · next hm =>
        obtain rfl := Option.some.inj (congrArg Prod.snd h)
        have := length_rest_of_markup? hm he
        unfold measure
        split <;> omega
      · obtain rfl := Option.some.inj (congrArg Prod.snd h)
        have reach : 0 < textReach st.cursor.rest := by
          cases hc : st.cursor.rest with
          | nil => exact absurd hc he
          | cons c cs => simp only [textReach]; omega
        unfold measure
        simp only [Cursor.length_rest_skip, addText, hr]
        split <;> omega

end LexerState

end ServerMarkup
