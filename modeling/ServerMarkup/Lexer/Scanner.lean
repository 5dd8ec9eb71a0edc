/-
# The lexer, search by search

The readers of a source look their answers up in its horizons, and each of them says why it ends.
Here the lexer is written down once more with neither: its loops go on a character or a construct
at a time, and every look ahead is a search with a memory.

| reader | loop |
| --- | --- |
| `scanDirective` | over the attributes of a directive |
| `scanQuoted` | over the characters and constructs of a quoted value |
| `scanTagBody` | over the attributes and constructs of a tag |
| `scanShape` | over the characters and code blocks in front of a tag's end |
| `scanRaw` | over the characters and constructs of a script or style body |

No loop has a reason to end.  A reader is told how many turns it may take, and each turn of a loop
and each call leaves one less; without turns there is no result.  So a loop that does not come
forward has none, however many turns it may take.

Where a construct may stand in something else, the lexer asks first whether its end mark follows
(`completes`) and then reads it, which searches again; the second answer is taken for granted.

A `Scanner` is such a lexer with the tokens that have been read and not taken.
-/

import ServerMarkup.Lexer.Searching
import ServerMarkup.Lexer.Tokens

namespace ServerMarkup

/-- How many characters of an opening come before what is searched for its end mark. -/
def Opening.lead : Opening → Nat
  | .comment => 4
  | _ => 2

/-- Whether a construct begins at the cursor and its end mark follows. -/
def completes (s : Source) (c : Cursor) : Scan Bool :=
  match Opening.of? c.rest with
  | none => return false
  | some o => return (← find s o.endMark (c.offset + o.lead)).isSome

mutual

/-- The tokens of the construct at the cursor, and the cursor behind it. -/
def scanConstruct? (s : Source) (c : Cursor) : Nat → Scan (Option (List Token × Cursor))
  | 0 => .out
  | turns + 1 =>
    match Opening.of? c.rest with
    | none => return none
    | some o => do
      match ← find s o.endMark (c.offset + o.lead) with
      | none => return none
      | some i =>
        match o with
        | .comment =>
          let size := i + 4 - c.offset
          return some ([⟨.serverComment, s.span c size, s.excerpt (c.skip 4) (size - 8)⟩],
            c.skip size)
        | .directive =>
          let (ts, d) ← scanDirective s (c.skip 3) turns
          return some (.whole .startDirective (s.excerpt c 3) :: ts, d)
        | .code kind =>
          let width := (Opening.code kind).width
          let size := i + 2 - c.offset
          return some ([⟨.code kind, s.span c size,
            (s.excerpt (c.skip width) (size - width - 2)).trim⟩], c.skip size)

/-- The attributes of a directive and its end. -/
def scanDirective (s : Source) (c : Cursor) : Nat → Scan (List Token × Cursor)
  | 0 => .out
  | turns + 1 =>
    if c.skipBlanks.rest = [] then return ([], c.skipBlanks)
    else if c.skipBlanks.sees ['%', '>'] then
      return ([.whole .endDirective (s.excerpt c.skipBlanks 2)], c.skipBlanks.skip 2)
    else do
      match ← scanAttribute? s .directive c.skipBlanks turns with
      | some (ts, d) =>
        let (us, e) ← scanDirective s d turns
        return (ts ++ us, e)
      | none => scanDirective s (c.skipBlanks.skip 1) turns

/-- An attribute name and, after `=`, its value. -/
def scanAttribute? (s : Source) (place : Place) (c : Cursor) :
    Nat → Scan (Option (List Token × Cursor))
  | 0 => .out
  | turns + 1 =>
    if nameReach place c = 0 then return none
    else
      let name := Token.whole .attribute (s.excerpt c (nameReach place c))
      if (afterName place c).rest.head? = some '=' then
        let d := afterEquals (afterName place c)
        match quote? d.rest with
        | some q => do
          let (ts, e) ← scanQuoted s q false (d.skip 1) (d.skip 1) turns
          return some (name :: ts, e)
        | none =>
          let m := valueReach place d
          return some ([name, .whole .attributeValue (s.excerpt d m)], d.skip m)
      else return some ([name], afterName place c)

/-- A quoted value from the cursor on, where a fragment of it has begun at `start`; `split` says
whether a construct has been met before. -/
def scanQuoted (s : Source) (quote : Char) (split : Bool) (start c : Cursor) :
    Nat → Scan (List Token × Cursor)
  | 0 => .out
  | turns + 1 =>
    let fragment := Token.whole .attributeValue (s.excerpt start (c.offset - start.offset))
    if c.rest.head?.all (· == quote) then
      return (if start.offset < c.offset || !split then [fragment] else [], c.skip 1)
    else do
      if ← completes s c then
        let (ts, d) := (← scanConstruct? s c turns).getD ([], c)
        let (us, e) ← scanQuoted s quote true d d turns
        return ((if start.offset < c.offset then [fragment] else []) ++ ts ++ us, e)
      else scanQuoted s quote split start (c.skip 1) turns

end

/-- The attributes and constructs of a start tag and its end, and how it ends. -/
def scanTagBody (s : Source) (c : Cursor) : Nat → Scan ((List Token × Cursor) × TagEnd)
  | 0 => .out
  | turns + 1 =>
    if c.skipBlanks.rest = [] then return (([], c.skipBlanks), .cut)
    else if c.skipBlanks.sees ['>'] then
      return (([.whole .tagClose (s.excerpt c.skipBlanks 1)], c.skipBlanks.skip 1), .opened)
    else if c.skipBlanks.sees ['/', '>'] then
      return (([.whole .tagSlashClose (s.excerpt c.skipBlanks 2)], c.skipBlanks.skip 2),
        .selfClosed)
    else do
      if ← completes s c.skipBlanks then
        let (ts, d) := (← scanConstruct? s c.skipBlanks turns).getD ([], c.skipBlanks)
        let ((us, e), ending) ← scanTagBody s d turns
        return ((ts ++ us, e), ending)
      else
        match ← scanAttribute? s .tag c.skipBlanks turns with
        | some (ts, d) =>
          let ((us, e), ending) ← scanTagBody s d turns
          return ((ts ++ us, e), ending)
        | none => scanTagBody s (c.skipBlanks.skip 1) turns

/-- A look ahead over a start tag whose name ends at `start`, from the index `i` on. -/
def scanShape (s : Source) (start : Nat) (quote : Option Char) (runat : Bool) (i : Nat) :
    Nat → Scan TagShape
  | 0 => .out
  | turns + 1 =>
    match s.text.drop i with
    | [] => return ⟨runat, false⟩
    | c :: cs =>
      if ['<', '%'].isPrefixOf (c :: cs) then do
        match ← find s .code (i + 2) with
        | some j => scanShape s start quote runat (j + 2) turns
        | none => return ⟨runat, false⟩
      else
        match quote with
        | some q => scanShape s start (if c = q then none else some q) runat (i + 1) turns
        | none =>
          if c = '>' then return ⟨runat, start < i && s.text[i - 1]? == some '/'⟩
          else if c = '<' then return ⟨runat, false⟩
          else if c = '"' || c = '\x27' then scanShape s start (some c) runat (i + 1) turns
          else scanShape s start none (runat || (isBlank c && startsRunat cs)) (i + 1) turns

namespace LexerState

/-- The body of `tag` up to its closing tag or the end: text and constructs. -/
def scanRaw (s : Source) (tag : String) (st : LexerState) : Nat → Scan (List Token × LexerState)
  | 0 => .out
  | turns + 1 =>
    if st.cursor.rest = [] || closesRaw tag st.cursor.rest then return ([], st)
    else do
      if ← completes s st.cursor then
        let (ts, d) := (← scanConstruct? s st.cursor turns).getD ([], st.cursor)
        let (ts, next) := st.emit s ts d
        let (us, last) ← scanRaw s tag next turns
        return (ts ++ us, last)
      else scanRaw s tag (st.addText 1) turns

/-- A construct that is one token, if its end mark follows. -/
def scanEnclosed? (s : Source) (st : LexerState) (kind : TokenKind) (lead : Nat) (m : EndMark) :
    Scan (Option (List Token × LexerState)) := do
  match ← find s m (st.cursor.offset + lead) with
  | none => return none
  | some i =>
    let size := i + m.chars.length - st.cursor.offset
    return some (st.emit s [.whole kind (s.excerpt st.cursor size)] (st.cursor.skip size))

/-- A start tag, whose name of `n` characters follows the `<` at the cursor. -/
def scanStartTag (s : Source) (st : LexerState) (n turns : Nat) :
    Scan (List Token × LexerState) := do
  let name := String.ofList ((st.cursor.rest.drop 1).take n)
  let nameEnd := (st.cursor.skip (n + 1)).offset
  let shape ← scanShape s nameEnd none false nameEnd turns
  let void := !name.toList.contains ':' && isVoidElement name
  let server := shape.runat || looksLikeServerTag name
  if server || isStructuredTag name then
    let ((us, e), ending) ← scanTagBody s (st.cursor.skip (n + 1)) turns
    let ts := .whole .tagOpen (s.excerpt st.cursor 1) ::
      nameTokens (s.excerpt (st.cursor.skip 1) n) ++ us
    let (ts, next) := st.emit s ts e
    if ending = .opened && !void then
      return (ts, { next with
        opened := ⟨name, if server then .server else .structured⟩ :: st.opened
        raw := if isRawTextElement name then some name else none })
    else return (ts, next)
  else return ([], st.afterLiteralTag name shape void (n + 1))

/-- The construct or the tag at the cursor, if there is one that is complete. -/
def scanMarkup? (s : Source) (st : LexerState) (turns : Nat) :
    Scan (Option (List Token × LexerState)) := do
  let rest := st.cursor.rest
  if st.cursor.sees ['<', '!', '-', '-'] then st.scanEnclosed? s .comment 4 .comment
  else if st.cursor.sees ['<', '%'] then
    return (← scanConstruct? s st.cursor turns).map fun (ts, d) => st.emit s ts d
  else if namedAt ['<', '!', 'd', 'o', 'c', 't', 'y', 'p', 'e'] rest then
    st.scanEnclosed? s .docType 0 .docType
  else if st.cursor.sees ['<', '/'] then
    if (rest.drop 2).head?.any isLetter then
      return st.closingTag? s (tagNameOf (rest.drop 2)).length
    else return none
  else if st.cursor.sees ['<'] then
    if (rest.drop 1).head?.any isLetter then
      return some (← st.scanStartTag s (tagNameOf (rest.drop 1)).length turns)
    else return none
  else return none

/-- The body of a script or style sheet, or else one construct or text up to the next `<`; at the
end of the source, the gathered text. -/
def scan (s : Source) (st : LexerState) (turns : Nat) : Scan (List Token × Option LexerState) :=
  match st.raw with
  | some tag => do
    let (ts, next) ← scanRaw s tag { st with raw := none } turns
    return (ts, some next)
  | none =>
    if st.cursor.rest = [] then return (st.gathered s, none)
    else do
      match ← st.scanMarkup? s turns with
      | some (ts, next) => return (ts, some next)
      | none => return ([], some (st.addText (textReach st.cursor.rest)))

end LexerState

/-- A lexer over a source: its state, whether it has come to the end, the tokens read and not taken,
and what it remembers of its searches. -/
structure Scanner where
  source : Source
  state : LexerState
  finished : Bool
  queue : List Token
  memory : Memory
deriving DecidableEq, Repr

namespace Scanner

/-- The lexer before anything has been read. -/
def of (file text : String) : Scanner :=
  let s := Source.of file text
  ⟨s, LexerState.start s, false, [], Memory.empty⟩

/-- The lexer after one more construct, or text, or the end. -/
def consume (k : Scanner) (turns : Nat) : Option Scanner := do
  let ((ts, next), memory) ← (k.state.scan k.source turns).run k.memory
  match next with
  | some state => return { k with state, queue := k.queue ++ ts, memory }
  | none =>
    let state := { k.state with text := k.state.cursor }
    return { k with state, finished := true, queue := k.queue ++ ts, memory }

/-- Reads on until at least `n` tokens are there, or to the end. -/
def fill (k : Scanner) (n : Nat) : Nat → Option Scanner
  | 0 => none
  | turns + 1 =>
    if k.queue.length < n && !k.finished then do
      let k ← k.consume turns
      k.fill n turns
    else some k

/-- The token `n` places ahead. -/
def peek (k : Scanner) (n turns : Nat) : Option (Option Token × Scanner) := do
  let k ← k.fill (n + 1) turns
  return (k.queue[n]?, k)

/-- The next token, which is taken. -/
def next (k : Scanner) (turns : Nat) : Option (Option Token × Scanner) := do
  let k ← k.fill 1 turns
  return (k.queue.head?, { k with queue := k.queue.tail })

/-- Takes all tokens that are left. -/
def drain (k : Scanner) : Nat → Option (List Token × Scanner)
  | 0 => none
  | turns + 1 => do
    match ← k.next turns with
    | (none, k) => return ([], k)
    | (some t, k) =>
      let (ts, k) ← k.drain turns
      return (t :: ts, k)

/-- The number of tokens that are left, which are taken. -/
def count (k : Scanner) (turns : Nat) : Option (Nat × Scanner) := do
  let (ts, k) ← k.drain turns
  return (ts.length, k)

/-- The tokens of a file's text. -/
def tokenize (file text : String) (turns : Nat) : Option (List Token) := do
  let (ts, _) ← (of file text).drain turns
  return ts

/-- A call to a lexer. -/
inductive Call where
  | consume
  | peek (n : Nat)
  | next
  | count
deriving DecidableEq, Repr

/-- The lexer after a call. -/
def call (turns : Nat) (k : Scanner) : Call → Option Scanner
  | .consume => k.consume turns
  | .peek n => (k.peek n turns).map Prod.snd
  | .next => (k.next turns).map Prod.snd
  | .count => (k.count turns).map Prod.snd

/-- The lexer after calls that are made one after the other. -/
def after (k : Scanner) (calls : List Call) (turns : Nat) : Option Scanner :=
  calls.foldlM (call turns) k

end Scanner
end ServerMarkup
