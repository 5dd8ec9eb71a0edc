/-
# Constructs, attributes and tag bodies

A `<% … %>` construct may stand in literal text, in a tag, and in a quoted attribute value; a
directive is such a construct and holds attributes, whose quoted values may hold constructs again.
Four of the readers below are therefore recursive through one another:

| reader | reads |
| --- | --- |
| `readConstruct?` | a server comment, a code block or a directive, if its end mark follows |
| `readDirective` | what follows `<%@`, up to and with `%>` |
| `readAttribute?` | a name and, after `=`, a value |
| `readQuoted` | a quoted value up to and with the closing quote, in fragments around constructs |

`readTagBody` reads the attributes and constructs of a tag with them, and says how the tag ends.
Each returns a `Reading`: the tokens and the cursor after them, with the fact that what is left is
shorter.  That fact is what ends the recursion.
-/

import ServerMarkup.Cursor

namespace ServerMarkup

/-- Tokens that have been read and the cursor after them; fewer than `room` characters are left. -/
structure Reading (room : Nat) where
  tokens : List Token
  next : Cursor
  shorter : next.rest.length < room

namespace Reading

/-- The tokens `ts` and then a reading from a cursor that has come forward. -/
def followedBy {room : Nat} (ts : List Token) {c : Cursor} (r : Reading (c.rest.length + 1))
    (h : c.rest.length < room) : Reading room :=
  ⟨ts ++ r.tokens, r.next, by have := r.shorter; omega⟩

end Reading

/-- What a `<%` opens. -/
inductive Opening where
  | comment
  | directive
  | code (kind : CodeKind)
deriving DecidableEq, Repr

namespace Opening

/-- What the text opens, if it begins with `<%`. -/
def of? : List Char → Option Opening
  | '<' :: '%' :: rest =>
    match rest with
    | '-' :: '-' :: _ => some .comment
    | '@' :: _ => some .directive
    | '=' :: _ => some (.code .output)
    | ':' :: _ => some (.code .encoded)
    | '#' :: _ => some (.code .binding)
    | _ => some (.code .statement)
  | _ => none

/-- How many characters the opening takes. -/
def width : Opening → Nat
  | .comment => 4
  | .code .statement => 2
  | _ => 3

/-- The mark that ends what has been opened. -/
def endMark : Opening → EndMark
  | .comment => .serverComment
  | _ => .code

theorem width_le_of_of? {cs : List Char} {o : Opening} (h : of? cs = some o) :
    o.width ≤ cs.length := by
  unfold of? at h
  split at h
  · split at h
    all_goals
      obtain rfl := Option.some.inj h
      simp [width]
  · simp at h

theorem two_le_width (o : Opening) : 2 ≤ o.width := by
  unfold width; split <;> omega

end Opening

/-- What the construct at the cursor is, and how long it is between its marks; nothing, if there
is none or its end mark is missing. -/
def Source.construct? (s : Source) (offset : Nat) (rest : List Char) : Option (Opening × Nat) := do
  let o ← Opening.of? rest
  let n ← s.ahead? o.endMark (offset + o.width) (rest.drop o.width)
  return (o, n)

/-- Attributes stand in a tag or in a directive, and end with it. -/
inductive Place where
  | tag
  | directive
deriving DecidableEq, Repr

/-- Whether an attribute name ends before the text. -/
def endsName (place : Place) : List Char → Bool
  | [] => true
  | c :: cs =>
    isBlank c || ['\x00', '"', '\x27', '>', '/', '='].contains c ||
      ['<', '%'].isPrefixOf (c :: cs) ||
      (place == .directive && ['%', '>'].isPrefixOf (c :: cs))

/-- Whether a value without quotes ends before the text. -/
def endsValue (place : Place) : List Char → Bool
  | [] => true
  | c :: cs =>
    isBlank c || ['<', '>', '\x60'].contains c ||
      (place == .directive && ['%', '>'].isPrefixOf (c :: cs))

/-- The quote that the text begins with. -/
def quote? : List Char → Option Char
  | '"' :: _ => some '"'
  | '\x27' :: _ => some '\x27'
  | _ => none

/-- How many characters the attribute name at the cursor takes. -/
def nameReach (place : Place) (c : Cursor) : Nat :=
  reach (fun _ => endsName place) c.rest

/-- How many characters the value without quotes at the cursor takes. -/
def valueReach (place : Place) (c : Cursor) : Nat :=
  reach (fun _ => endsValue place) c.rest

/-- How far a fragment of a quoted value reaches: to the closing quote, a complete construct, or
the end of the text. -/
def fragmentReach (s : Source) (quote : Char) (c : Cursor) : Nat :=
  reach (fun i cs => cs.head? == some quote || (s.construct? (c.offset + i) cs).isSome) c.rest

/-- The cursor after an attribute name and the blanks that follow it. -/
def afterName (place : Place) (c : Cursor) : Cursor :=
  (c.skip (nameReach place c)).skipBlanks

/-- The cursor after an equals sign and the blanks that follow it. -/
def afterEquals (c : Cursor) : Cursor :=
  (c.skip 1).skipBlanks

theorem length_rest_afterName_lt {place : Place} {c : Cursor} (h : nameReach place c ≠ 0) :
    (afterName place c).rest.length < c.rest.length := by
  have h1 := (c.skip (nameReach place c)).length_rest_skipBlanks_le
  have h2 : nameReach place c ≤ c.rest.length := reach_le _ _
  rw [Cursor.length_rest_skip] at h1
  unfold afterName
  omega

theorem length_rest_afterEquals_le (c : Cursor) :
    (afterEquals c).rest.length ≤ c.rest.length := by
  have h := (c.skip 1).length_rest_skipBlanks_le
  rw [Cursor.length_rest_skip] at h
  unfold afterEquals
  omega

theorem Source.width_le_of_construct? {s : Source} {offset : Nat} {rest : List Char} {o : Opening}
    {n : Nat} (h : s.construct? offset rest = some (o, n)) : o.width ≤ rest.length := by
  unfold Source.construct? at h
  cases ho : Opening.of? rest with
  | none => simp [ho] at h
  | some o' =>
    cases hn : s.ahead? o'.endMark (offset + o'.width) (rest.drop o'.width) with
    | none => simp [ho, hn] at h
    | some m =>
      simp only [ho, hn, Option.bind_eq_bind, Option.bind_some, Option.pure_def, Option.some.injEq,
        Prod.mk.injEq] at h
      exact h.1 ▸ Opening.width_le_of_of? ho

mutual

/-- A server comment, a code block or a directive, if its end mark follows. -/
def readConstruct? (s : Source) (c : Cursor) : Option (Reading c.rest.length) :=
  match h : s.construct? c.offset c.rest with
  | none => none
  | some (o, n) =>
    have width : o.width ≤ c.rest.length := Source.width_le_of_construct? h
    have two : 2 ≤ o.width := o.two_le_width
    match o with
    | .comment =>
      some ⟨[⟨.serverComment, s.span c (n + 8), s.excerpt (c.skip 4) n⟩], c.skip (n + 8),
        by simp; omega⟩
    | .directive =>
      some (.followedBy [.whole .startDirective (s.excerpt c 3)] (readDirective s (c.skip 3))
        (by simp; omega))
    | .code kind =>
      let size := (Opening.code kind).width + n + 2
      some ⟨[⟨.code kind, s.span c size, (s.excerpt (c.skip (Opening.code kind).width) n).trim⟩],
        c.skip size, by simp [size]; omega⟩
termination_by 2 * c.rest.length
decreasing_by simp; omega

/-- The attributes of a directive and its end; a character that begins no attribute is passed
over. -/
def readDirective (s : Source) (c : Cursor) : Reading (c.rest.length + 1) :=
  have blanks : c.skipBlanks.rest.length ≤ c.rest.length := c.length_rest_skipBlanks_le
  if atEnd : c.skipBlanks.rest = [] then ⟨[], c.skipBlanks, by omega⟩
  else if c.skipBlanks.sees ['%', '>'] then
    ⟨[.whole .endDirective (s.excerpt c.skipBlanks 2)], c.skipBlanks.skip 2,
      by rw [Cursor.length_rest_skip]; omega⟩
  else
    have more : 0 < c.skipBlanks.rest.length := List.length_pos_iff.2 atEnd
    match readAttribute? s .directive c.skipBlanks with
    | some r =>
      have := r.shorter
      .followedBy r.tokens (readDirective s r.next) (by omega)
    | none =>
      have stray : (c.skipBlanks.skip 1).rest.length < c.rest.length := by
        rw [Cursor.length_rest_skip]; omega
      .followedBy [] (readDirective s (c.skipBlanks.skip 1)) (by omega)
termination_by 2 * c.rest.length + 1
decreasing_by all_goals omega

/-- An attribute name and, after `=`, its value; nothing, if no name begins at the cursor. -/
def readAttribute? (s : Source) (place : Place) (c : Cursor) : Option (Reading c.rest.length) :=
  if unnamed : nameReach place c = 0 then none
  else
    have named : (afterName place c).rest.length < c.rest.length :=
      length_rest_afterName_lt unnamed
    let name := Token.whole .attribute (s.excerpt c (nameReach place c))
    if (afterName place c).rest.head? = some '=' then
      have valued : (afterEquals (afterName place c)).rest.length < c.rest.length :=
        Nat.lt_of_le_of_lt (length_rest_afterEquals_le _) named
      match quote? (afterEquals (afterName place c)).rest with
      | some q =>
        have inside : ((afterEquals (afterName place c)).skip 1).rest.length < c.rest.length := by
          rw [Cursor.length_rest_skip]; omega
        some (.followedBy [name]
          (readQuoted s q true ((afterEquals (afterName place c)).skip 1)) (by omega))
      | none =>
        let m := valueReach place (afterEquals (afterName place c))
        some ⟨[name, .whole .attributeValue (s.excerpt (afterEquals (afterName place c)) m)],
          (afterEquals (afterName place c)).skip m, by rw [Cursor.length_rest_skip]; omega⟩
    else some ⟨[name], afterName place c, named⟩
termination_by 2 * c.rest.length
decreasing_by omega

/-- A quoted value from the cursor on, up to and with the closing quote.  Constructs split it into
fragments; an empty one counts only if it is the first and the last. -/
def readQuoted (s : Source) (quote : Char) (alone : Bool) (c : Cursor) :
    Reading (c.rest.length + 1) :=
  have within : (c.skip (fragmentReach s quote c)).rest.length ≤ c.rest.length := by
    rw [Cursor.length_rest_skip]; omega
  let fragment := Token.whole .attributeValue (s.excerpt c (fragmentReach s quote c))
  match readConstruct? s (c.skip (fragmentReach s quote c)) with
  | some r =>
    have := r.shorter
    .followedBy ((if fragmentReach s quote c = 0 then [] else [fragment]) ++ r.tokens)
      (readQuoted s quote false r.next) (by omega)
  | none =>
    ⟨if fragmentReach s quote c = 0 && !alone then [] else [fragment],
      (c.skip (fragmentReach s quote c)).skip 1, by rw [Cursor.length_rest_skip]; omega⟩
termination_by 2 * c.rest.length + 1
decreasing_by all_goals omega

end

/-- How a start tag ends. -/
inductive TagEnd where
  /-- With `>`: what follows is its content. -/
  | opened
  /-- With `/>`: it has no content. -/
  | selfClosed
  /-- With the text, or before something that belongs in no tag. -/
  | cut
deriving DecidableEq, Repr

/-- The attributes and constructs of a start tag from the cursor on, its end, and how it ends; a
character that begins none of these is passed over. -/
def readTagBody (s : Source) (c : Cursor) : Reading (c.rest.length + 1) × TagEnd :=
  have blanks : c.skipBlanks.rest.length ≤ c.rest.length := c.length_rest_skipBlanks_le
  if atEnd : c.skipBlanks.rest = [] then (⟨[], c.skipBlanks, by omega⟩, .cut)
  else if c.skipBlanks.sees ['>'] then
    (⟨[.whole .tagClose (s.excerpt c.skipBlanks 1)], c.skipBlanks.skip 1,
      by rw [Cursor.length_rest_skip]; omega⟩, .opened)
  else if c.skipBlanks.sees ['/', '>'] then
    (⟨[.whole .tagSlashClose (s.excerpt c.skipBlanks 2)], c.skipBlanks.skip 2,
      by rw [Cursor.length_rest_skip]; omega⟩, .selfClosed)
  else
    have more : 0 < c.skipBlanks.rest.length := List.length_pos_iff.2 atEnd
    match readConstruct? s c.skipBlanks <|> readAttribute? s .tag c.skipBlanks with
    | some r =>
      have := r.shorter
      let (body, ending) := readTagBody s r.next
      (.followedBy r.tokens body (by omega), ending)
    | none =>
      have stray : (c.skipBlanks.skip 1).rest.length < c.rest.length := by
        rw [Cursor.length_rest_skip]; omega
      let (body, ending) := readTagBody s (c.skipBlanks.skip 1)
      (.followedBy [] body (by omega), ending)
termination_by c.rest.length
decreasing_by all_goals omega

end ServerMarkup
