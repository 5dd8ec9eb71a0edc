/-
# The tokens of a source, at once or on demand

`tokenize` reads a source to its end.  A `TokenQueue` reads on demand: it keeps the tokens that
have been read and not taken, and goes on reading only when more are asked for.  What a queue still
has to give does not depend on how far it has read ahead (`remaining_fill`).
-/

import ServerMarkup.Lexer.State

namespace ServerMarkup

namespace LexerState

/-- The tokens from a state to the end of the source. -/
def tokens (s : Source) (st : LexerState) : List Token :=
  match _h : st.step s with
  | (ts, none) => ts
  | (ts, some next) => ts ++ tokens s next
termination_by st.measure
decreasing_by exact measure_step _h

theorem tokens_of_step {s : Source} {st : LexerState} {ts : List Token} {next : Option LexerState}
    (h : st.step s = (ts, next)) : st.tokens s = ts ++ (next.map (tokens s)).getD [] := by
  rw [tokens]
  split <;> next hs =>
    obtain ⟨rfl, rfl⟩ := Prod.mk.inj (hs.symm.trans h)
    simp

end LexerState

/-- The tokens of a source. -/
def Source.tokens (s : Source) : List Token :=
  (LexerState.start s).tokens s

/-- The tokens of a file's text. -/
def tokenize (file text : String) : List Token :=
  (Source.of file text).tokens

/-- A source that is read on demand: the tokens read and not taken, and the state from which
reading goes on, unless it has come to the end. -/
structure TokenQueue where
  source : Source
  queue : List Token
  state : Option LexerState
deriving DecidableEq, Repr

namespace TokenQueue

/-- The queue before anything has been read. -/
def of (file text : String) : TokenQueue :=
  let s := Source.of file text
  ⟨s, [], some (LexerState.start s)⟩

/-- The tokens still to come, read or not. -/
def remaining (q : TokenQueue) : List Token :=
  q.queue ++ match q.state with
    | none => []
    | some st => st.tokens q.source

/-- Reads on from a state until at least `n` tokens are there, or to the end. -/
def fillFrom (s : Source) (queue : List Token) (n : Nat) (st : LexerState) : TokenQueue :=
  if n ≤ queue.length then ⟨s, queue, some st⟩
  else match _h : st.step s with
    | (ts, none) => ⟨s, queue ++ ts, none⟩
    | (ts, some next) => fillFrom s (queue ++ ts) n next
termination_by st.measure
decreasing_by exact LexerState.measure_step _h

/-- Reads on until at least `n` tokens are there, or to the end. -/
def fill (q : TokenQueue) (n : Nat) : TokenQueue :=
  match q.state with
  | none => q
  | some st => fillFrom q.source q.queue n st

/-- The token `n` places ahead. -/
def peek (q : TokenQueue) (n : Nat) : Option Token × TokenQueue :=
  let q := q.fill (n + 1)
  (q.queue[n]?, q)

/-- The kind of the token `n` places ahead. -/
def peekKind (q : TokenQueue) (n : Nat) : Option TokenKind × TokenQueue :=
  let (t, q) := q.peek n
  (t.map Token.kind, q)

/-- The next token, which is taken. -/
def next (q : TokenQueue) : Option Token × TokenQueue :=
  let q := q.fill 1
  (q.queue.head?, { q with queue := q.queue.tail })

theorem remaining_of (file text : String) : (of file text).remaining = tokenize file text := by
  simp [of, remaining, tokenize, Source.tokens]

theorem remaining_fillFrom (s : Source) (queue : List Token) (n : Nat) (st : LexerState) :
    (fillFrom s queue n st).remaining = queue ++ st.tokens s := by
  fun_induction fillFrom s queue n st with
  | case1 queue st h => simp [remaining]
  | case2 queue st h ts hs => simp [remaining, LexerState.tokens_of_step hs]
  | case3 queue st h ts next hs ih => simp [ih, LexerState.tokens_of_step hs]

/-- Reading ahead changes nothing of what is to come. -/
theorem remaining_fill (q : TokenQueue) (n : Nat) : (q.fill n).remaining = q.remaining := by
  unfold fill
  split
  · rfl
  · next st h => rw [remaining_fillFrom, remaining, h]

end TokenQueue

end ServerMarkup
