/-
# Looking ahead changes nothing

A queue reads its source in bursts: a call may find its answer among the tokens that have been read,
or it may drive the lexer on by any number of steps.  Nothing of this is seen from outside.  Every
call answers from the list of all tokens and from the number of tokens that have been taken before
(`history_of`), whatever calls came before it and in whatever order.

What carries this is the list of the tokens still to come, `TokenQueue.remaining`: reading on keeps
it, and taking a token takes its head.
-/

import ServerMarkup.Lexer.Tokens

namespace ServerMarkup
namespace TokenQueue

/-- A call to a queue. -/
inductive Call where
  | peek (n : Nat)
  | peekKind (n : Nat)
  | next
deriving DecidableEq, Repr

/-- What a call returns. -/
inductive Answer where
  | token (t : Option Token)
  | kind (k : Option TokenKind)
deriving DecidableEq, Repr

/-- A call and what it has returned. -/
structure Reply where
  call : Call
  answer : Answer
deriving DecidableEq, Repr

/-- The reply to a call, and the queue after it. -/
def reply (q : TokenQueue) : Call → Reply × TokenQueue
  | .peek n => (⟨.peek n, .token (q.peek n).1⟩, (q.peek n).2)
  | .peekKind n => (⟨.peekKind n, .kind (q.peekKind n).1⟩, (q.peekKind n).2)
  | .next => (⟨.next, .token q.next.1⟩, q.next.2)

/-- The replies to calls that are made one after the other. -/
def history (q : TokenQueue) : List Call → List Reply
  | [] => []
  | c :: cs => (q.reply c).1 :: (q.reply c).2.history cs

/-- Whether the call has taken a token. -/
def Reply.takes (r : Reply) : Bool :=
  match r with
  | ⟨.next, .token (some _)⟩ => true
  | _ => false

/-- How many of the calls have taken a token. -/
def taken (rs : List Reply) : Nat :=
  rs.countP Reply.takes

/-- What a call has to return where the tokens are `ts` and `k` of them have been taken. -/
def Call.answerIn (ts : List Token) (k : Nat) : Call → Answer
  | .peek n => .token ts[k + n]?
  | .peekKind n => .kind (ts[k + n]?.map Token.kind)
  | .next => .token ts[k]?

variable {q : TokenQueue} {ts : List Token} {k : Nat}

/-! ### Reading on -/

theorem enough_fillFrom (s : Source) (queue : List Token) (n : Nat) (st : LexerState) :
    n ≤ (fillFrom s queue n st).queue.length ∨ (fillFrom s queue n st).state = none := by
  fun_induction fillFrom s queue n st with
  | case1 queue st enough => exact .inl enough
  | case2 => exact .inr rfl
  | case3 _ _ _ _ _ _ ih => exact ih

/-- After reading on, `n` tokens are there, or all that were still to come. -/
theorem enough_fill (q : TokenQueue) (n : Nat) :
    n ≤ (q.fill n).queue.length ∨ (q.fill n).state = none := by
  unfold fill
  split
  · next done => exact .inr done
  · exact enough_fillFrom ..

/-- The tokens that have been read are the first of those still to come. -/
theorem getElem?_fill (q : TokenQueue) {m n : Nat} (h : m < n) :
    (q.fill n).queue[m]? = q.remaining[m]? := by
  rw [← q.remaining_fill n, remaining]
  rcases q.enough_fill n with enough | done
  · rw [List.getElem?_append_left (Nat.lt_of_lt_of_le h enough)]
  · rw [done, List.append_nil]

/-! ### Calls -/

theorem peek_eq (q : TokenQueue) (n : Nat) :
    (q.peek n).1 = q.remaining[n]? ∧ (q.peek n).2.remaining = q.remaining :=
  ⟨q.getElem?_fill (Nat.lt_succ_self n), q.remaining_fill (n + 1)⟩

theorem peekKind_eq (q : TokenQueue) (n : Nat) :
    (q.peekKind n).1 = q.remaining[n]?.map Token.kind ∧
      (q.peekKind n).2.remaining = q.remaining :=
  ⟨congrArg (Option.map Token.kind) (q.peek_eq n).1, (q.peek_eq n).2⟩

/-- The next token is the first of those still to come, and the others stay. -/
theorem next_eq (q : TokenQueue) :
    q.next.1 = q.remaining.head? ∧ q.next.2.remaining = q.remaining.tail := by
  have first : q.next.1 = q.remaining.head? := by
    have := q.getElem?_fill (Nat.lt_succ_self 0)
    rwa [← List.head?_eq_getElem?, ← List.head?_eq_getElem?] at this
  have tail : q.next.2.remaining = (q.fill 1).remaining.tail := by
    rcases q.enough_fill 1 with enough | done
    · exact (List.tail_append_of_ne_nil (List.length_pos_iff.1 enough)).symm
    · simp [next, remaining, done]
  exact ⟨first, tail.trans (congrArg List.tail (q.remaining_fill 1))⟩

/-- One call answers from the tokens still to come, and takes the first of them at most. -/
theorem reply_eq (h : q.remaining = ts.drop k) (c : Call) :
    (q.reply c).1 = ⟨c, c.answerIn ts k⟩ ∧
      (q.reply c).2.remaining = ts.drop (k + taken [(q.reply c).1]) := by
  cases c with
  | peek n =>
    obtain ⟨answer, rest⟩ := q.peek_eq n
    rw [h, List.getElem?_drop] at answer
    exact ⟨by rw [reply, answer]; rfl, rest.trans h⟩
  | peekKind n =>
    obtain ⟨answer, rest⟩ := q.peekKind_eq n
    rw [h, List.getElem?_drop] at answer
    exact ⟨by rw [reply, answer]; rfl, rest.trans h⟩
  | next =>
    obtain ⟨answer, rest⟩ := q.next_eq
    rw [h, List.head?_drop] at answer
    rw [h, List.tail_drop] at rest
    have reply : (q.reply .next).1 = ⟨.next, .token ts[k]?⟩ := by rw [reply, answer]
    refine ⟨reply, ?_⟩
    rw [reply]
    cases taken : ts[k]? with
    | some t => exact rest
    | none =>
      rw [List.getElem?_eq_none_iff] at taken
      refine rest.trans ?_
      rw [List.drop_of_length_le (by omega), List.drop_of_length_le (by omega)]

/-- Every call of a run answers by the number of tokens that the calls before it have taken. -/
theorem history_eq (h : q.remaining = ts.drop k) (calls : List Call) (i : Nat) :
    (q.history calls)[i]? = calls[i]?.map fun c =>
      ⟨c, c.answerIn ts (k + taken ((q.history calls).take i))⟩ := by
  induction calls generalizing q k i with
  | nil => rfl
  | cons c cs ih =>
    obtain ⟨first, rest⟩ := reply_eq h c
    cases i with
    | zero => exact congrArg some first
    | succ i =>
      have later := ih rest i
      have count : taken ((q.history (c :: cs)).take (i + 1)) =
          taken [(q.reply c).1] + taken (((q.reply c).2.history cs).take i) := by
        change taken ([(q.reply c).1] ++ ((q.reply c).2.history cs).take i) = _
        exact List.countP_append
      rw [count, ← Nat.add_assoc]
      exact later

/-- **Looking ahead changes nothing.**  Of any calls to the queue of a file, each one returns the
token, or the kind of the token, that stands as many places as it asks for behind those that the
calls before it have taken. -/
theorem history_of (file text : String) (calls : List Call) (i : Nat) :
    ((of file text).history calls)[i]? = calls[i]?.map fun c =>
      ⟨c, c.answerIn (tokenize file text) (taken (((of file text).history calls).take i))⟩ := by
  have all : (of file text).remaining = (tokenize file text).drop 0 := remaining_of file text
  simpa using history_eq all calls i

end TokenQueue
end ServerMarkup
