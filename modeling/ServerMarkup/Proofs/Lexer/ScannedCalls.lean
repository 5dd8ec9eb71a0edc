/-
# Calls to a lexer return

A lexer with a memory may be called in any order, and each call takes up where the last one has
stopped.  Between two calls its cursors stand in the source, what it remembers is true, and at the
end nothing is left (`Scanner.Sound`).  Every call returns to such a lexer, with the tokens that the
lexer with horizons would read (`Scanner.Leaves`), and so does every list of calls
(`Scanner.Sound.exists_after`).

Therefore the lexer ends on every text (`Scanner.calls_return`), and what it remembers never changes
an answer (`Scanner.searches_true`).
-/

import ServerMarkup.Proofs.Lexer.ScannedStates

namespace ServerMarkup
namespace Scanner

variable {k k' : Scanner}

/-- The tokens still to come, read or not. -/
def remaining (k : Scanner) : List Token :=
  k.queue ++ k.state.tokens k.source

/-- What holds of a lexer between two calls. -/
structure Sound (k : Scanner) : Prop where
  honest : k.source.Honest
  on : k.state.On k.source
  memory : k.memory.Sound k.source
  ended : k.finished = true →
    k.state.raw = none ∧ k.state.cursor.rest = [] ∧ k.state.text = k.state.cursor

theorem sound_of (file text : String) : (of file text).Sound :=
  ⟨Source.honest_of file text, LexerState.on_start _, Memory.sound_empty _, by intro h; cases h⟩

/-- A call to `k` has returned the lexer `k'`, which has the tokens `ts` still to give. -/
structure Leaves (k : Scanner) (ts : List Token) (k' : Scanner) : Prop where
  source : k'.source = k.source
  sound : k'.Sound
  remaining : k'.remaining = ts

/-- Reading on has come forward, or has left a raw body at its place, or has come to the end. -/
def Progress (k k' : Scanner) : Prop :=
  k.state.Forward k'.state ∨ k'.finished = true ∧ k'.state.cursor = k.state.cursor

theorem tokens_of_end {s : Source} {st : LexerState} (outside : st.raw = none)
    (atEnd : st.cursor.rest = []) : st.tokens s = st.gathered s := by
  have step : st.step s = (st.gathered s, none) := by
    rw [LexerState.step, outside, if_pos atEnd]
  rw [LexerState.tokens_of_step step]
  exact List.append_nil _

/-- Behind the end nothing is to come. -/
theorem Sound.tokens_eq_nil (h : k.Sound) (ended : k.finished = true) :
    k.state.tokens k.source = [] := by
  obtain ⟨outside, atEnd, none⟩ := h.ended ended
  rw [tokens_of_end outside atEnd, LexerState.gathered, none, if_neg (Nat.lt_irrefl _)]

theorem Sound.remaining_eq (h : k.Sound) (ended : k.finished = true) : k.remaining = k.queue := by
  rw [remaining, h.tokens_eq_nil ended, List.append_nil]

theorem Leaves.trans {ts us : List Token} {next : Scanner} (h : k.Leaves ts next)
    (h' : next.Leaves us k') : k.Leaves us k' :=
  ⟨h'.source.trans h.source, h'.sound, h'.remaining⟩

/-! ### One call -/

/-- **Reading on returns**, and takes nothing from what is to come. -/
theorem Sound.exists_consume (h : k.Sound) :
    ∃ k', Ends k.consume k' ∧ k.Leaves k.remaining k' ∧ k.Progress k' := by
  obtain ⟨ts, next, returns, comes⟩ := LexerState.exists_scan h.honest h.on
  obtain ⟨memory, run, remembered⟩ := returns k.memory h.memory
  cases comes with
  | @onward _ next tokens on forward =>
    refine ⟨_, run.bind (.const _), ⟨rfl, ⟨h.honest, on, remembered, fun ended => ?_⟩, ?_⟩,
      .inl forward⟩
    · -- Nothing comes forward behind the end.
      obtain ⟨outside, atEnd, -⟩ := h.ended ended
      have here := h.on.cursor.length_rest
      have within := on.cursor.offset_le
      rw [atEnd] at here
      rcases forward with more | ⟨inside, -⟩
      · simp only [List.length_nil] at here
        omega
      · rw [outside] at inside
        cases inside
    · simp only [remaining, tokens, List.append_assoc]
  | ended outside atEnd =>
    have sound : Scanner.Sound { k with
        state := { k.state with text := k.state.cursor }
        finished := true
        queue := k.queue ++ k.state.gathered k.source
        memory } :=
      ⟨h.honest, ⟨h.on.cursor, h.on.cursor, Nat.le_refl _⟩, remembered,
        fun _ => ⟨outside, atEnd, rfl⟩⟩
    refine ⟨_, run.bind (.const _), ⟨rfl, sound, ?_⟩, .inr ⟨rfl, rfl⟩⟩
    rw [sound.remaining_eq rfl, remaining, tokens_of_end outside atEnd]

theorem ends_fill_of_enough {n : Nat} (enough : n ≤ k.queue.length ∨ k.finished = true) :
    Ends (k.fill n) k := by
  have ready : ¬ (k.queue.length < n && !k.finished) := by
    rcases enough with there | ended
    · simp [Nat.not_lt.2 there]
    · simp [ended]
  refine .of_succ ?_
  simp only [fill, if_neg ready]
  exact .const k

theorem ends_fill_of_consume {n : Nat} {next : Scanner}
    (more : ¬ (n ≤ k.queue.length ∨ k.finished = true)) (consumed : Ends k.consume next)
    (filled : Ends (next.fill n) k') : Ends (k.fill n) k' := by
  rw [not_or, Nat.not_le, Bool.not_eq_true] at more
  have wanting : (k.queue.length < n && !k.finished) = true := by simp [more]
  refine .of_succ ?_
  simp only [fill, if_pos wanting]
  exact consumed.bind filled

/-- **Reading ahead returns** with enough tokens, or at the end. -/
theorem Sound.exists_fill (h : k.Sound) (n : Nat) : ∃ k', Ends (k.fill n) k' ∧
    k.Leaves k.remaining k' ∧ (n ≤ k'.queue.length ∨ k'.finished = true) := by
  generalize size : k.state.measure = room
  induction room using Nat.strongRecOn generalizing k with
  | ind room ih =>
  by_cases enough : n ≤ k.queue.length ∨ k.finished = true
  · exact ⟨k, ends_fill_of_enough enough, ⟨rfl, h, rfl⟩, enough⟩
  · obtain ⟨next, consumed, leaves, progress⟩ := h.exists_consume
    rcases progress with forward | ⟨ended, -⟩
    · have less := forward.measure_lt h.on (leaves.source ▸ leaves.sound.on)
      obtain ⟨k', filled, leaves', enough'⟩ := ih next.state.measure (size ▸ less) leaves.sound rfl
      exact ⟨k', ends_fill_of_consume enough consumed filled,
        leaves.remaining ▸ leaves.trans leaves', enough'⟩
    · have filled : Ends (next.fill n) next := ends_fill_of_enough (.inr ended)
      exact ⟨next, ends_fill_of_consume enough consumed filled, leaves, .inr ended⟩

/-- Looking ahead returns the token that is to come there. -/
theorem Sound.exists_peek (h : k.Sound) (n : Nat) :
    ∃ k', Ends (k.peek n) (k.remaining[n]?, k') ∧ k.Leaves k.remaining k' := by
  obtain ⟨k', filled, leaves, enough⟩ := h.exists_fill (n + 1)
  refine ⟨k', ?_, leaves⟩
  have found : k'.queue[n]? = k.remaining[n]? := by
    rw [← leaves.remaining]
    rcases enough with there | ended
    · rw [remaining, List.getElem?_append_left (by omega)]
    · rw [leaves.sound.remaining_eq ended]
  rw [← found]
  exact filled.bind (.const _)

/-- The next token is the first of those that are to come, and the others stay. -/
theorem Sound.exists_next (h : k.Sound) :
    ∃ k', Ends k.next (k.remaining.head?, k') ∧ k.Leaves k.remaining.tail k' := by
  obtain ⟨k', filled, leaves, enough⟩ := h.exists_fill 1
  have first : k'.queue.head? = k.remaining.head? ∧
      k'.queue.tail ++ k'.state.tokens k'.source = k.remaining.tail := by
    rw [← leaves.remaining]
    rcases enough with there | ended
    · obtain ⟨t, ts, same⟩ := List.exists_cons_of_length_pos there
      rw [remaining, same]
      exact ⟨rfl, rfl⟩
    · rw [remaining, leaves.sound.tokens_eq_nil ended, List.append_nil, List.append_nil]
      exact ⟨rfl, rfl⟩
  refine ⟨{ k' with queue := k'.queue.tail }, ?_, leaves.source,
    ⟨leaves.sound.honest, leaves.sound.on, leaves.sound.memory, leaves.sound.ended⟩, first.2⟩
  rw [← first.1]
  exact filled.bind (.const _)

/-- **Taking all tokens returns** with those that are to come. -/
theorem Sound.exists_drain (h : k.Sound) :
    ∃ k', Ends k.drain (k.remaining, k') ∧ k.Leaves [] k' := by
  generalize left : k.remaining = ts
  induction ts generalizing k with
  | nil =>
    obtain ⟨k', taken, leaves⟩ := h.exists_next
    rw [left] at taken leaves
    refine ⟨k', .of_succ ?_, leaves⟩
    simp only [drain]
    exact taken.bind (.const _)
  | cons t ts ih =>
    obtain ⟨next, taken, leaves⟩ := h.exists_next
    rw [left] at taken leaves
    obtain ⟨k', drained, leaves'⟩ := ih leaves.sound leaves.remaining
    refine ⟨k', .of_succ ?_, leaves.trans leaves'⟩
    simp only [drain]
    exact taken.bind (drained.bind (.const _))

theorem Sound.exists_count (h : k.Sound) :
    ∃ k', Ends k.count (k.remaining.length, k') ∧ k.Leaves [] k' := by
  obtain ⟨k', drained, leaves⟩ := h.exists_drain
  exact ⟨k', drained.bind (.const _), leaves⟩

/-! ### Lists of calls -/

theorem Sound.exists_call (h : k.Sound) (c : Call) :
    ∃ k' ts, Ends (fun turns => k.call turns c) k' ∧ k.Leaves ts k' := by
  cases c with
  | consume =>
    obtain ⟨k', run, leaves, -⟩ := h.exists_consume
    exact ⟨k', _, run, leaves⟩
  | peek n =>
    obtain ⟨k', run, leaves⟩ := h.exists_peek n
    exact ⟨k', _, run.map Prod.snd, leaves⟩
  | next =>
    obtain ⟨k', run, leaves⟩ := h.exists_next
    exact ⟨k', _, run.map Prod.snd, leaves⟩
  | count =>
    obtain ⟨k', run, leaves⟩ := h.exists_count
    exact ⟨k', _, run.map Prod.snd, leaves⟩

/-- **Every list of calls returns.** -/
theorem Sound.exists_after (h : k.Sound) (calls : List Call) :
    ∃ k' ts, Ends (k.after calls) k' ∧ k.Leaves ts k' := by
  induction calls generalizing k with
  | nil => exact ⟨k, _, .const k, rfl, h, rfl⟩
  | cons c calls ih =>
    obtain ⟨next, _, run, leaves⟩ := h.exists_call c
    obtain ⟨k', ts, rest, leaves'⟩ := ih leaves.sound
    refine ⟨k', ts, ?_, leaves.trans leaves'⟩
    unfold after
    simp only [List.foldlM_cons]
    exact run.bind rest

theorem remaining_of (file text : String) :
    (of file text).remaining = ServerMarkup.tokenize file text :=
  List.nil_append _

/-- **The lexer ends on every text.**  With enough turns all tokens can be taken from it, and they
are those of the lexer with horizons.  After any calls, it stands in the text; reading on returns,
and has come forward, or has left a raw body at its place, or has come to the end; and so looking
ahead, taking the next token and counting return, with what is to come. -/
theorem calls_return (file text : String) :
    Ends (tokenize file text) (ServerMarkup.tokenize file text) ∧
    ∀ calls, ∃ k, Ends ((of file text).after calls) k ∧
      k.state.cursor.offset ≤ text.toList.length ∧
      (∃ k', Ends k.consume k' ∧ k.Progress k') ∧
      (∀ n, ∃ k', Ends (k.fill n) k' ∧ (n ≤ k'.queue.length ∨ k'.finished = true)) ∧
      (∀ n, ∃ k', Ends (k.peek n) (k.remaining[n]?, k')) ∧
      (∃ k', Ends k.next (k.remaining.head?, k')) ∧
      ∃ k', Ends k.count (k.remaining.length, k') := by
  have sound := sound_of file text
  constructor
  · obtain ⟨k', drained, -⟩ := sound.exists_drain
    rw [← remaining_of]
    exact drained.bind (.const _)
  · intro calls
    obtain ⟨k, ts, run, leaves⟩ := sound.exists_after calls
    obtain ⟨k₁, consumed, -, progress⟩ := leaves.sound.exists_consume
    obtain ⟨k₂, counted, -⟩ := leaves.sound.exists_count
    obtain ⟨k₃, taken, -⟩ := leaves.sound.exists_next
    have within := leaves.sound.on.cursor.offset_le
    rw [leaves.source] at within
    refine ⟨k, run, within, ⟨k₁, consumed, progress⟩, fun n => ?_, fun n => ?_, ⟨k₃, taken⟩,
      ⟨k₂, counted⟩⟩
    · obtain ⟨k', filled, -, enough⟩ := leaves.sound.exists_fill n
      exact ⟨k', filled, enough⟩
    · obtain ⟨k', seen, -⟩ := leaves.sound.exists_peek n
      exact ⟨k', seen⟩

/-- **What the lexer remembers never changes an answer.**  After any calls, every search that has
been made, from whatever place and for whatever mark, has found the first occurrence from there on,
and after it no mark occurred from the offset on that was noted for it; this holds of what is noted
now; and a search that is made now finds the first occurrence, which is what the horizons tell. -/
theorem searches_true (file text : String) (calls : List Call) :
    ∃ k, Ends ((of file text).after calls) k ∧
      (∀ q ∈ k.memory.searches, (Source.of file text).First q.mark q.start q.found ∧
        ∀ entry ∈ q.missing, ∀ i, entry.2 ≤ i → ¬ (Source.of file text).Has entry.1 i) ∧
      (∀ entry ∈ k.memory.missing, ∀ i, entry.2 ≤ i → ¬ (Source.of file text).Has entry.1 i) ∧
      ∀ m start, (Source.of file text).First m start
          (k.memory.search (Source.of file text) m start).1 ∧
        (k.memory.search (Source.of file text) m start).1 =
          ((Source.of file text).ahead? m start (text.toList.drop start)).map (start + ·) := by
  obtain ⟨k, ts, run, leaves⟩ := (sound_of file text).exists_after calls
  have memory := leaves.sound.memory
  rw [leaves.source] at memory
  refine ⟨k, run, memory.searches, memory.missing, fun m start => ?_⟩
  have first := memory.first_search m start
  refine ⟨first, (first.unique ((Source.of file text).first_first? m start)).trans ?_⟩
  exact (Source.honest_of file text).first?_eq m start

end Scanner
end ServerMarkup
