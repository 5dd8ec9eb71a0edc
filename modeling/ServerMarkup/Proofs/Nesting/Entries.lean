/-
# The structured tags that are open

Of its open tags the lexer has taken only the structured ones apart.  A start tag that it takes apart
and that can have content becomes the innermost of them, a closing tag that it takes apart removes the
innermost one whatever literal tags are open inside (`structured_closeTag?`), and nothing else changes
them.

The lexer keeps their names.  `Move.entries` follows the moves of a run and keeps for each also the
token that has opened it, so that a closing tag can be told which start tag it closes.
-/

import ServerMarkup.Proofs.Lexer.Moves

namespace ServerMarkup

/-- The open tags that have been taken apart, innermost first. -/
def LexerState.structured (st : LexerState) : List OpenTag :=
  st.opened.filter OpenTag.isStructured

/-- Literal tags in front do not count. -/
theorem structured_dropWhile (opened : List OpenTag) :
    (opened.dropWhile (! ·.isStructured)).filter OpenTag.isStructured =
      opened.filter OpenTag.isStructured := by
  induction opened with
  | nil => rfl
  | cons t ts ih =>
    rw [List.dropWhile_cons]
    split
    · next literal => rw [ih, List.filter_cons_of_neg (by simpa using literal)]
    · rfl

/-- What a closing tag that is read as such takes away: a literal tag, or the innermost structured
one. -/
theorem structured_closeTag? {opened rest : List OpenTag} {name : String} {role : TagRole}
    (h : closeTag? opened name = some (role, rest)) :
    if role = .literal then rest.filter OpenTag.isStructured = opened.filter OpenTag.isStructured
    else ∃ e, opened.filter OpenTag.isStructured = e :: rest.filter OpenTag.isStructured := by
  have head {t : OpenTag} {ts : List OpenTag} (ht : t.role ≠ .literal) :
      (t :: ts).filter OpenTag.isStructured = t :: ts.filter OpenTag.isStructured :=
    List.filter_cons_of_pos (by simpa [OpenTag.isStructured] using ht)
  unfold closeTag? at h
  dsimp only at h
  split at h
  · cases opened with
    | nil => simp at h
    | cons t ts =>
      obtain ⟨rfl, rfl⟩ := Prod.mk.inj (Option.some.inj h)
      split
      · next literal =>
        rw [List.filter_cons_of_neg (by simp [OpenTag.isStructured, literal])]
        rfl
      · next taken => exact ⟨t, head taken⟩
  split at h
  · split at h
    · simp at h
    · next t ts ht =>
      obtain ⟨rfl, rfl⟩ := Prod.mk.inj (Option.some.inj h)
      have first := List.head?_dropWhile_not (! ·.isStructured) opened
      rw [ht] at first
      have taken : t.role ≠ .literal := by simpa [OpenTag.isStructured] using first
      rw [if_neg taken, ← structured_dropWhile, ht]
      exact ⟨t, head taken⟩
  · simp at h

/-! ### Entries -/

/-- A structured tag that is open: its name, and the token that has opened it. -/
structure Entry where
  name : String
  mark : Token
deriving DecidableEq, Repr

/-- The open structured tags after a move, if `es` are those before it: a new one is the innermost,
and opened by the mark among the tokens of the move; those that are no longer open are gone. -/
def Move.entries (es : List Entry) (m : Move) : List Entry :=
  if es.length < m.after.structured.length then
    match m.after.structured, m.tokens.find? (·.kind == .tagOpen) with
    | t :: _, some mark => ⟨t.name, mark⟩ :: es
    | _, _ => es
  else es.drop (es.length - m.after.structured.length)

/-- The entries have the names of the structured tags that are open. -/
def Named (es : List Entry) (st : LexerState) : Prop :=
  es.map Entry.name = st.structured.map OpenTag.name

namespace Named

variable {es : List Entry} {m : Move}

theorem length {st : LexerState} (h : Named es st) : es.length = st.structured.length := by
  simpa using congrArg List.length h

/-- A move that changes no structured tag. -/
theorem same (h : Named es m.before) (hs : m.after.structured = m.before.structured) :
    m.entries es = es ∧ Named es m.after := by
  have len := h.length
  rw [← hs] at len
  refine ⟨?_, by rwa [Named, hs]⟩
  rw [Move.entries, if_neg (by omega), len, Nat.sub_self, List.drop_zero]

/-- A move that opens a structured tag with the mark. -/
theorem push {name : String} {role : TagRole} {mark : Token} (h : Named es m.before)
    (taken : role ≠ .literal) (opened : m.after.opened = ⟨name, role⟩ :: m.before.opened)
    (found : m.tokens.find? (·.kind == .tagOpen) = some mark) :
    m.entries es = ⟨name, mark⟩ :: es ∧ Named (⟨name, mark⟩ :: es) m.after := by
  have hs : m.after.structured = ⟨name, role⟩ :: m.before.structured := by
    rw [LexerState.structured, opened]
    exact List.filter_cons_of_pos (by simpa [OpenTag.isStructured] using taken)
  have len := h.length
  constructor
  · rw [Move.entries, hs, found, if_pos (by rw [List.length_cons]; omega)]
  · rw [Named, hs, List.map_cons, List.map_cons, h]

/-- A move that closes the innermost structured tag. -/
theorem pop {t : OpenTag} (h : Named es m.before)
    (closes : m.before.structured = t :: m.after.structured) :
    ∃ e, es = e :: m.entries es ∧ e.name = t.name ∧ Named (m.entries es) m.after := by
  rw [Named, closes] at h
  cases es with
  | nil => simp at h
  | cons e es =>
    obtain ⟨name, rest⟩ := List.cons.inj h
    have len : es.length = m.after.structured.length := by simpa using congrArg List.length rest
    have gone : m.entries (e :: es) = es := by
      rw [Move.entries, List.length_cons, if_neg (by omega), len, Nat.add_sub_cancel_left]
      rfl
    exact ⟨e, by rw [gone], name, by rw [gone]; exact rest⟩

end Named

/-! ### After the first tokens of a run -/

/-- The moves that have emitted the first `n` tokens, without one that emits the next token too. -/
def consumed : Nat → List Move → List Move
  | n + 1, m :: ms =>
    if m.tokens.length ≤ n + 1 then m :: consumed (n + 1 - m.tokens.length) ms else []
  | _, _ => []

/-- The structured tags that are open after the moves that have emitted the first `n` tokens, if `es`
are those before. -/
def entriesFrom (es : List Entry) (ms : List Move) (n : Nat) : List Entry :=
  (consumed n ms).foldl Move.entries es

/-- The moves of the lexer on a text. -/
def movesOf (file text : String) : List Move :=
  (LexerState.start (.of file text)).moves (.of file text)

/-- The structured tags that are open after the first `n` tokens of a text. -/
def entriesAfter (file text : String) (n : Nat) : List Entry :=
  entriesFrom [] (movesOf file text) n

/-- The lexer after the first `n` tokens of a text. -/
def stateAfter (file text : String) (n : Nat) : LexerState :=
  ((consumed n (movesOf file text)).getLast?.map Move.after).getD (.start (.of file text))

variable {es : List Entry} {m : Move} {ms : List Move}

@[simp] theorem consumed_zero (ms : List Move) : consumed 0 ms = [] := by
  cases ms <;> rfl

@[simp] theorem consumed_nil (n : Nat) : consumed n [] = [] := by
  cases n <;> rfl

theorem consumed_isPrefix (n : Nat) (ms : List Move) : consumed n ms <+: ms := by
  induction ms generalizing n with
  | nil => simp
  | cons m ms ih =>
    cases n with
    | zero => simp
    | succ n =>
      rw [consumed]
      split
      · exact List.cons_prefix_cons.2 ⟨rfl, ih _⟩
      · exact List.nil_prefix

/-- Within a move the entries are those before it. -/
theorem entriesFrom_of_lt {n : Nat} (h : n < m.tokens.length) : entriesFrom es (m :: ms) n = es := by
  rw [entriesFrom]
  cases n with
  | zero => rw [consumed_zero]; rfl
  | succ n => rw [consumed, if_neg (by omega)]; rfl

/-- Past a move the entries are counted from it. -/
theorem entriesFrom_add (silent : m.tokens = [] → m.entries es = es) (n : Nat) :
    entriesFrom es (m :: ms) (m.tokens.length + n) = entriesFrom (m.entries es) ms n := by
  rw [entriesFrom, entriesFrom]
  cases hn : m.tokens.length + n with
  | zero =>
    rw [silent (List.length_eq_zero_iff.1 (by omega)), show n = 0 by omega, consumed_zero,
      consumed_zero]
  | succ k =>
    rw [consumed, if_pos (by omega), ← hn, Nat.add_sub_cancel_left, List.foldl_cons]

theorem entriesFrom_length (silent : m.tokens = [] → m.entries es = es) :
    entriesFrom es (m :: ms) m.tokens.length = m.entries es := by
  calc entriesFrom es (m :: ms) m.tokens.length
      = entriesFrom (m.entries es) ms 0 := entriesFrom_add silent 0
    _ = m.entries es := by rw [entriesFrom, consumed_zero]; rfl

/-- A last move that changes nothing. -/
theorem entriesFrom_singleton (silent : m.entries es = es) (n : Nat) : entriesFrom es [m] n = es := by
  rw [entriesFrom]
  cases n with
  | zero => rw [consumed_zero]; rfl
  | succ n =>
    rw [consumed]
    split
    · rw [consumed_nil]
      exact silent
    · rfl

end ServerMarkup
