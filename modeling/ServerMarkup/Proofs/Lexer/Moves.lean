/-
# The moves of the lexer

A run of the lexer is a list of moves, one for each step: the state before, the tokens that are
emitted and the state after.  `tokens_eq_flatMap_moves` says that the tokens of a run are those of
its moves.

A step preserves `LexerState.On`: both cursors stand in the source, the one where the gathered text
begins not after the other.  So every move begins in such a state and keeps to the rules (`Goes`),
but for the last one (`Move.Last`), which emits the text that is left: `goes_of_moves`.
-/

import ServerMarkup.Proofs.Lexer.Steps

namespace ServerMarkup

/-- A step of the lexer: the state before it, its tokens and the state after it. -/
structure Move where
  before : LexerState
  tokens : List Token
  after : LexerState
deriving DecidableEq, Repr

/-- The move at the end of the source: the text gathered before is emitted. -/
structure Move.Last (s : Source) (m : Move) : Prop where
  outside : m.before.raw = none
  atEnd : m.before.cursor.rest = []
  tokens_eq : m.tokens = m.before.gathered s
  after_eq : m.after = m.before

namespace LexerState

/-- The moves from a state to the end of the source. -/
def moves (s : Source) (st : LexerState) : List Move :=
  match _h : st.step s with
  | (ts, none) => [⟨st, ts, st⟩]
  | (ts, some next) => ⟨st, ts, next⟩ :: moves s next
termination_by st.measure
decreasing_by exact measure_step _h

variable {s : Source} {st next : LexerState} {ts : List Token} {m : Move}

theorem moves_of_step {ts : List Token} {next : LexerState} (h : st.step s = (ts, some next)) :
    st.moves s = ⟨st, ts, next⟩ :: next.moves s := by
  rw [moves]
  split <;> simp_all

theorem moves_of_last {ts : List Token} (h : st.step s = (ts, none)) :
    st.moves s = [⟨st, ts, st⟩] := by
  rw [moves]
  split <;> simp_all

/-- The first move of a run begins where the run does. -/
theorem exists_moves_eq_cons (s : Source) (st : LexerState) :
    ∃ m ms, st.moves s = m :: ms ∧ m.before = st := by
  rw [moves]
  split <;> exact ⟨_, _, rfl, rfl⟩

/-- The moves from one on are those of the state before it. -/
theorem moves_eq_of_append {ms ns : List Move} (h : st.moves s = ms ++ m :: ns) :
    m.before.moves s = m :: ns := by
  induction ms generalizing st with
  | nil =>
    obtain ⟨n, _, first, rfl⟩ := exists_moves_eq_cons s st
    obtain ⟨rfl, -⟩ := List.cons.inj (first.symm.trans h)
    exact h
  | cons n ms ih =>
    rw [moves, List.cons_append] at h
    split at h
    · have := (List.cons.inj h).2
      simp at this
    · exact ih (List.cons.inj h).2

/-- Each move but the last one is a step, and the others are those from the state after it. -/
theorem step_of_moves {ms ns : List Move} (h : st.moves s = ms ++ m :: ns) (more : ns ≠ []) :
    m.before.step s = (m.tokens, some m.after) ∧ m.after.moves s = ns := by
  have here := moves_eq_of_append h
  rw [moves] at here
  split at here
  · exact absurd (List.cons.inj here).2.symm more
  · next ts next hs =>
    obtain ⟨first, rfl⟩ := List.cons.inj here
    have tokens : ts = m.tokens := congrArg Move.tokens first
    have after : next = m.after := congrArg Move.after first
    exact ⟨by rw [hs, tokens, after], by rw [after]⟩

theorem tokens_eq_flatMap_moves (s : Source) (st : LexerState) :
    st.tokens s = (st.moves s).flatMap Move.tokens := by
  fun_induction moves s st with
  | case1 st ts h => simp [tokens_of_step h]
  | case2 st ts next h ih => simp [tokens_of_step h, ih]

theorem tokens_eq_of_moves {ms : List Move} (h : st.moves s = ms ++ next.moves s) :
    st.tokens s = ms.flatMap Move.tokens ++ next.tokens s := by
  rw [tokens_eq_flatMap_moves, h, List.flatMap_append, tokens_eq_flatMap_moves]

/-! ### The place of the lexer -/

/-- The lexer stands in the source, and the gathered text begins before its cursor. -/
structure On (s : Source) (st : LexerState) : Prop where
  cursor : st.cursor.On s
  text : st.text.On s
  text_le : st.text.offset ≤ st.cursor.offset

theorem on_start (s : Source) : (start s).On s :=
  ⟨Cursor.on_begin s, Cursor.on_begin s, Nat.le_refl _⟩

theorem On.addText (h : st.On s) (n : Nat) : (st.addText n).On s := by
  refine ⟨h.cursor.skip n, h.text, Nat.le_trans h.text_le ?_⟩
  have := st.cursor.offset_skip n
  show st.cursor.offset ≤ (st.cursor.skip n).offset
  omega

/-- What is taken apart leaves no text gathered. -/
theorem Takes.on (h : Takes s st ts next) (hc : st.cursor.On s) :
    next.cursor.On s ∧ next.text = next.cursor := by
  cases h with
  | whole _ _ _ => exact ⟨hc.skip _, rfl⟩
  | construct inner => exact ⟨inner.on hc, rfl⟩
  | openingTag _ _ _ inner => exact ⟨inner.on (hc.skip _), rfl⟩
  | loneTag _ _ _ inner => exact ⟨inner.on (hc.skip _), rfl⟩
  | closingTag _ _ _ inner => exact ⟨inner.on (hc.skip _), rfl⟩

theorem Goes.on (h : Goes s st ts next) (hs : st.On s) : next.On s := by
  cases h with
  | text _ _ => exact hs.addText _
  | literalTag _ _ =>
    have := hs.addText (st.startName.length + 1)
    exact ⟨this.cursor, this.text, this.text_le⟩
  | literalEnd _ _ =>
    have := hs.addText (st.endName.length + 2)
    exact ⟨this.cursor, this.text, this.text_le⟩
  | @rawEnd tag _ _ =>
    have := hs.addText (rawReach s tag st.cursor)
    exact ⟨this.cursor, this.text, this.text_le⟩
  | rawConstruct _ inner =>
    have hd := inner.on (hs.cursor.skip _)
    exact ⟨hd, hd, Nat.le_refl _⟩
  | taken _ takes =>
    obtain ⟨hd, ht⟩ := takes.on hs.cursor
    exact ⟨hd, ht ▸ hd, Nat.le_of_eq (ht ▸ rfl)⟩

/-- The lexer never goes back. -/
theorem offset_le_of_step (on : st.On s) (h : st.step s = (ts, some next)) :
    st.cursor.offset ≤ next.cursor.offset := by
  have shorter := measure_step h
  have here := on.cursor.length_rest
  have there := ((goes_of_step h).on on).cursor.length_rest
  have := on.cursor.offset_le
  have := ((goes_of_step h).on on).cursor.offset_le
  simp only [measure] at shorter
  split at shorter <;> split at shorter <;> omega

/-- Outside the body of a script or style sheet it goes forward. -/
theorem offset_lt_of_step (on : st.On s) (outside : st.raw = none)
    (h : st.step s = (ts, some next)) : st.cursor.offset < next.cursor.offset := by
  have shorter := measure_step h
  have here := on.cursor.length_rest
  have there := ((goes_of_step h).on on).cursor.length_rest
  have := on.cursor.offset_le
  have := ((goes_of_step h).on on).cursor.offset_le
  simp only [measure, outside, Option.isSome_none, Bool.false_eq_true, if_false] at shorter
  omega

/-! ### The moves of a run -/

/-- Every move keeps to the rules and the others go on after it, or it is the last one. -/
theorem goes_of_moves {ms ns : List Move} (h : st.On s) (hm : st.moves s = ms ++ m :: ns) :
    m.before.On s ∧
      (Goes s m.before m.tokens m.after ∧ ns = m.after.moves s ∨ m.Last s ∧ ns = []) := by
  induction ms generalizing st with
  | nil =>
    rw [moves, List.nil_append] at hm
    split at hm
    · next ts hs =>
      obtain ⟨rfl, rfl⟩ := List.cons.inj hm
      obtain ⟨outside, atEnd, rfl⟩ := eq_gathered_of_step hs
      exact ⟨h, .inr ⟨⟨outside, atEnd, rfl, rfl⟩, rfl⟩⟩
    · next ts next hs =>
      obtain ⟨rfl, rfl⟩ := List.cons.inj hm
      exact ⟨h, .inl ⟨goes_of_step hs, rfl⟩⟩
  | cons n ms ih =>
    rw [moves, List.cons_append] at hm
    split at hm
    · have := (List.cons.inj hm).2
      simp at this
    · next ts next hs => exact ih ((goes_of_step hs).on h) (List.cons.inj hm).2

theorem goes_of_mem_moves (h : st.On s) (hm : m ∈ st.moves s) :
    m.before.On s ∧ (Goes s m.before m.tokens m.after ∨ m.Last s) := by
  obtain ⟨ms, ns, hm⟩ := List.append_of_mem hm
  obtain ⟨on, ⟨goes, -⟩ | ⟨last, -⟩⟩ := goes_of_moves h hm
  · exact ⟨on, .inl goes⟩
  · exact ⟨on, .inr last⟩

theorem offset_le_of_mem_moves (on : st.On s) (hm : m ∈ st.moves s) :
    st.cursor.offset ≤ m.before.cursor.offset := by
  fun_induction moves s st with
  | case1 st ts h =>
    obtain rfl := List.mem_singleton.1 hm
    exact Nat.le_refl _
  | case2 st ts next h ih =>
    rcases List.mem_cons.1 hm with rfl | hm
    · exact Nat.le_refl _
    · exact Nat.le_trans (offset_le_of_step on h) (ih ((goes_of_step h).on on) hm)

/-- The moves before one that begin outside a body begin before it. -/
theorem offset_lt_of_moves {ms ns : List Move} {k : Move} (on : st.On s)
    (run : st.moves s = ms ++ k :: ns) (hm : m ∈ ms) (outside : m.before.raw = none) :
    m.before.cursor.offset < k.before.cursor.offset := by
  obtain ⟨front, more, rfl⟩ := List.append_of_mem hm
  rw [List.append_assoc, List.cons_append] at run
  obtain ⟨hs, behind⟩ := step_of_moves run (by simp)
  obtain ⟨here, -⟩ := goes_of_moves on run
  have mem : k ∈ m.after.moves s := by simp [behind]
  exact Nat.lt_of_lt_of_le (offset_lt_of_step here outside hs)
    (offset_le_of_mem_moves ((goes_of_step hs).on here) mem)

/-- At the end of the source nothing is left to emit but gathered text. -/
theorem tokens_eq_nil (atEnd : st.cursor.rest = []) (text : st.text = st.cursor) :
    st.tokens s = [] := by
  have last {st : LexerState} (outside : st.raw = none) (atEnd : st.cursor.rest = [])
      (text : st.text = st.cursor) : st.tokens s = [] := by
    have hs : st.step s = ([], none) := by simp [step, outside, atEnd, gathered, text]
    rw [tokens_of_step hs]
    rfl
  cases hr : st.raw with
  | none => exact last hr atEnd text
  | some tag =>
    have same : st.addText (rawReach s tag st.cursor) = st := by
      have reach : rawReach s tag st.cursor = 0 := by rw [rawReach, atEnd]; rfl
      rw [reach, addText, Cursor.skip_zero]
    have plain : readConstruct? s st.cursor = none := by
      rw [readConstruct?_eq_none_iff, atEnd]
      rfl
    have hs : st.step s = ([], some { st with raw := none }) := by
      simp only [step, hr, rawStep]
      rw [same, plain]
      rfl
    rw [tokens_of_step hs]
    exact last rfl atEnd text

end LexerState
end ServerMarkup
