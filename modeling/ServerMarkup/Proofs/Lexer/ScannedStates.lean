/-
# A step of the lexer with a memory

What the loops read at a cursor they read between two steps: a look ahead over a tag finds what
`inspectTag` finds, and outside the body of a script or style sheet a step is the one of the lexer
with horizons.  In such a body the loop goes on to its end, over as many steps as constructs stand
in it (`exists_scanRaw`).

So a step with a memory returns wherever the lexer stands (`exists_scan`).  It comes forward, or it
leaves such a body without a character, or it is the last one.
-/

import ServerMarkup.Proofs.Lexer.Inspection
import ServerMarkup.Proofs.Lexer.Moves
import ServerMarkup.Proofs.Lexer.Scanned

namespace ServerMarkup

open Scan

variable {s : Source} {i start : Nat} {quote last : Option Char} {runat : Bool}

/-! ### A look ahead over a tag -/

/-- Characters that belong to a block are passed over, and the last of them is kept in mind. -/
theorem inspectFrom_skip {n : Nat} (within : i + n ≤ s.text.length) :
    inspectFrom s i n quote last runat (s.text.drop i) =
      inspectFrom s (i + n) 0 quote (if n = 0 then last else s.text[i + n - 1]?) runat
        (s.text.drop (i + n)) := by
  induction n generalizing i last with
  | zero => rfl
  | succ n ih =>
    have here : i < s.text.length := by omega
    rw [List.drop_eq_getElem_cons here, inspectFrom, ih (by omega), if_neg (Nat.succ_ne_zero n),
      Nat.add_right_comm i 1 n, Nat.add_assoc i n 1, Nat.add_sub_assoc (Nat.le_add_left 1 n)]
    cases n with
    | zero =>
      rw [if_pos rfl, ← List.getElem?_eq_getElem here]
      rfl
    | succ n => rw [if_neg (Nat.succ_ne_zero n)]

/-- The character before a place, unless the look ahead has begun there. -/
def Source.before (s : Source) (start i : Nat) : Option Char :=
  if start < i then s.text[i - 1]? else none

/-- Behind a block the look ahead goes on. -/
theorem inspectFrom_block (honest : s.Honest) {n : Nat} {c : Char} {cs : List Char}
    (le : start ≤ i) (rest : s.text.drop i = c :: cs)
    (ahead : s.ahead? .code (i + 2) (cs.drop 1) = some n) :
    inspectFrom s (i + 1) (n + 3) quote (some c) runat cs =
      inspectFrom s (i + 2 + n + 2) 0 quote (s.before start (i + 2 + n + 2)) runat
        (s.text.drop (i + 2 + n + 2)) := by
  have next : s.text.drop (i + 1) = cs := Source.drop_of_cons rest
  rw [← next, List.drop_drop] at ahead
  have size := length_le_of_distance? (honest.ahead?_eq ▸ ahead)
  rw [List.length_drop] at size
  have mark : EndMark.code.chars.length = 2 := rfl
  rw [← next, inspectFrom_skip (by omega), if_neg (Nat.succ_ne_zero _), Source.before,
    if_pos (by omega), show i + 1 + (n + 3) = i + 2 + n + 2 by omega]

theorem returns_scanShape (honest : s.Honest) (le : start ≤ i) :
    Returns s (scanShape s start quote runat i)
      (inspectFrom s i 0 quote (s.before start i) runat (s.text.drop i)) := by
  generalize size : s.text.length - i = room
  induction room using Nat.strongRecOn generalizing i quote runat with
  | ind room ih =>
  refine .of_succ ?_
  simp only [scanShape]
  cases rest : s.text.drop i with
  | nil => exact returns_pure _
  | cons c cs =>
    have next : s.text.drop (i + 1) = cs := Source.drop_of_cons rest
    have here : s.text[i]? = some c := by
      rw [← List.head?_drop, rest]
      rfl
    obtain ⟨within, -⟩ := List.getElem?_eq_some_iff.1 here
    have further (quote : Option Char) (runat : Bool) :
        Returns s (scanShape s start quote runat (i + 1))
          (inspectFrom s (i + 1) 0 quote (some c) runat cs) := by
      have later := @ih (s.text.length - (i + 1)) (by omega) (i + 1) quote runat
        (Nat.le_succ_of_le le) rfl
      rwa [Source.before, if_pos (Nat.lt_succ_of_le le), Nat.add_sub_cancel, here, next] at later
    rw [inspectFrom.eq_def]
    dsimp only
    split
    · -- A block, if its end mark follows; the search begins behind the opening.
      have found : s.first? .code (i + 2) =
          (s.ahead? .code (i + 2) (cs.drop 1)).map (i + 2 + ·) := by
        rw [← next, List.drop_drop]
        exact honest.first?_eq .code (i + 2)
      refine (returns_find s .code (i + 2)).bind ?_
      rw [found]
      cases ahead : s.ahead? .code (i + 2) (cs.drop 1) with
      | none => exact returns_pure _
      | some n =>
        change Returns s (scanShape s start quote runat (i + 2 + n + 2))
          (inspectFrom s (i + 1) (n + 3) quote (some c) runat cs)
        rw [inspectFrom_block honest le rest ahead]
        exact ih (s.text.length - (i + 2 + n + 2)) (by omega) (by omega) rfl
    · cases quote with
      | some q => exact further _ _
      | none =>
        dsimp only
        split
        · -- The end of the tag.
          have slash : (s.before start i == some '/') =
              (decide (start < i) && s.text[i - 1]? == some '/') := by
            unfold Source.before
            split <;> simp [*]
          rw [slash]
          exact returns_pure _
        split
        · exact returns_pure _
        split
        · exact further _ _
        · exact further _ _

/-- The loop over a tag finds what the look ahead finds. -/
theorem returns_inspectTag (honest : s.Honest) {c : Cursor} (on : c.On s) :
    Returns s (scanShape s c.offset none false c.offset) (inspectTag s c) := by
  have found : Returns s (scanShape s c.offset none false c.offset)
      (inspectFrom s c.offset 0 none (s.before c.offset c.offset) false (s.text.drop c.offset)) :=
    returns_scanShape honest (Nat.le_refl _)
  rwa [Source.before, if_neg (Nat.lt_irrefl _), ← on.rest_eq] at found

/-! ### A step outside a raw body -/

namespace LexerState

variable {st : LexerState} {c : Cursor}

theorem returns_scanEnclosed? (honest : s.Honest) (on : st.cursor.On s) (kind : TokenKind)
    (lead : Nat) (m : EndMark) :
    Returns s (fun _ => st.scanEnclosed? s kind lead m) (st.enclosed? s kind lead m) := by
  have found : s.first? m (st.cursor.offset + lead) =
      (s.ahead? m (st.cursor.offset + lead) (st.cursor.rest.drop lead)).map
        (st.cursor.offset + lead + ·) := by
    rw [on.rest_eq, List.drop_drop]
    exact honest.first?_eq m (st.cursor.offset + lead)
  refine (returns_find s m (st.cursor.offset + lead)).bind ?_
  rw [found, enclosed?]
  cases s.ahead? m (st.cursor.offset + lead) (st.cursor.rest.drop lead) with
  | none => exact returns_pure _
  | some n =>
    have size : st.cursor.offset + lead + n + m.chars.length - st.cursor.offset =
        lead + n + m.chars.length := by omega
    dsimp only [Option.map_some]
    rw [size]
    exact returns_pure _

/-- A construct is read or not, as the reader says. -/
theorem returns_readConstruct? (honest : s.Honest) (on : c.On s) :
    Returns s (scanConstruct? s c) ((readConstruct? s c).map Reading.result) := by
  cases read : readConstruct? s c with
  | none => exact returns_scanConstruct?_none honest on (readConstruct?_eq_none_iff.1 read)
  | some r => exact (reads_readConstruct? read).scanned honest on

theorem returns_scanStartTag (honest : s.Honest) (on : st.cursor.On s) (n : Nat) :
    Returns s (st.scanStartTag s n) (st.startTag s n) := by
  have behind := on.skip (n + 1)
  refine (returns_inspectTag honest behind).bind ?_
  unfold startTag
  dsimp only
  split
  · refine ((reads_readTagBody s (st.cursor.skip (n + 1))).scanned honest behind).bind ?_
    dsimp only
    split <;> exact returns_pure _
  · exact returns_pure _

theorem returns_scanMarkup? (honest : s.Honest) (on : st.cursor.On s) :
    Returns s (st.scanMarkup? s) (st.markup? s) := by
  unfold scanMarkup? markup?
  dsimp only
  split
  · exact returns_scanEnclosed? honest on _ _ _
  split
  · refine (returns_readConstruct? honest on).bind ?_
    rw [Option.map_map]
    exact returns_pure _
  split
  · exact returns_scanEnclosed? honest on _ _ _
  split
  · split <;> exact returns_pure _
  split
  · split
    · exact (returns_scanStartTag honest on _).bind (returns_pure _)
    · exact returns_pure _
  · exact returns_pure _

/-- Outside the body of a script or style sheet a step is the one of the lexer with horizons. -/
theorem returns_scan_of_outside (honest : s.Honest) (on : st.cursor.On s)
    (outside : st.raw = none) : Returns s (st.scan s) (st.step s) := by
  unfold scan step
  rw [outside]
  dsimp only
  split
  · exact returns_pure _
  · refine (returns_scanMarkup? honest on).bind ?_
    cases st.markup? s <;> exact returns_pure _

/-! ### The body of a script or style sheet -/

/-- The characters in front of a construct or of the closing tag are passed over one by one. -/
theorem returns_scanRaw {tag : String} {r : List Token × LexerState} (honest : s.Honest)
    (on : st.cursor.On s)
    (h : Returns s (scanRaw s tag (st.addText (rawReach s tag st.cursor))) r) :
    Returns s (scanRaw s tag st) r := by
  refine passes_to_reach (c := st.cursor)
    (P := fun d => Returns s (scanRaw s tag { st with cursor := d }) r) h ?_
  intro i within going next
  rw [Bool.or_eq_false_iff, ← Cursor.offset_skip_of_le (Nat.le_of_lt within),
    ← Cursor.rest_skip] at going
  have left : (st.cursor.skip i).rest ≠ [] := by
    rw [Cursor.rest_skip, Ne, List.drop_eq_nil_iff]
    omega
  have further : ¬ ((st.cursor.skip i).rest = [] || closesRaw tag (st.cursor.skip i).rest) := by
    rw [decide_eq_false left, going.1]
    decide
  have plain := Option.isNone_iff_eq_none.1 (Option.isSome_eq_false_iff.1 going.2)
  refine .of_succ ?_
  simp only [scanRaw]
  refine .ite_neg further ?_
  exact returns_ite_completes_none honest (on.skip i) plain next

theorem returns_scanRaw_end {tag : String}
    (ends : st.cursor.rest = [] ∨ closesRaw tag st.cursor.rest = true) :
    Returns s (scanRaw s tag st) ([], st) := by
  refine .of_succ ?_
  simp only [scanRaw]
  exact .ite_pos (by simpa using ends) (returns_pure _)

theorem returns_scanRaw_construct {tag : String} {ts us : List Token} {d : Cursor}
    {last : LexerState} (honest : s.Honest) (on : st.cursor.On s)
    (first : Reads s .construct st.cursor ts d)
    (more : Returns s (scanRaw s tag (st.emit s ts d).2) (us, last)) :
    Returns s (scanRaw s tag st) ((st.emit s ts d).1 ++ us, last) := by
  have going : ¬ (st.cursor.rest = [] || closesRaw tag st.cursor.rest) := by
    obtain ⟨cs, hcs⟩ := List.isPrefixOf_iff_prefix.1 first.sees_opening
    rw [← hcs]
    simp [closesRaw]
  refine .of_succ ?_
  simp only [scanRaw]
  refine .ite_neg going ?_
  refine returns_ite_completes honest on first.construct?_ne_none ?_
  exact (first.scanned honest on).bind (more.bind (returns_pure _))

/-- **The loop over a body comes to its end.**  Its tokens are those of the steps up to there. -/
theorem exists_scanRaw {tag : String} (honest : s.Honest) (on : st.On s)
    (inside : st.raw = some tag) : ∃ ts next,
      Returns s (scanRaw s tag { st with raw := none }) (ts, next) ∧
        st.tokens s = ts ++ next.tokens s ∧ next.On s ∧ next.raw = none ∧
        next.cursor.rest.length ≤ st.cursor.rest.length := by
  generalize size : st.cursor.rest.length = room
  induction room using Nat.strongRecOn generalizing st with
  | ind room ih =>
  have further : (st.addText (rawReach s tag st.cursor)).cursor.rest.length =
      st.cursor.rest.length - rawReach s tag st.cursor := st.cursor.length_rest_skip _
  have step : st.step s = (rawStep s tag st).map id some := by rw [LexerState.step, inside]
  rw [rawStep] at step
  cases read : readConstruct? s (st.addText (rawReach s tag st.cursor)).cursor with
  | none =>
    rw [read] at step
    have ends := closesRaw_rawReach (readConstruct?_eq_none_iff.1 read)
    exact ⟨[], { st.addText (rawReach s tag st.cursor) with raw := none },
      returns_scanRaw honest on.cursor (returns_scanRaw_end ends), tokens_of_step step,
      (goes_of_step step).on on, rfl, by simp only [further]; omega⟩
  | some r =>
    rw [read] at step
    have first := reads_readConstruct? read
    have shorter := r.shorter
    obtain ⟨us, last, rest, tokens, onLast, outside, length⟩ :=
      ih r.next.rest.length (by omega) ((goes_of_step step).on on) inside rfl
    refine ⟨_, last, returns_scanRaw honest on.cursor
      (returns_scanRaw_construct honest (on.cursor.skip _) first rest), ?_, onLast, outside,
      by omega⟩
    rw [tokens_of_step step, List.append_assoc, ← tokens]
    rfl

/-! ### A step -/

/-- The lexer has come forward, or it has left the body of a script or style sheet at its place. -/
def Forward (st next : LexerState) : Prop :=
  st.cursor.offset < next.cursor.offset ∨
    st.raw.isSome = true ∧ next.raw = none ∧ next.cursor.offset = st.cursor.offset

/-- What a step with a memory comes to: it goes on with the tokens that are left, or it is the last
one. -/
inductive Comes (s : Source) (st : LexerState) : List Token → Option LexerState → Prop where
  | onward {ts next} (tokens : st.tokens s = ts ++ next.tokens s) (on : next.On s)
      (forward : st.Forward next) : Comes s st ts (some next)
  | ended (outside : st.raw = none) (atEnd : st.cursor.rest = []) :
      Comes s st (st.gathered s) none

variable {next : LexerState}

/-- A lexer that has come forward has less to do. -/
theorem Forward.measure_lt (forward : st.Forward next) (on : st.On s) (onNext : next.On s) :
    next.measure < st.measure := by
  have here := on.cursor.length_rest
  have there := onNext.cursor.length_rest
  have within := onNext.cursor.offset_le
  unfold measure
  rcases forward with more | ⟨inside, outside, same⟩
  · split <;> split <;> omega
  · rw [inside, outside, here, there, same]
    simp

theorem comes_of_step {ts : List Token} {next : Option LexerState} (on : st.On s)
    (outside : st.raw = none) (step : st.step s = (ts, next)) : Comes s st ts next := by
  cases next with
  | none =>
    obtain ⟨-, atEnd, rfl⟩ := eq_gathered_of_step step
    exact .ended outside atEnd
  | some next =>
    have onNext := (goes_of_step step).on on
    refine .onward (tokens_of_step step) onNext (.inl ?_)
    have less := measure_step step
    have here := on.cursor.length_rest
    have there := onNext.cursor.length_rest
    unfold measure at less
    rw [outside] at less
    simp only [Option.isSome_none, Bool.false_eq_true, if_false] at less
    omega

/-- **A step with a memory returns**, wherever the lexer stands and whatever it remembers. -/
theorem exists_scan (honest : s.Honest) (on : st.On s) :
    ∃ ts next, Returns s (st.scan s) (ts, next) ∧ Comes s st ts next := by
  cases raw : st.raw with
  | none =>
    exact ⟨_, _, returns_scan_of_outside honest on.cursor raw, comes_of_step on raw rfl⟩
  | some tag =>
    obtain ⟨ts, next, body, tokens, onNext, outside, length⟩ := exists_scanRaw honest on raw
    refine ⟨ts, some next, ?_, .onward tokens onNext ?_⟩
    · unfold scan
      rw [raw]
      exact body.bind (returns_pure _)
    · have here := on.cursor.length_rest
      have there := onNext.cursor.length_rest
      have within := on.cursor.offset_le
      have within' := onNext.cursor.offset_le
      rcases Nat.lt_or_ge st.cursor.offset next.cursor.offset with more | still
      · exact .inl more
      · exact .inr ⟨by rw [raw]; rfl, outside, by omega⟩

end LexerState
end ServerMarkup
