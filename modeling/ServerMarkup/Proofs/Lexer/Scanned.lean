/-
# The lexer with a memory reads what the lexer with horizons reads

The rules of `Reads` say what the readers do at a cursor.  A reader that goes on character by
character and searches with a memory does the same (`Reads.scanned`): it returns, from every sound
memory, with the tokens and the cursor of the rule.  The induction is on the rules, so every loop
of it ends where the rules do.

A construct is asked for before it is read, and the two searches are apart in time; that they agree
is what keeps a loop from standing still (`returns_completes`, `Reads.scanned`).
-/

import ServerMarkup.Lexer.Scanner
import ServerMarkup.Proofs.Lexer.Alike
import ServerMarkup.Proofs.Lexer.Determined
import ServerMarkup.Proofs.Lexer.Searches
import ServerMarkup.Proofs.Lexer.Sound

namespace ServerMarkup

open Scan

variable {s : Source} {c d : Cursor} {ts : List Token} {o : Opening} {m : EndMark} {n start : Nat}

/-! ### Constructs -/

/-- Going through the text finds what the horizons tell. -/
theorem Source.Honest.first?_eq (honest : s.Honest) (m : EndMark) (start : Nat) :
    s.first? m start = (s.ahead? m start (s.text.drop start)).map (start + ·) := by
  rw [honest.ahead?_eq]
  rfl

/-- A search may begin behind a place where the mark does not occur. -/
theorem Source.first?_succ (away : ¬ s.Has m start) :
    s.first? m start = s.first? m (start + 1) := by
  refine (s.first_first? m start).unique ?_
  have later := s.first_first? m (start + 1)
  have not_here {j : Nat} (hj : start ≤ j) (next : start + 1 ≤ j → ¬ s.Has m j) : ¬ s.Has m j := by
    rcases Nat.eq_or_lt_of_le hj with rfl | more
    · exact away
    · exact next more
  cases found : s.first? m (start + 1) with
  | none =>
    rw [found] at later
    exact fun j hj => not_here hj (later j)
  | some i =>
    rw [found] at later
    obtain ⟨le, here, before⟩ := later
    exact ⟨by omega, here, fun j hj less => not_here hj fun more => before j more less⟩

/-- The end mark of an opening does not begin in it. -/
theorem first?_lead (on : c.On s) (opens : Opening.of? c.rest = some o) :
    s.first? o.endMark (c.offset + o.lead) = s.first? o.endMark (c.offset + o.width) := by
  have beyond (third : (c.rest.drop 2).head? ≠ some '%') : ¬ s.Has .code (c.offset + 2) := by
    rw [Source.Has, ← List.drop_drop, ← on.rest_eq]
    exact fun mark => third (head?_of_prefix_cons mark)
  unfold Opening.of? at opens
  split at opens
  · next rest hrest =>
    split at opens
    all_goals
      obtain rfl := Option.some.inj opens
    · rfl
    · exact Source.first?_succ (beyond (by simp [hrest]))
    · exact Source.first?_succ (beyond (by simp [hrest]))
    · exact Source.first?_succ (beyond (by simp [hrest]))
    · exact Source.first?_succ (beyond (by simp [hrest]))
    · rfl
  · cases opens

/-- The end mark of a construct is what the search for it finds. -/
theorem first?_of_opening (honest : s.Honest) (on : c.On s) (opens : Opening.of? c.rest = some o) :
    s.first? o.endMark (c.offset + o.lead) =
      (s.construct? c.offset c.rest).map fun x => c.offset + o.width + x.2 := by
  rw [first?_lead on opens, honest.first?_eq, Source.construct?, opens, on.rest_eq]
  simp only [Option.bind_eq_bind, Option.bind_some, List.drop_drop]
  cases s.ahead? o.endMark (c.offset + o.width) (s.text.drop (c.offset + o.width)) <;> rfl

theorem of?_of_construct? (found : s.construct? c.offset c.rest = some (o, n)) :
    Opening.of? c.rest = some o := by
  unfold Source.construct? at found
  simp only [Option.bind_eq_bind, Option.bind_eq_some_iff, Option.pure_def, Option.some.injEq,
    Prod.mk.injEq] at found
  obtain ⟨o', opens, -, -, rfl, -⟩ := found
  exact opens

/-- It is known beforehand whether a construct will be read. -/
theorem returns_completes (honest : s.Honest) (on : c.On s) :
    Returns s (fun _ => completes s c) (s.construct? c.offset c.rest).isSome := by
  unfold completes
  cases opens : Opening.of? c.rest with
  | none =>
    have none : s.construct? c.offset c.rest = none := by rw [Source.construct?, opens]; rfl
    rw [none]
    exact returns_pure false
  | some o =>
    have found := first?_of_opening honest on opens
    refine (returns_find s o.endMark (c.offset + o.lead)).bind ?_
    rw [found, Option.isSome_map]
    exact returns_pure _

/-- What is read at a cursor is a construct only if it is known to be one. -/
theorem returns_ite_completes {α : Type} {x y : Nat → Scan α} {a : α} (honest : s.Honest)
    (on : c.On s) (found : s.construct? c.offset c.rest ≠ none) (h : Returns s x a) :
    Returns s (fun turns => do if ← completes s c then x turns else y turns) a := by
  refine (returns_completes honest on).bind ?_
  rw [Option.isSome_iff_ne_none.2 found]
  exact h

theorem returns_ite_completes_none {α : Type} {x y : Nat → Scan α} {a : α} (honest : s.Honest)
    (on : c.On s) (plain : s.construct? c.offset c.rest = none) (h : Returns s y a) :
    Returns s (fun turns => do if ← completes s c then x turns else y turns) a := by
  refine (returns_completes honest on).bind ?_
  rw [plain]
  exact h

theorem returns_scanConstruct?_none (honest : s.Honest) (on : c.On s)
    (plain : s.construct? c.offset c.rest = none) : Returns s (scanConstruct? s c) none := by
  refine .of_succ ?_
  simp only [scanConstruct?]
  cases opens : Opening.of? c.rest with
  | none => exact returns_pure none
  | some o =>
    have found := first?_of_opening honest on opens
    rw [plain] at found
    refine (returns_find s o.endMark (c.offset + o.lead)).bind ?_
    rw [found]
    exact returns_pure none

/-- A construct is read as far as the search for its end mark goes, and a directive as far as what
it holds (`r`). -/
theorem returns_scanConstruct? (honest : s.Honest) (on : c.On s)
    (found : s.construct? c.offset c.rest = some (o, n)) (r : List Token × Cursor)
    (inner : o = .directive → Returns s (scanDirective s (c.skip 3)) r) :
    Returns s (scanConstruct? s c) (some (match o with
      | .comment => ([s.commentToken c n], c.skip (n + 8))
      | .directive => (.whole .startDirective (s.excerpt c 3) :: r.1, r.2)
      | .code kind => ([s.codeToken c kind n], c.skip ((Opening.code kind).width + n + 2)))) := by
  have opens := of?_of_construct? found
  have first := first?_of_opening honest on opens
  rw [found, Option.map_some] at first
  refine .of_succ ?_
  simp only [scanConstruct?, opens]
  refine (returns_find s o.endMark (c.offset + o.lead)).bind ?_
  rw [first]
  cases o with
  | comment =>
    have size : c.offset + Opening.comment.width + n + 4 - c.offset = n + 8 := by
      simp only [Opening.width]
      omega
    dsimp only
    rw [size, Nat.add_sub_cancel]
    exact returns_pure _
  | directive => exact (inner rfl).bind (returns_pure _)
  | code kind =>
    have size : c.offset + (Opening.code kind).width + n + 2 - c.offset =
        (Opening.code kind).width + n + 2 := by omega
    have inside : (Opening.code kind).width + n + 2 - (Opening.code kind).width - 2 = n := by omega
    dsimp only
    rw [size, inside]
    exact returns_pure _

theorem returns_scanAttribute?_none {place : Place} (unnamed : nameReach place c = 0) :
    Returns s (scanAttribute? s place c) none := by
  refine .of_succ ?_
  simp only [scanAttribute?, if_pos unnamed]
  exact returns_pure none

/-! ### Loops over characters -/

theorem Cursor.offset_skip_of_le (le : n ≤ c.rest.length) : (c.skip n).offset = c.offset + n := by
  rw [c.offset_skip, Nat.min_eq_left le]

/-- A loop that goes on by one character wherever nothing stops it comes to where something does. -/
theorem passes_to_reach {P : Cursor → Prop} {stop : Nat → List Char → Bool}
    (h : P (c.skip (reach stop c.rest)))
    (pass : ∀ i < c.rest.length, stop i (c.rest.drop i) = false → P ((c.skip i).skip 1) →
      P (c.skip i)) : P c := by
  have back (k : Nat) (hk : k ≤ reach stop c.rest) : P (c.skip (reach stop c.rest - k)) := by
    induction k with
    | zero => exact h
    | succ k ih =>
      have within := reach_le stop c.rest
      refine pass _ (by omega) (not_stop_of_lt_reach (by omega)) ?_
      rw [Cursor.skip_skip, show reach stop c.rest - (k + 1) + 1 = reach stop c.rest - k by omega]
      exact ih (by omega)
  have whole := back (reach stop c.rest) (Nat.le_refl _)
  rwa [Nat.sub_self, Cursor.skip_zero] at whole

/-- The characters of a fragment are passed over one by one. -/
theorem returns_scanQuoted {q : Char} {split : Bool} {r : List Token × Cursor}
    (honest : s.Honest) (on : c.On s)
    (h : Returns s (scanQuoted s q split c (c.skip (fragmentReach s q c))) r) :
    Returns s (scanQuoted s q split c c) r := by
  refine passes_to_reach (P := fun d => Returns s (scanQuoted s q split c d) r) h ?_
  intro i within going next
  rw [Bool.or_eq_false_iff, beq_eq_false_iff_ne, ← Cursor.offset_skip_of_le (Nat.le_of_lt within),
    ← Cursor.rest_skip] at going
  obtain ⟨unquoted, plain⟩ := going
  have further : ¬ (c.skip i).rest.head?.all (· == q) = true := by
    rw [Cursor.rest_skip, List.head?_drop, List.getElem?_eq_getElem within] at unquoted ⊢
    simpa using unquoted
  refine .of_succ ?_
  simp only [scanQuoted]
  refine .ite_neg further ?_
  exact returns_ite_completes_none honest (on.skip i)
    (Option.isNone_iff_eq_none.1 (Option.isSome_eq_false_iff.1 plain)) next

/-! ### The rules -/

/-- The loop that reads a part returns with the tokens and the cursor. -/
def Part.Scans (s : Source) (c : Cursor) (ts : List Token) (d : Cursor) : Part → Prop
  | .construct => Returns s (scanConstruct? s c) (some (ts, d))
  | .directive => Returns s (scanDirective s c) (ts, d)
  | .attribute place => Returns s (scanAttribute? s place c) (some (ts, d))
  | .quoted q alone => q ≠ '<' → Returns s (scanQuoted s q (!alone) c c) (ts, d)
  | .body ending => Returns s (scanTagBody s c) ((ts, d), ending)
  | .closing => True

/-- The fragment that a loop has gone through. -/
theorem fragment_eq (s : Source) (q : Char) (alone : Bool) (c : Cursor) :
    (if c.offset < (c.skip (fragmentReach s q c)).offset || alone then
      [Token.whole .attributeValue
        (s.excerpt c ((c.skip (fragmentReach s q c)).offset - c.offset))]
    else []) = s.fragment q alone c := by
  have reached : (c.skip (fragmentReach s q c)).offset = c.offset + fragmentReach s q c :=
    Cursor.offset_skip_of_le (reach_le _ _)
  rw [reached, Nat.add_sub_cancel_left, Source.fragment]
  rcases Nat.eq_zero_or_pos (fragmentReach s q c) with none | some
  · cases alone <;> simp [none]
  · simp [some, Nat.ne_of_gt some]

theorem ne_open_of_quote? {cs : List Char} {q : Char} (h : quote? cs = some q) : q ≠ '<' := by
  rcases eq_of_quote? h with rfl | rfl <;> decide

theorem Reads.sees_opening (h : Reads s .construct c ts d) : c.sees ['<', '%'] = true := by
  refine List.isPrefixOf_iff_prefix.2 (Decidable.by_contra fun plain => ?_)
  exact h.construct?_ne_none (construct?_eq_none plain _)

/-- **The loops read what the rules say.** -/
theorem Reads.scanned {part : Part} (h : Reads s part c ts d) (honest : s.Honest) (on : c.On s) :
    part.Scans s c ts d := by
  induction h with
  | @comment c n found | @code c kind n found =>
    exact returns_scanConstruct? honest on found ([], c) (by intro h; cases h)
  | @directive c n ts d found _ ih =>
    exact returns_scanConstruct? honest on found (ts, d) fun _ => ih (on.skip 3)
  | directiveCut atEnd =>
    refine .of_succ ?_
    simp only [scanDirective]
    exact .ite_pos atEnd (returns_pure _)
  | directiveEnd closed =>
    refine .of_succ ?_
    simp only [scanDirective]
    exact .ite_neg (rest_ne_nil_of_sees closed) (.ite_pos closed (returns_pure _))
  | @directiveAttribute c _ _ _ _ first _ ih₁ ih₂ =>
    have going : ¬ c.skipBlanks.sees ['%', '>'] = true :=
      not_sees_of_named first.named fun _ => rfl
    refine .of_succ ?_
    simp only [scanDirective]
    refine .ite_neg (rest_ne_nil_of_named first.named) (.ite_neg going ?_)
    exact (ih₁ on.skipBlanks).bind ((ih₂ (first.on on.skipBlanks)).bind (returns_pure _))
  | directiveStray left going unnamed _ ih =>
    refine .of_succ ?_
    simp only [scanDirective]
    refine .ite_neg left (.ite_neg (Bool.not_eq_true _ ▸ going) ?_)
    exact (returns_scanAttribute?_none unnamed).bind (ih (on.skipBlanks.skip 1))
  | bare named valueless =>
    refine .of_succ ?_
    simp only [scanAttribute?]
    exact .ite_neg named (.ite_neg valueless (returns_pure _))
  | unquoted named valued plain =>
    refine .of_succ ?_
    simp only [scanAttribute?, plain]
    exact .ite_neg named (.ite_pos valued (returns_pure _))
  | quoted named valued opened _ ih =>
    refine .of_succ ?_
    simp only [scanAttribute?, opened]
    refine .ite_neg named (.ite_pos valued ?_)
    exact (ih (on.afterName.afterEquals.skip 1) (ne_open_of_quote? opened)).bind (returns_pure _)
  | @quotedConstruct q alone c ts d us e inner _ ih₁ ih₂ =>
    intro other
    have unquoted : ¬ (c.skip (fragmentReach s q c)).rest.head?.all (· == q) = true := by
      rw [inner.opens]
      simpa using other.symm
    have fragment := fragment_eq s q false c
    simp only [Bool.or_false, decide_eq_true_eq] at fragment
    refine returns_scanQuoted honest on (.of_succ ?_)
    simp only [scanQuoted, fragment]
    refine .ite_neg unquoted ?_
    refine returns_ite_completes honest (on.skip _) inner.construct?_ne_none ?_
    exact (ih₁ (on.skip _)).bind ((ih₂ (inner.on (on.skip _)) other).bind (returns_pure _))
  | @quotedEnd q alone c plain =>
    intro other
    refine returns_scanQuoted honest on (.of_succ ?_)
    simp only [scanQuoted, Bool.not_not, fragment_eq]
    exact .ite_pos (head?_after_fragment plain) (returns_pure _)
  | bodyCut atEnd =>
    refine .of_succ ?_
    simp only [scanTagBody]
    exact .ite_pos atEnd (returns_pure _)
  | bodyOpened closed =>
    refine .of_succ ?_
    simp only [scanTagBody]
    exact .ite_neg (rest_ne_nil_of_sees closed) (.ite_pos closed (returns_pure _))
  | @bodySelfClosed c closed =>
    have unclosed : ¬ c.skipBlanks.sees ['>'] = true := not_sees_of_sees (by decide) closed
    refine .of_succ ?_
    simp only [scanTagBody]
    exact .ite_neg (rest_ne_nil_of_sees closed)
      (.ite_neg unclosed (.ite_pos closed (returns_pure _)))
  | @bodyConstruct _ c _ _ _ _ first _ ih₁ ih₂ =>
    have opens := first.sees_opening
    have unclosed : ¬ c.skipBlanks.sees ['>'] = true := not_sees_of_sees (by decide) opens
    have going : ¬ c.skipBlanks.sees ['/', '>'] = true := not_sees_of_sees (by decide) opens
    refine .of_succ ?_
    simp only [scanTagBody]
    refine .ite_neg (rest_ne_nil_of_sees opens) (.ite_neg unclosed (.ite_neg going ?_))
    refine returns_ite_completes honest on.skipBlanks first.construct?_ne_none ?_
    exact (ih₁ on.skipBlanks).bind ((ih₂ (first.on on.skipBlanks)).bind (returns_pure _))
  | @bodyAttribute _ c _ _ _ _ plain first _ ih₁ ih₂ =>
    have unclosed : ¬ c.skipBlanks.sees ['>'] = true :=
      not_sees_of_named first.named fun _ => rfl
    have going : ¬ c.skipBlanks.sees ['/', '>'] = true :=
      not_sees_of_named first.named fun _ => rfl
    refine .of_succ ?_
    simp only [scanTagBody]
    refine .ite_neg (rest_ne_nil_of_named first.named) (.ite_neg unclosed (.ite_neg going ?_))
    refine returns_ite_completes_none honest on.skipBlanks plain ?_
    exact (ih₁ on.skipBlanks).bind ((ih₂ (first.on on.skipBlanks)).bind (returns_pure _))
  | bodyStray left unclosed going plain unnamed _ ih =>
    refine .of_succ ?_
    simp only [scanTagBody]
    refine .ite_neg left (.ite_neg (Bool.not_eq_true _ ▸ unclosed)
      (.ite_neg (Bool.not_eq_true _ ▸ going) ?_))
    refine returns_ite_completes_none honest on.skipBlanks plain ?_
    exact (returns_scanAttribute?_none unnamed).bind (ih (on.skipBlanks.skip 1))
  | closingEnd => trivial
  | closingBare => trivial

end ServerMarkup
