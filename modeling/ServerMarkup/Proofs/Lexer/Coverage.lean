/-
# The tokens of a run lie one after the other

Every rule by which something is read lays its tokens between its cursors (`Reads.laid`), with gaps
of the kinds that `Gap` allows: blanks, quotes, the equals sign of an attribute, and the single
characters at which no attribute begins.  A tag or construct begins with a token that is not empty,
so it may follow any token, and the text gathered before it reaches up to it.  A step therefore goes
on where the one before has ended (`Goes.laid`), and a run is laid from the start of the source to
its end (`laid_tokens`).
-/

import ServerMarkup.Proofs.Lexer.Layout
import ServerMarkup.Proofs.Lexer.Moves

namespace ServerMarkup

variable {s : Source}

/-! ### What is passed over -/

theorem not_tight_of_loose {k : Option TokenKind} (h : Loose k) : ¬ Tight k := by
  intro ht
  cases k with
  | none => simp [Loose] at h
  | some k => cases k <;> simp_all [Loose, Tight, TokenKind.isLoose, TokenKind.isTight]

/-- The parts that end with a token after which characters may be passed over. -/
def Part.EndsLoose : Part → Prop
  | .body _ | .closing => False
  | _ => True

/-- The quote of a quoted value is a character that is passed over. -/
def Part.Fits : Part → Prop
  | .quoted q _ => isPassedOver q = true
  | _ => True

theorem isPassedOver_of_quote? {cs : List Char} {q : Char} (h : quote? cs = some q) :
    cs.head? = some q ∧ isPassedOver q = true := by
  unfold quote? at h
  split at h
  · obtain rfl := Option.some.inj h
    exact ⟨rfl, by decide⟩
  · obtain rfl := Option.some.inj h
    exact ⟨rfl, by decide⟩
  · simp at h

/-- Where a fragment ends without a construct there is the closing quote, or nothing. -/
theorem head?_after_fragment {q : Char} {c : Cursor}
    (plain : s.construct? (c.skip (fragmentReach s q c)).offset
      (c.skip (fragmentReach s q c)).rest = none) :
    (c.skip (fragmentReach s q c)).rest.head?.all (· == q) = true := by
  have hle : fragmentReach s q c ≤ c.rest.length := reach_le _ _
  rcases Nat.lt_or_ge (fragmentReach s q c) c.rest.length with hlt | hge
  · have hstop := stop_reach hlt
    rw [c.offset_skip, Nat.min_eq_left hle, Cursor.rest_skip] at plain
    change (_ || (s.construct? (c.offset + fragmentReach s q c)
      (c.rest.drop (fragmentReach s q c))).isSome) = true at hstop
    rw [plain, Option.isSome_none, Bool.or_false, beq_iff_eq] at hstop
    rw [Cursor.rest_skip]
    change (c.rest.drop (fragmentReach s q c)).head? = some q at hstop
    simp [hstop]
  · rw [Cursor.rest_skip, List.drop_of_length_le hge]
    rfl

theorem all_isPassedOver_of_quote {q : Char} {x? : Option Char} (fits : isPassedOver q = true)
    (quote : x?.all (· == q) = true) : x?.all isPassedOver = true := by
  cases x? with
  | none => rfl
  | some x => simpa [beq_iff_eq.1 quote] using fits

/-- Where no attribute name begins there is a character that is passed over, unless the directive
ends there. -/
theorem isPassedOver_of_nameReach {place : Place} {c : Cursor} (unnamed : nameReach place c = 0)
    (going : place = .directive → c.sees ['%', '>'] = false) :
    c.rest.head?.all isPassedOver = true := by
  unfold nameReach reach Cursor.sees at *
  cases hr : c.rest with
  | nil => rfl
  | cons x xs =>
    rw [hr] at unnamed going
    have hstop : endsName place (x :: xs) = true := by
      have := @stop_reachFrom (fun _ => endsName place) 0 (x :: xs) (by simp [unnamed])
      simpa [unnamed] using this
    simp only [endsName, Bool.or_eq_true, Bool.and_eq_true, beq_iff_eq] at hstop
    rcases hstop with ((hb | hp) | hc) | ⟨hp, hc⟩
    · simp [isPassedOver, hb]
    · simp only [Option.all_some, List.head?_cons, isPassedOver]
      simp at hp ⊢
      grind
    · obtain ⟨t, ht⟩ := List.isPrefixOf_iff_prefix.1 hc
      obtain ⟨rfl, -⟩ := List.cons.inj ht
      rfl
    · simp [going hp] at hc

/-! ### Readers -/

namespace Reads

variable {part : Part} {c d : Cursor} {ts : List Token} {k : Option TokenKind}

theorem loose_lastKind (h : Reads s part c ts d) (hp : part.EndsLoose) (hk : Loose k) :
    Loose (lastKind k ts) := by
  induction h generalizing k with
  | comment | code | directiveEnd | bare | unquoted => rfl
  | directive _ _ ih => exact ih trivial rfl
  | directiveCut => exact hk
  | directiveAttribute _ _ ih₁ ih₂ =>
    rw [lastKind_append]
    exact ih₂ trivial (ih₁ trivial hk)
  | directiveStray _ _ _ _ ih => exact ih trivial hk
  | quoted _ _ _ _ ih => exact ih trivial rfl
  | quotedConstruct _ _ ih₁ ih₂ =>
    rw [lastKind_append, lastKind_append]
    refine ih₂ trivial (ih₁ trivial ?_)
    unfold Source.fragment
    split
    · exact hk
    · rfl
  | quotedEnd =>
    unfold Source.fragment
    split
    · exact hk
    · rfl
  | bodyCut | bodyOpened | bodySelfClosed | bodyConstruct | bodyAttribute | bodyStray
  | closingEnd | closingBare => exact hp.elim

/-- The fragment of a quoted value takes the characters up to its end. -/
theorem laid_fragment (q : Char) (alone : Bool) (c : Cursor) (hk : Loose k) :
    Laid s k c.offset (s.fragment q alone c) (c.skip (fragmentReach s q c)).offset ∧
      Loose (lastKind k (s.fragment q alone c)) := by
  unfold Source.fragment
  split
  · next empty =>
    simp only [Bool.and_eq_true, decide_eq_true_eq] at empty
    rw [empty.1, Cursor.skip_zero]
    exact ⟨.nothing, hk⟩
  · exact ⟨.token rfl (fun ht => absurd ht (not_tight_of_loose hk)) .nothing, rfl⟩

/-- Between an attribute's name and its value stand blanks and an equals sign. -/
theorem gap_afterEquals {k' : Option TokenKind} {place : Place} (hc : c.On s) (hk : Loose k)
    (valued : (afterName place c).rest.head? = some '=') :
    Gap s k k' (c.skip (nameReach place c)).offset (afterEquals (afterName place c)).offset := by
  have hn := (hc.skip (nameReach place c)).skipBlanks
  have sign : Gap s k none (afterName place c).offset ((afterName place c).skip 1).offset :=
    .one hn hk (by rw [valued]; rfl)
  exact ((Gap.blanks (hc.skip _) hk).trans sign).trans (.blanks (hn.skip 1) hk)

/-- The tokens that are read lie between the cursors, after a token that leaves room. -/
theorem laid (h : Reads s part c ts d) (hc : c.On s) (hp : part.Fits) (hk : Loose k) :
    Laid s k c.offset ts d.offset := by
  have free {k : Option TokenKind} {P : Prop} (hk : Loose k) (ht : Tight k) : P :=
    (not_tight_of_loose hk ht).elim
  induction h generalizing k with
  | comment | code => exact .token rfl (free hk) .nothing
  | directive _ _ ih => exact .token rfl (free hk) (ih (hc.skip 3) trivial rfl)
  | directiveCut | bodyCut | closingBare => exact .blanks hc hk
  | directiveEnd | bodyOpened | bodySelfClosed | closingEnd =>
    exact .after (.blanks hc hk) (.token rfl (free hk) .nothing)
  | directiveAttribute first _ ih₁ ih₂ =>
    have hd := first.on hc.skipBlanks
    exact .after (.blanks hc hk) (.append (ih₁ hc.skipBlanks trivial hk)
      (ih₂ hd trivial (first.loose_lastKind trivial hk)))
  | directiveStray _ going unnamed _ ih =>
    have stray := isPassedOver_of_nameReach unnamed fun _ => going
    exact .after (.blanks hc hk) (.after (.one hc.skipBlanks hk stray)
      (ih (hc.skipBlanks.skip 1) trivial hk))
  | bare => exact .token rfl (free hk) (.blanks (hc.skip _) rfl)
  | unquoted _ valued =>
    exact .token rfl (free hk) (.after (gap_afterEquals hc rfl valued)
      (.token rfl (free rfl) .nothing))
  | @quoted place c _ _ _ _ valued opened _ ih =>
    have hv : (afterEquals (afterName place c)).On s := hc.afterName.afterEquals
    obtain ⟨head, fits⟩ := isPassedOver_of_quote? opened
    exact .token rfl (free hk) (.after (gap_afterEquals hc rfl valued)
      (.after (.one hv rfl (by simp [head, fits])) (ih (hv.skip 1) fits rfl)))
  | @quotedConstruct q _ c _ _ _ _ inner _ ih₁ ih₂ =>
    have hf := hc.skip (fragmentReach s q c)
    obtain ⟨fragment, loose⟩ := laid_fragment (s := s) _ false _ hk
    have before := fragment.append (ih₁ hf trivial loose)
    refine before.append (ih₂ (inner.on hf) hp ?_)
    rw [lastKind_append]
    exact inner.loose_lastKind trivial loose
  | @quotedEnd q _ c plain =>
    obtain ⟨fragment, loose⟩ := laid_fragment (s := s) _ _ _ hk
    have quote : Laid s _ _ [] ((c.skip (fragmentReach s q c)).skip 1).offset :=
      .one (hc.skip _) loose (all_isPassedOver_of_quote hp (head?_after_fragment plain))
    have last := fragment.append quote
    rwa [List.append_nil] at last
  | bodyConstruct first _ ih₁ ih₂ | bodyAttribute _ first _ ih₁ ih₂ =>
    have hd := first.on hc.skipBlanks
    exact .after (.blanks hc hk) (.append (ih₁ hc.skipBlanks trivial hk)
      (ih₂ hd trivial (first.loose_lastKind trivial hk)))
  | bodyStray _ _ _ _ unnamed _ ih =>
    have stray := isPassedOver_of_nameReach unnamed (fun he => by simp at he)
    exact .after (.blanks hc hk) (.after (.one hc.skipBlanks hk stray)
      (ih (hc.skipBlanks.skip 1) trivial hk))

/-- A construct begins with a token that is not empty. -/
theorem filled (h : Reads s .construct c ts d) :
    ∃ t us, ts = t :: us ∧ t.start = c.offset ∧ t.start < t.stop := by
  have size {o n} (found : s.construct? c.offset c.rest = some (o, n)) {m} (hm : 2 ≤ m) :
      c.offset < (c.skip m).offset := by
    have := Source.width_le_of_construct? found
    have := o.two_le_width
    have := c.offset_skip m
    omega
  cases h with
  | comment found => exact ⟨_, _, rfl, rfl, size found (by omega)⟩
  | code found => exact ⟨_, _, rfl, rfl, size found (by omega)⟩
  | directive found _ => exact ⟨_, _, rfl, rfl, size found (by omega)⟩

/-- A construct may follow any token. -/
theorem laid_construct (h : Reads s .construct c ts d) (hc : c.On s) :
    Laid s k c.offset ts d.offset := by
  have hl := h.laid (k := some .attribute) hc trivial rfl
  obtain ⟨t, us, rfl, start, filled⟩ := h.filled
  exact hl.congr start filled

end Reads

/-! ### Steps -/

theorem lastKind_nameTokens (k : Option TokenKind) (e : Excerpt) :
    lastKind k (nameTokens e) = some .elementName := by
  unfold nameTokens
  split <;> rfl

namespace LexerState

variable {st next : LexerState} {ts : List Token} {k : Option TokenKind}

/-- The mark of a tag, its name, and what follows the name. -/
theorem laid_tag {kind : TokenKind} {mark n : Nat} {c d : Cursor} (hc : c.On s) (marked : mark ≠ 0)
    (letter : (c.rest.drop mark).head?.any isLetter = true)
    (hn : (tagNameOf (c.rest.drop mark)).length = n)
    (inner : Laid s (some .elementName) (c.skip (n + mark)).offset ts d.offset) :
    Laid s k c.offset (.whole kind (s.excerpt c mark) ::
      nameTokens (s.excerpt (c.skip mark) n) ++ ts) d.offset := by
  subst hn
  have hname := List.length_pos_iff.2 (tagNameOf_ne_nil letter)
  have hlen : (tagNameOf (c.rest.drop mark)).length ≤ (c.skip mark).rest.length :=
    (List.takeWhile_prefix _).length_le
  have hcolon : (c.skip mark).rest.head? ≠ some ':' := by
    intro he
    rw [Cursor.rest_skip] at he
    rw [he] at letter
    exact absurd letter (by decide)
  refine .token rfl (fun _ => ⟨marked, fun he => ?_⟩) ?_
  · simp [he] at letter
  · refine (Laid.nameTokens (hc.skip mark) hlen (by omega) hcolon).append ?_
    rw [lastKind_nameTokens, Cursor.skip_skip, Nat.add_comm]
    exact inner

theorem Takes.laid (h : Takes s st ts next) (hc : st.cursor.On s) :
    Laid s k st.cursor.offset ts next.text.offset := by
  cases h with
  | whole _ sized within =>
    refine .token rfl (fun _ => ⟨sized, fun he => ?_⟩) .nothing
    simp [he] at within
    exact sized within
  | construct inner => exact inner.laid_construct hc
  | openingTag tag _ _ inner =>
    have body := inner.laid (k := some .elementName) (hc.skip _) trivial rfl
    exact laid_tag hc Nat.one_ne_zero tag.letter st.length_startName body
  | loneTag tag _ _ inner =>
    have body := inner.laid (k := some .elementName) (hc.skip _) trivial rfl
    exact laid_tag hc Nat.one_ne_zero tag.letter st.length_startName body
  | closingTag tag _ _ inner =>
    have body := inner.laid (k := some .elementName) (hc.skip _) trivial rfl
    exact laid_tag hc (by decide) tag.letter st.length_endName body

/-- The gathered text takes all characters up to the cursor. -/
theorem laid_gathered (h : st.On s) : Laid s k st.text.offset (st.gathered s) st.cursor.offset := by
  have hle := h.text_le
  have hlen := h.text.length_rest
  have hcur := h.cursor.offset_le
  unfold gathered
  split
  · next filled =>
    have hoff := st.text.offset_skip (st.cursor.offset - st.text.offset)
    refine .token rfl (fun _ => ⟨by omega, fun he => ?_⟩) ?_
    · simp [he] at hlen
      omega
    · rw [show (st.text.skip (st.cursor.offset - st.text.offset)).offset = st.cursor.offset by omega]
      exact .nothing
  · rw [show st.text.offset = st.cursor.offset by omega]
    exact .nothing

/-- The tokens of a step follow on any others. -/
theorem Goes.laid (h : Goes s st ts next) (hs : st.On s) :
    Laid s k st.text.offset ts next.text.offset := by
  cases h with
  | text | literalTag | literalEnd | rawEnd => exact .nothing
  | @rawConstruct tag _ _ _ inner =>
    have ha := hs.addText (rawReach s tag st.cursor)
    exact (laid_gathered ha).append (inner.laid_construct ha.cursor)
  | taken _ takes => exact (laid_gathered hs).append (takes.laid hs.cursor)

/-- **The tokens of a run lie one after the other** from where the gathered text begins to the end
of the source. -/
theorem laid_tokens (h : st.On s) : Laid s k st.text.offset (st.tokens s) s.text.length := by
  fun_induction tokens s st generalizing k with
  | case1 st ts hs =>
    obtain ⟨_, atEnd, rfl⟩ := eq_gathered_of_step hs
    have hlen := h.cursor.length_rest
    have hle := h.cursor.offset_le
    rw [atEnd, List.length_nil] at hlen
    rw [show s.text.length = st.cursor.offset by omega]
    exact laid_gathered h
  | case2 st ts next hs ih =>
    have goes := goes_of_step hs
    exact (goes.laid h).append (ih (goes.on h))

end LexerState
end ServerMarkup
