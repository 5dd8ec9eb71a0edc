/-
# Space between tokens

What follows the name of an attribute may touch it, as a construct does in `<p id<%= x %>>`.  But
the next name does not, nor does a value: a name ends only where none can begin, and an equals sign
stands before a value.  In a directive no construct begins outside of quotes, so there a construct
touches neither a name nor a value without characters (`Token.Spaced`).

`roomy_tokenize` says the first for all tokens of a text, and the second for those of a directive,
up to its mark.
-/

import ServerMarkup.Proofs.Lexer.Grammar
import ServerMarkup.Proofs.Lexer.Parted
import ServerMarkup.Proofs.Lexer.Sound

namespace ServerMarkup

/-- There is space where it has to be between two tokens, the second right after the first, in a
directive (`inside`) or anywhere. -/
structure Token.Spaced (inside : Bool) (t u : Token) : Prop where
  name : t.kind = .attribute → u.kind = .attribute ∨ u.kind = .attributeValue ∨
    inside = true ∧ u.kind.interrupts = true → t.stop < u.start
  value : t.kind = .attributeValue → inside = true → u.kind.interrupts = true → t.start < u.start

/-- Whether the part is none of a tag's own, so that it may stand in a directive. -/
def Part.inside : Part → Bool
  | .body _ | .closing => false
  | _ => true

/-- The parts that a name of an attribute ends only with the source. -/
def Part.IsCovered : Part → Prop
  | .construct | .directive | .quoted _ _ => True
  | _ => False

/-- The part goes on behind attributes of the place. -/
def Part.Continues (place : Place) : Part → Prop
  | .directive => place = .directive
  | .body _ => place = .tag
  | _ => False

namespace Part.Continues

variable {place : Place} {part : Part}

theorem fits (h : part.Continues place) : part.Fits := by
  cases part with
  | directive | body => trivial
  | _ => exact h.elim

theorem goesOn (h : part.Continues place) : part.GoesOn := by
  cases part with
  | directive | body => trivial
  | _ => exact h.elim

end Part.Continues

namespace Token.Spaced

variable {inside : Bool} {t u : Token}

theorem anywhere (h : Spaced true t u) : Spaced inside t u where
  name first second :=
    h.name first (second.imp_right fun other => other.imp_right fun o => ⟨rfl, o.2⟩)
  value first _ second := h.value first rfl second

/-- Only names and values need space behind them. -/
theorem of_ne (name : t.kind ≠ .attribute) (value : t.kind ≠ .attributeValue) :
    Spaced inside t u :=
  ⟨fun first => absurd first name, fun first => absurd first value⟩

/-- Only names, values and constructs need space before them. -/
theorem of_next (name : u.kind ≠ .attribute) (value : u.kind ≠ .attributeValue)
    (construct : inside = true → u.kind.interrupts = false) : Spaced inside t u where
  name _ second := by
    rcases second with second | second | ⟨within, second⟩
    · exact absurd second name
    · exact absurd second value
    · simp [construct within] at second
  value _ within second := by simp [construct within] at second

end Token.Spaced

variable {s : Source} {part : Part} {c d : Cursor} {t u : Token} {ts us : List Token}
  {place : Place}

namespace Reads

/-- Nothing that is read begins before the cursor. -/
theorem le_start (h : Reads s part c ts d) (hc : c.On s) (hp : part.Fits) (mem : t ∈ ts) :
    c.offset ≤ t.start :=
  (h.laid (k := some .attribute) hc hp rfl).pairwise.1 t mem

/-- A construct begins with its mark, or is one token. -/
theorem head_construct (h : Reads s .construct c ts d) (first : ts.head? = some u) :
    u.kind ≠ .attribute ∧ u.kind ≠ .attributeValue := by
  cases h with
  | comment | code | directive =>
    obtain rfl := Option.some.inj first
    exact ⟨TokenKind.noConfusion, TokenKind.noConfusion⟩

/-- What follows the mark of a directive begins with a name, or is the mark at its end. -/
theorem head_directive (h : Reads s .directive c ts d) (first : ts.head? = some u) :
    u.kind = .attribute ∨ u.kind = .endDirective := by
  generalize hp : Part.directive = part at h
  induction h with
  | directiveCut => cases first
  | directiveEnd =>
    obtain rfl := Option.some.inj first
    exact .inr rfl
  | directiveAttribute inner =>
    cases inner with
    | bare | unquoted | quoted =>
      obtain rfl := Option.some.inj first
      exact .inl rfl
  | directiveStray _ _ _ _ ih => exact ih first hp
  | _ => simp at hp

/-- A construct or a value that ends with a name is cut by the end of the source. -/
theorem rest_of_last_name (h : Reads s part c ts d) (covered : part.IsCovered)
    (last : ts.getLast? = some t) (hk : t.kind = .attribute) : d.rest = [] := by
  have other (ts : List Token) {e : Token} (last : (ts ++ [e]).getLast? = some t)
      (mark : e.kind ≠ .attribute) : False := by
    rw [List.getLast?_concat] at last
    exact mark (Option.some.inj last ▸ hk)
  have fragment {q : Char} {alone : Bool} {c : Cursor}
      (last : (s.fragment q alone c).getLast? = some t) : False := by
    obtain ⟨none, -⟩ | one := s.fragment_eq q alone c
    · simp [none] at last
    · obtain ⟨e, one, literal⟩ := one
      rw [one] at last
      exact other [] last (by simp [literal])
  induction h with
  | comment | code => exact (other [] last TokenKind.noConfusion).elim
  | @directive c n ts d _ inner ih =>
    cases ts with
    | nil => exact (other [] last TokenKind.noConfusion).elim
    | cons u us => exact ih trivial (by simpa [List.getLast?_cons] using last)
  | directiveCut atEnd => exact atEnd
  | directiveEnd => exact (other [] last TokenKind.noConfusion).elim
  | directiveAttribute _ more =>
    obtain ⟨vs, e, rfl, mark⟩ | atEnd := more.last_directive
    · rw [← List.append_assoc] at last
      exact (other _ last (by simp [mark])).elim
    · exact atEnd
  | directiveStray _ _ _ _ ih => exact ih trivial last
  | @quotedConstruct q alone c ts d us e inner more ih₁ ih₂ =>
    rw [List.getLast?_append] at last
    cases hu : us.getLast? with
    | some v =>
      rw [hu] at last
      exact ih₂ trivial (hu.trans last)
    | none =>
      rw [hu, Option.none_or, List.getLast?_append] at last
      cases ht : ts.getLast? with
      | some v =>
        rw [ht] at last
        exact (more.eq_nil_of_atEnd trivial (ih₁ trivial (ht.trans last))).2
      | none =>
        rw [ht] at last
        exact (fragment last).elim
  | quotedEnd => exact (fragment last).elim
  | bare | unquoted | quoted | bodyCut | bodyOpened | bodySelfClosed | bodyConstruct
  | bodyAttribute | bodyStray | closingEnd | closingBare => exact covered.elim

end Reads

/-! ### Names -/

/-- Where a name has ended none begins. -/
theorem nameReach_skip (place : Place) (c : Cursor) :
    nameReach place (c.skip (nameReach place c)) = 0 := by
  by_cases more : nameReach place c < c.rest.length
  · have stop : endsName place (c.rest.drop (nameReach place c)) = true := stop_reach more
    unfold nameReach at stop ⊢
    rw [Cursor.rest_skip]
    generalize c.rest.drop (reach (fun _ => endsName place) c.rest) = cs at stop
    cases cs with
    | nil => rfl
    | cons x xs => simp [reach, reachFrom, stop]
  · unfold nameReach at more ⊢
    rw [Cursor.rest_skip, List.drop_of_length_le (by omega)]
    rfl

/-- Blanks that are passed over take up space. -/
theorem Cursor.lt_skipBlanks_or_eq (c : Cursor) :
    c.offset < c.skipBlanks.offset ∨ c.skipBlanks = c := by
  have offset := c.offset_skip (c.rest.takeWhile isBlank).length
  have le := (List.takeWhile_prefix isBlank (l := c.rest)).length_le
  rw [Nat.min_eq_left le] at offset
  by_cases none : (c.rest.takeWhile isBlank).length = 0
  · right
    rw [skipBlanks, none, skip_zero]
  · left
    change c.offset < (c.skip _).offset
    omega

theorem Cursor.le_skipBlanks (c : Cursor) : c.offset ≤ c.skipBlanks.offset := by
  obtain lt | same := c.lt_skipBlanks_or_eq
  · exact Nat.le_of_lt lt
  · rw [same]

/-- An equals sign and what follows it stand behind the name. -/
theorem Cursor.lt_afterEquals (valued : (afterName place c).rest.head? = some '=') :
    (c.skip (nameReach place c)).offset < (afterEquals (afterName place c)).offset := by
  have before := (c.skip (nameReach place c)).le_skipBlanks
  have behind := ((afterName place c).skip 1).le_skipBlanks
  have sign : (afterName place c).offset < ((afterName place c).skip 1).offset :=
    offset_lt_skip Nat.one_ne_zero fun none => by simp [none] at valued
  change (c.skip (nameReach place c)).offset ≤ (afterName place c).offset at before
  exact Nat.lt_of_le_of_lt before (Nat.lt_of_lt_of_le sign behind)

namespace Reads

/-- Behind an attribute without a value none begins, or blanks have been passed over. -/
theorem behind_name (h : Reads s (.attribute place) c ts d) (hc : c.On s)
    (last : ts.getLast? = some t) (hk : t.kind = .attribute) :
    d.rest = [] ∨ t.stop < d.offset ∨ t.stop ≤ d.offset ∧ nameReach place d = 0 := by
  cases h with
  | bare =>
    obtain rfl := Option.some.inj last
    obtain lt | same := (c.skip (nameReach place c)).lt_skipBlanks_or_eq
    · exact .inr (.inl lt)
    · right
      right
      rw [afterName, same]
      exact ⟨Nat.le_refl _, nameReach_skip place c⟩
  | unquoted =>
    obtain rfl := Option.some.inj last
    cases hk
  | @quoted _ _ q ts d _ valued opened value =>
    cases ts with
    | cons u us =>
      refine .inl (value.rest_of_last_name trivial ?_ hk)
      simpa [List.getLast?_cons] using last
    | nil =>
      obtain rfl := Option.some.inj last
      have opening : _ ≤ d.offset := (value.laid (k := some .attribute)
        (hc.afterName.afterEquals.skip 1) (isPassedOver_of_quote? opened).2 rfl).le
      have equals := Cursor.lt_afterEquals valued
      have quote := (afterEquals (afterName place c)).offset_skip 1
      refine .inr (.inl ?_)
      change (c.skip (nameReach place c)).offset < d.offset
      omega

/-- Where no name begins the next attribute comes later. -/
theorem lt_head (h : Reads s part c ts d) (hc : c.On s) (goes : part.Continues place)
    (unnamed : nameReach place c = 0) (first : ts.head? = some u) (hk : u.kind = .attribute) :
    c.offset < u.start := by
  have blanks := c.le_skipBlanks
  -- If a name comes first, blanks stand before it: it does not begin at the cursor.
  have named {ts us : List Token} {d : Cursor}
      (inner : Reads s (.attribute place) c.skipBlanks ts d)
      (first : (ts ++ us).head? = some u) : c.offset < u.start := by
    cases ts with
    | nil => nomatch inner
    | cons v vs =>
      obtain rfl := Option.some.inj first
      obtain lt | same := c.lt_skipBlanks_or_eq
      · exact Nat.lt_of_lt_of_le lt (inner.le_start hc.skipBlanks trivial List.mem_cons_self)
      · rw [same] at inner
        cases inner with
        | bare named | unquoted named | quoted named => exact absurd unnamed named
  have stray {part : Part} {ts : List Token} {d : Cursor} (goes : part.Continues place)
      (left : c.skipBlanks.rest ≠ []) (more : Reads s part (c.skipBlanks.skip 1) ts d)
      (first : ts.head? = some u) : c.offset < u.start := by
    have fits := goes.fits
    have behind := more.le_start (hc.skipBlanks.skip 1) fits (List.mem_of_mem_head? first)
    have one := Cursor.offset_lt_skip (c := c.skipBlanks) Nat.one_ne_zero left
    omega
  cases h with
  | directiveCut | bodyCut => cases first
  | directiveEnd | bodyOpened | bodySelfClosed =>
    obtain rfl := Option.some.inj first
    cases hk
  | directiveAttribute inner =>
    obtain rfl : place = .directive := goes
    exact named inner first
  | bodyAttribute _ inner =>
    obtain rfl : place = .tag := goes
    exact named inner first
  | directiveStray left _ _ more => exact stray goes left more first
  | bodyStray left _ _ _ _ more => exact stray goes left more first
  | @bodyConstruct _ _ ts _ _ _ inner =>
    cases ts with
    | nil => nomatch inner
    | cons v vs =>
      obtain rfl := Option.some.inj first
      exact absurd hk (inner.head_construct rfl).1
  | comment | code | directive | bare | unquoted | quoted | quotedConstruct | quotedEnd
  | closingEnd | closingBare => exact goes.elim

/-- There is space between two names. -/
theorem lt_of_continues {us : List Token} {e : Cursor} (first : Reads s (.attribute place) c ts d)
    (more : Reads s part d us e) (hc : c.On s) (goes : part.Continues place)
    (last : ts.getLast? = some t) (hk : t.kind = .attribute) (next : us.head? = some u)
    (hk' : u.kind = .attribute) : t.stop < u.start := by
  have hd := first.on hc
  obtain atEnd | lt | ⟨le, unnamed⟩ := first.behind_name hc last hk
  · simp [(more.eq_nil_of_atEnd goes.goesOn atEnd).1] at next
  · exact Nat.lt_of_lt_of_le lt (more.le_start hd goes.fits (List.mem_of_mem_head? next))
  · exact Nat.lt_of_le_of_lt le (more.lt_head hd goes unnamed next hk')

/-- What comes last in a construct is no part of an attribute, unless nothing follows. -/
theorem spaced_behind_construct {inside : Bool} {us : List Token} {e : Cursor}
    (first : Reads s .construct c ts d) (more : Reads s part d us e) (goes : part.GoesOn)
    (last : ts.getLast? = some t) (next : us.head? = some u) : Token.Spaced inside t u := by
  have left : d.rest ≠ [] := fun atEnd => by simp [(more.eq_nil_of_atEnd goes atEnd).1] at next
  refine .of_ne (fun hk => left (first.rest_of_last_name trivial last hk)) fun hk => ?_
  obtain ⟨vs, v, rfl, other⟩ | atEnd := first.last_construct
  · rw [List.getLast?_concat] at last
    exact other (Option.some.inj last ▸ hk)
  · exact left atEnd

/-- A fragment before a construct holds a character. -/
theorem lt_of_fragment {q : Char} (hc : c.On s) (inner : Reads s .construct (c.skip
    (fragmentReach s q c)) ts d) (last : (s.fragment q false c).getLast? = some t)
    (next : ts.head? = some u) : t.kind = .attributeValue ∧ t.start < u.start := by
  have behind := inner.le_start (hc.skip _) trivial (List.mem_of_mem_head? next)
  unfold Source.fragment at last
  split at last
  · cases last
  · next filled =>
    obtain rfl := Option.some.inj last
    have left : c.rest ≠ [] := fun none => by
      have := reach_le (fun i cs => cs.head? == some q || (s.construct? (c.offset + i) cs).isSome)
        c.rest
      simp only [fragmentReach, none, List.length_nil, Nat.le_zero] at this filled
      simp [this] at filled
    refine ⟨rfl, Nat.lt_of_lt_of_le (Cursor.offset_lt_skip ?_ left) behind⟩
    simpa using filled

/-- **What is read has space between its tokens.** -/
theorem spaced (h : Reads s part c ts d) (hc : c.On s) (hp : part.Fits) :
    ts.IsChain (Token.Spaced part.inside) := by
  have anywhere {inside : Bool} {ts : List Token} (h : ts.IsChain (Token.Spaced true)) :
      ts.IsChain (Token.Spaced inside) := h.imp fun _ _ => Token.Spaced.anywhere
  have fragment {q : Char} {alone : Bool} {c : Cursor} :
      (s.fragment q alone c).IsChain (Token.Spaced true) := by
    unfold Source.fragment
    split
    · exact .nil
    · exact .singleton _
  induction h with
  | comment | code | directiveEnd | bodyOpened | bodySelfClosed | closingEnd => exact .singleton _
  | directiveCut | bodyCut | closingBare => exact .nil
  | bare => exact .singleton _
  | directive _ _ ih =>
    refine List.isChain_cons.2 ⟨fun u _ => ?_, ih (hc.skip 3) trivial⟩
    exact .of_ne TokenKind.noConfusion TokenKind.noConfusion
  | directiveStray _ _ _ _ ih | bodyStray _ _ _ _ _ _ ih => exact ih (hc.skipBlanks.skip 1) hp
  | directiveAttribute first more ih₁ ih₂ =>
    refine (ih₁ hc.skipBlanks trivial).append (ih₂ (first.on hc.skipBlanks) trivial) ?_
    rintro t last u next
    obtain name | mark := more.head_directive next
    · refine ⟨fun hk _ => first.lt_of_continues more hc.skipBlanks rfl last hk next name, ?_⟩
      intro _ _ interrupts
      simp [name, TokenKind.interrupts] at interrupts
    · exact .of_next (by simp [mark]) (by simp [mark]) fun _ => by simp [mark, TokenKind.interrupts]
  | @unquoted place c _ valued =>
    refine List.isChain_pair.2 ⟨fun _ _ => Cursor.lt_afterEquals valued, fun hk => ?_⟩
    cases hk
  | @quoted place c q ts d _ valued opened value ih =>
    have hv : ((afterEquals (afterName place c)).skip 1).On s := hc.afterName.afterEquals.skip 1
    have fits := (isPassedOver_of_quote? opened).2
    refine List.isChain_cons.2 ⟨fun u next => ⟨fun _ _ => ?_, fun hk => ?_⟩, ih hv fits⟩
    · have behind := value.le_start hv fits (List.mem_of_mem_head? next)
      have equals := Cursor.lt_afterEquals valued
      have quote := (afterEquals (afterName place c)).offset_skip 1
      change (c.skip (nameReach place c)).offset < u.start
      omega
    · cases hk
  | @quotedConstruct q alone c ts d us e inner more ih₁ ih₂ =>
    have hf := hc.skip (fragmentReach s q c)
    have filled : ts ≠ [] := by
      obtain ⟨v, vs, rfl, -⟩ := inner.filled
      exact List.cons_ne_nil v vs
    refine (fragment.append (ih₁ hf trivial) ?_).append (ih₂ (inner.on hf) hp) ?_
    · rintro t last u next
      obtain ⟨literal, lt⟩ := inner.lt_of_fragment hc last next
      exact ⟨fun hk => by simp [literal] at hk, fun _ _ _ => lt⟩
    · rintro t last u next
      rw [List.getLast?_append_of_ne_nil _ filled] at last
      exact inner.spaced_behind_construct more trivial last next
  | quotedEnd => exact fragment
  | bodyConstruct first more ih₁ ih₂ =>
    refine (anywhere (ih₁ hc.skipBlanks trivial)).append (ih₂ (first.on hc.skipBlanks) trivial) ?_
    rintro t last u next
    exact first.spaced_behind_construct more trivial last next
  | bodyAttribute _ first more ih₁ ih₂ =>
    refine (anywhere (ih₁ hc.skipBlanks trivial)).append (ih₂ (first.on hc.skipBlanks) trivial) ?_
    rintro t last u next
    refine ⟨fun hk second => ?_, fun _ within => nomatch within⟩
    obtain name | literal | ⟨within, -⟩ := second
    · exact first.lt_of_continues more hc.skipBlanks rfl last hk next name
    · exact absurd literal (more.begun (by simp) u next)
    · cases within

end Reads

/-! ### Directives -/

/-- The tokens are of a directive, with space between them, up to the mark at its end. -/
def Bordered : List Token → Prop
  | t :: u :: ts => t.kind ≠ .endDirective →
    (Token.Spaced true t u ∧ u.kind.isInner = true) ∧ Bordered (u :: ts)
  | _ => True

/-- There is space between the tokens of every directive. -/
def Walled (ts : List Token) : Prop :=
  ∀ t us, t :: us <:+ ts → t.kind = .startDirective → Bordered us

theorem bordered_append (h : ts.IsChain (Token.Spaced true))
    (inner : ∀ t ∈ ts, t.kind.isInner = true)
    (ended : us = [] ∨ ∃ vs e, ts = vs ++ [e] ∧ e.kind = .endDirective) : Bordered (ts ++ us) := by
  obtain rfl | ⟨vs, e, rfl, mark⟩ := ended
  · rw [List.append_nil]
    induction ts with
    | nil => trivial
    | cons t ts ih =>
      cases ts with
      | nil => trivial
      | cons u ts =>
        obtain ⟨first, rest⟩ := List.isChain_cons_cons.1 h
        obtain ⟨-, kinds⟩ := List.forall_mem_cons.1 inner
        exact fun _ => ⟨⟨first, kinds u List.mem_cons_self⟩, ih rest kinds⟩
  · rw [List.append_assoc, List.singleton_append]
    induction vs with
    | nil =>
      cases us with
      | nil => trivial
      | cons u us => exact fun other => absurd mark other
    | cons v vs ih =>
      rw [List.cons_append] at h inner ⊢
      obtain ⟨first, rest⟩ := List.isChain_cons.1 h
      obtain ⟨-, kinds⟩ := List.forall_mem_cons.1 inner
      have later := ih rest kinds
      cases vs with
      | nil => exact fun _ => ⟨⟨first e rfl, kinds e List.mem_cons_self⟩, later⟩
      | cons w vs => exact fun _ => ⟨⟨first w rfl, kinds w List.mem_cons_self⟩, later⟩

theorem walled_nil : Walled [] :=
  fun _ _ part => nomatch List.suffix_nil.1 part

theorem walled_cons (h : Walled ts) (directive : t.kind = .startDirective → Bordered ts) :
    Walled (t :: ts) := by
  intro u us part hk
  obtain same | later := List.suffix_cons_iff.1 part
  · obtain ⟨rfl, rfl⟩ := List.cons.inj same
    exact directive hk
  · exact h u us later hk

theorem walled_append (h : Walled us) (other : ∀ t ∈ ts, t.kind ≠ .startDirective) :
    Walled (ts ++ us) := by
  induction ts with
  | nil => exact h
  | cons t ts ih =>
    obtain ⟨first, rest⟩ := List.forall_mem_cons.1 other
    exact walled_cons (ih rest) fun hk => absurd hk first

/-- Directives that are read have space between their tokens, whatever follows them. -/
theorem Reads.walled (h : Reads s part c ts d) (hc : c.On s) (hp : part.Fits)
    (ends : d.rest = [] → us = []) (rest : Walled us) : Walled (ts ++ us) := by
  -- What comes first ends before the source does, or nothing follows.
  have between {part : Part} {c d : Cursor} {vs us : List Token} (more : Reads s part c vs d)
      (goes : part.GoesOn) (ends : d.rest = [] → us = []) (atEnd : c.rest = []) :
      vs ++ us = [] := by
    obtain ⟨rfl, hd⟩ := more.eq_nil_of_atEnd goes atEnd
    exact ends hd
  have other {vs us : List Token} (rest : Walled us) (h : ∀ t ∈ vs, t.kind ≠ .startDirective) :
      Walled (vs ++ us) := walled_append rest h
  have fragment {q : Char} {alone : Bool} {c : Cursor} :
      ∀ t ∈ s.fragment q alone c, t.kind ≠ .startDirective := by
    unfold Source.fragment
    split
    · simp
    · exact List.forall_mem_singleton.2 TokenKind.noConfusion
  induction h generalizing us with
  | comment | code | directiveEnd | bodyOpened | bodySelfClosed | closingEnd | bare =>
    exact walled_cons rest TokenKind.noConfusion
  | directiveCut | bodyCut | closingBare => exact rest
  | directive _ inner ih =>
    have hd := hc.skip 3
    refine walled_cons (ih hd trivial ends rest) fun _ =>
      bordered_append (inner.spaced hd trivial) (inner.inner trivial) ?_
    obtain ended | atEnd := inner.last_directive
    · exact .inr ended
    · exact .inl (ends atEnd)
  | directiveStray _ _ _ _ ih | bodyStray _ _ _ _ _ _ ih =>
    exact ih (hc.skipBlanks.skip 1) hp ends rest
  | directiveAttribute first more ih₁ ih₂ | bodyConstruct first more ih₁ ih₂
  | bodyAttribute _ first more ih₁ ih₂ =>
    rw [List.append_assoc]
    exact ih₁ hc.skipBlanks trivial (between more trivial ends)
      (ih₂ (first.on hc.skipBlanks) trivial ends rest)
  | unquoted =>
    exact walled_cons (walled_cons rest TokenKind.noConfusion) TokenKind.noConfusion
  | quoted _ _ opened _ ih =>
    exact walled_cons (ih (hc.afterName.afterEquals.skip 1) (isPassedOver_of_quote? opened).2 ends
      rest) TokenKind.noConfusion
  | @quotedConstruct q alone c ts d us e inner more ih₁ ih₂ =>
    have hf := hc.skip (fragmentReach s q c)
    rw [List.append_assoc, List.append_assoc]
    exact other (ih₁ hf trivial (between more trivial ends) (ih₂ (inner.on hf) hp ends rest))
      fragment
  | quotedEnd => exact other rest fragment

/-! ### Steps -/

/-- There is space between the tokens, in directives and anywhere, and no part of an attribute comes
first. -/
structure Roomy (ts : List Token) : Prop where
  spaced : ts.IsChain (Token.Spaced false)
  walled : Walled ts
  fresh : ∀ u, ts.head? = some u → u.kind ≠ .attribute ∧ u.kind ≠ .attributeValue

/-- The token is no part of an attribute and begins no directive. -/
def Token.IsBare (t : Token) : Prop :=
  (t.kind ≠ .attribute ∧ t.kind ≠ .attributeValue) ∧ t.kind ≠ .startDirective

namespace Roomy

theorem nil : Roomy [] :=
  ⟨.nil, walled_nil, nofun⟩

/-- What comes after tokens that need no space. -/
theorem lead (spaced : us.IsChain (Token.Spaced false)) (walled : Walled us) (filled : ts ≠ [])
    (bare : ∀ t ∈ ts, t.IsBare) : Roomy (ts ++ us) where
  spaced := by
    clear filled
    induction ts with
    | nil => exact spaced
    | cons t ts ih =>
      obtain ⟨first, rest⟩ := List.forall_mem_cons.1 bare
      exact List.isChain_cons.2 ⟨fun u _ => .of_ne first.1.1 first.1.2, ih rest⟩
  walled := walled_append walled fun t mem => (bare t mem).2
  fresh u first := by
    rw [List.head?_append_of_ne_nil _ filled] at first
    exact (bare u (List.mem_of_mem_head? first)).1

theorem append (h : Roomy us) (bare : ∀ t ∈ ts, t.IsBare) : Roomy (ts ++ us) := by
  by_cases filled : ts = []
  · rw [filled]
    exact h
  · exact .lead h.spaced h.walled filled bare

/-- What comes after something that is read. -/
theorem behind (h : Roomy us) (first : Reads s part c ts d) (hc : c.On s) (hp : part.Fits)
    (ends : d.rest = [] → us = []) :
    (ts ++ us).IsChain (Token.Spaced false) ∧ Walled (ts ++ us) := by
  refine ⟨?_, first.walled hc hp ends h.walled⟩
  have space : ts.IsChain (Token.Spaced false) := by
    cases inside : part.inside with
    | true => exact (inside ▸ first.spaced hc hp).imp fun _ _ => Token.Spaced.anywhere
    | false => exact inside ▸ first.spaced hc hp
  refine space.append h.spaced fun t _ u next => ?_
  exact .of_next (h.fresh u next).1 (h.fresh u next).2 nofun

theorem construct (h : Roomy us) (first : Reads s .construct c ts d) (hc : c.On s)
    (ends : d.rest = [] → us = []) : Roomy (ts ++ us) := by
  obtain ⟨spaced, walled⟩ := h.behind first hc trivial ends
  refine ⟨spaced, walled, fun u next => ?_⟩
  cases ts with
  | nil => nomatch first
  | cons v vs =>
    obtain rfl := Option.some.inj next
    exact first.head_construct rfl

/-- What comes after a tag. -/
theorem tag (h : Roomy us) {kind : TokenKind} {e name : Excerpt}
    (mark : kind = .tagOpen ∨ kind = .tagOpenSlash) (body : Reads s part c ts d) (hc : c.On s)
    (hp : part.Fits) (ends : d.rest = [] → us = []) :
    Roomy (Token.whole kind e :: nameTokens name ++ ts ++ us) := by
  obtain ⟨spaced, walled⟩ := h.behind body hc hp ends
  have first : (Token.whole kind e).IsBare := by
    obtain rfl | rfl := mark <;> simp [Token.IsBare, Token.whole]
  have others : ∀ t ∈ nameTokens name, t.IsBare := by
    intro t mem
    obtain hk | hk := kind_nameTokens mem <;> simp [Token.IsBare, hk]
  rw [List.append_assoc]
  exact .lead spaced walled (List.cons_ne_nil _ _) (List.forall_mem_cons.2 ⟨first, others⟩)

end Roomy

namespace LexerState

variable {st next : LexerState}

theorem isBare_gathered : ∀ t ∈ st.gathered s, t.IsBare := by
  intro t mem
  simp [Token.IsBare, kind_gathered mem]

theorem Takes.roomy (h : Takes s st ts next) (hc : st.cursor.On s) (rest : Roomy us)
    (ends : next.cursor.rest = [] → us = []) : Roomy (ts ++ us) := by
  cases h with
  | whole isWhole =>
    refine rest.append (List.forall_mem_singleton.2 ?_)
    obtain rfl | rfl := isWhole <;> simp [Token.IsBare, Token.whole]
  | construct inner => exact rest.construct inner hc ends
  | openingTag _ _ _ inner | loneTag _ _ _ inner =>
    exact rest.tag (.inl rfl) inner (hc.skip _) trivial ends
  | closingTag _ _ _ inner => exact rest.tag (.inr rfl) inner (hc.skip _) trivial ends

theorem Goes.roomy (h : Goes s st ts next) (hs : st.On s) (rest : Roomy us)
    (ends : next.cursor.rest = [] → next.text = next.cursor → us = []) : Roomy (ts ++ us) := by
  cases h with
  | text | literalTag | literalEnd | rawEnd => exact rest
  | rawConstruct _ inner =>
    rw [List.append_assoc]
    exact (rest.construct inner (hs.addText _).cursor fun atEnd => ends atEnd rfl).append
      isBare_gathered
  | taken _ takes =>
    rw [List.append_assoc]
    exact (takes.roomy hs.cursor rest fun atEnd => ends atEnd (takes.on hs.cursor).2).append
      isBare_gathered

theorem roomy_tokens (hs : st.On s) : Roomy (st.tokens s) := by
  fun_induction tokens s st with
  | case1 st ts h =>
    obtain ⟨-, -, rfl⟩ := eq_gathered_of_step h
    rw [← List.append_nil (st.gathered s)]
    exact Roomy.nil.append isBare_gathered
  | case2 st ts next h ih =>
    have goes := goes_of_step h
    exact goes.roomy hs (ih (goes.on hs)) fun atEnd text => tokens_eq_nil atEnd text

end LexerState

/-- **The tokens of a text have space between them.** -/
theorem roomy_tokenize (file text : String) : Roomy (tokenize file text) :=
  LexerState.roomy_tokens (LexerState.on_start _)

end ServerMarkup
