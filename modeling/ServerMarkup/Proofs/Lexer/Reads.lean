/-
# What the readers do, as rules

`readConstruct?`, `readDirective`, `readAttribute?`, `readQuoted` and `readTagBody` are recursive
through one another and carry their own reasons for ending.  `Reads` says the same without the
recursion: a rule for each thing that a reader does at a cursor, with what the reader has checked
before.  A fact about everything that is read is then one induction on `Reads`.

| part | from the cursor on |
| --- | --- |
| `construct` | a whole `<% … %>` |
| `directive` | what follows `<%@` |
| `attribute` | a name and, after `=`, a value |
| `quoted` | what follows the opening quote; `alone` until a construct has been met |
| `body` | what follows the name of a start tag, with the tag's end |
| `closing` | what follows the name of a closing tag: its `>`, if that comes next |

`reads_readConstruct?`, `reads_readTagBody` and the three between them say that the readers keep to
the rules.
-/

import ServerMarkup.Lexer.Construct
import ServerMarkup.Proofs.Source.Places

namespace ServerMarkup

/-- The parts of markup that are read one after the other or one in the other. -/
inductive Part where
  | construct
  | directive
  | attribute (place : Place)
  | quoted (quote : Char) (alone : Bool)
  | body (ending : TagEnd)
  | closing
deriving DecidableEq, Repr

namespace Source

/-- The token of a server comment with `n` characters between its marks. -/
def commentToken (s : Source) (c : Cursor) (n : Nat) : Token :=
  ⟨.serverComment, s.span c (n + 8), s.excerpt (c.skip 4) n⟩

/-- The token of a code block with `n` characters between its marks. -/
def codeToken (s : Source) (c : Cursor) (kind : CodeKind) (n : Nat) : Token :=
  ⟨.code kind, s.span c ((Opening.code kind).width + n + 2),
    (s.excerpt (c.skip (Opening.code kind).width) n).trim⟩

/-- The token of an attribute's name. -/
def nameToken (s : Source) (place : Place) (c : Cursor) : Token :=
  .whole .attribute (s.excerpt c (nameReach place c))

/-- The token of a value without quotes. -/
def valueToken (s : Source) (place : Place) (c : Cursor) : Token :=
  .whole .attributeValue (s.excerpt c (valueReach place c))

/-- The fragment of a quoted value, unless it is empty; an empty one counts if it stands alone. -/
def fragment (s : Source) (quote : Char) (alone : Bool) (c : Cursor) : List Token :=
  if fragmentReach s quote c = 0 && !alone then []
  else [.whole .attributeValue (s.excerpt c (fragmentReach s quote c))]

end Source

/-- `Reads s part c ts d`: in `s`, the part that begins at the cursor `c` has the tokens `ts` and
ends at the cursor `d`. -/
inductive Reads (s : Source) : Part → Cursor → List Token → Cursor → Prop where
  | comment {c n} (found : s.construct? c.offset c.rest = some (.comment, n)) :
      Reads s .construct c [s.commentToken c n] (c.skip (n + 8))
  | code {c kind n} (found : s.construct? c.offset c.rest = some (.code kind, n)) :
      Reads s .construct c [s.codeToken c kind n] (c.skip ((Opening.code kind).width + n + 2))
  | directive {c n ts d} (found : s.construct? c.offset c.rest = some (.directive, n))
      (inner : Reads s .directive (c.skip 3) ts d) :
      Reads s .construct c (.whole .startDirective (s.excerpt c 3) :: ts) d
  | directiveCut {c} (atEnd : c.skipBlanks.rest = []) : Reads s .directive c [] c.skipBlanks
  | directiveEnd {c} (closed : c.skipBlanks.sees ['%', '>'] = true) :
      Reads s .directive c [.whole .endDirective (s.excerpt c.skipBlanks 2)] (c.skipBlanks.skip 2)
  | directiveAttribute {c ts d us e}
      (first : Reads s (.attribute .directive) c.skipBlanks ts d)
      (more : Reads s .directive d us e) : Reads s .directive c (ts ++ us) e
  | directiveStray {c ts d} (left : c.skipBlanks.rest ≠ [])
      (going : c.skipBlanks.sees ['%', '>'] = false)
      (unnamed : nameReach .directive c.skipBlanks = 0)
      (more : Reads s .directive (c.skipBlanks.skip 1) ts d) : Reads s .directive c ts d
  | bare {place c} (named : nameReach place c ≠ 0)
      (valueless : (afterName place c).rest.head? ≠ some '=') :
      Reads s (.attribute place) c [s.nameToken place c] (afterName place c)
  | unquoted {place c} (named : nameReach place c ≠ 0)
      (valued : (afterName place c).rest.head? = some '=')
      (plain : quote? (afterEquals (afterName place c)).rest = none) :
      Reads s (.attribute place) c
        [s.nameToken place c, s.valueToken place (afterEquals (afterName place c))]
        ((afterEquals (afterName place c)).skip
          (valueReach place (afterEquals (afterName place c))))
  | quoted {place c q ts d} (named : nameReach place c ≠ 0)
      (valued : (afterName place c).rest.head? = some '=')
      (opened : quote? (afterEquals (afterName place c)).rest = some q)
      (value : Reads s (.quoted q true) ((afterEquals (afterName place c)).skip 1) ts d) :
      Reads s (.attribute place) c (s.nameToken place c :: ts) d
  | quotedConstruct {q alone c ts d us e}
      (inner : Reads s .construct (c.skip (fragmentReach s q c)) ts d)
      (more : Reads s (.quoted q false) d us e) :
      Reads s (.quoted q alone) c (s.fragment q false c ++ ts ++ us) e
  | quotedEnd {q alone c}
      (plain : s.construct? (c.skip (fragmentReach s q c)).offset
        (c.skip (fragmentReach s q c)).rest = none) :
      Reads s (.quoted q alone) c (s.fragment q alone c) ((c.skip (fragmentReach s q c)).skip 1)
  | bodyCut {c} (atEnd : c.skipBlanks.rest = []) : Reads s (.body .cut) c [] c.skipBlanks
  | bodyOpened {c} (closed : c.skipBlanks.sees ['>'] = true) :
      Reads s (.body .opened) c [.whole .tagClose (s.excerpt c.skipBlanks 1)] (c.skipBlanks.skip 1)
  | bodySelfClosed {c} (closed : c.skipBlanks.sees ['/', '>'] = true) :
      Reads s (.body .selfClosed) c [.whole .tagSlashClose (s.excerpt c.skipBlanks 2)]
        (c.skipBlanks.skip 2)
  | bodyConstruct {ending c ts d us e} (first : Reads s .construct c.skipBlanks ts d)
      (more : Reads s (.body ending) d us e) : Reads s (.body ending) c (ts ++ us) e
  | bodyAttribute {ending c ts d us e}
      (plain : s.construct? c.skipBlanks.offset c.skipBlanks.rest = none)
      (first : Reads s (.attribute .tag) c.skipBlanks ts d)
      (more : Reads s (.body ending) d us e) : Reads s (.body ending) c (ts ++ us) e
  | bodyStray {ending c ts d} (left : c.skipBlanks.rest ≠ [])
      (unclosed : c.skipBlanks.sees ['>'] = false)
      (going : c.skipBlanks.sees ['/', '>'] = false)
      (plain : s.construct? c.skipBlanks.offset c.skipBlanks.rest = none)
      (unnamed : nameReach .tag c.skipBlanks = 0)
      (more : Reads s (.body ending) (c.skipBlanks.skip 1) ts d) : Reads s (.body ending) c ts d
  | closingEnd {c} (closed : c.skipBlanks.sees ['>'] = true) :
      Reads s .closing c [.whole .tagClose (s.excerpt c.skipBlanks 1)] (c.skipBlanks.skip 1)
  | closingBare {c} (unclosed : c.skipBlanks.sees ['>'] = false) :
      Reads s .closing c [] c.skipBlanks

theorem nameReach_eq_zero {place : Place} {c : Cursor} :
    nameReach place c = 0 ↔ endsName place c.rest = true := by
  rw [nameReach, reach]
  cases c.rest with
  | nil => exact iff_of_true rfl rfl
  | cons x cs =>
    rw [reachFrom]
    split
    · next ends => exact iff_of_true rfl ends
    · next going =>
      have later := le_reachFrom (fun _ => endsName place) (0 + 1) cs
      exact iff_of_false (by omega) going

theorem eq_of_quote? {cs : List Char} {q : Char} (h : quote? cs = some q) :
    q = '"' ∨ q = '\x27' := by
  unfold quote? at h
  split at h
  · exact .inl (Option.some.inj h).symm
  · exact .inr (Option.some.inj h).symm
  · cases h

/-! ### The readers keep to the rules -/

variable {s : Source}

theorem readConstruct?_eq_none_iff {c : Cursor} :
    readConstruct? s c = none ↔ s.construct? c.offset c.rest = none := by
  rw [readConstruct?]
  split
  · next h => simp [h]
  · next o n h => cases o <;> simp [h]

/-- An attribute is read wherever a name begins. -/
theorem readAttribute?_eq_none_iff {place : Place} {c : Cursor} :
    readAttribute? s place c = none ↔ nameReach place c = 0 := by
  rw [readAttribute?]
  split
  · next h => simp [h]
  · next h =>
    dsimp only
    split
    · split <;> simp [h]
    · simp [h]

/-! Each reader keeps to the rules if those do that it calls. -/

theorem reads_of_readConstruct? {c : Cursor} {r : Reading c.rest.length}
    (inner : ∀ n, s.construct? c.offset c.rest = some (.directive, n) →
      Reads s .directive (c.skip 3) (readDirective s (c.skip 3)).tokens
        (readDirective s (c.skip 3)).next)
    (hr : readConstruct? s c = some r) : Reads s .construct c r.tokens r.next := by
  rw [readConstruct?] at hr
  split at hr
  · cases hr
  · next o n found =>
    cases o with
    | comment =>
      obtain rfl := Option.some.inj hr
      exact .comment found
    | directive =>
      obtain rfl := Option.some.inj hr
      exact .directive found (inner n found)
    | code kind =>
      obtain rfl := Option.some.inj hr
      exact .code found

theorem reads_of_readDirective {c : Cursor}
    (named : c.skipBlanks.rest ≠ [] → ¬ c.skipBlanks.sees ['%', '>'] = true → ∀ r,
      readAttribute? s .directive c.skipBlanks = some r →
        Reads s (.attribute .directive) c.skipBlanks r.tokens r.next ∧
          Reads s .directive r.next (readDirective s r.next).tokens (readDirective s r.next).next)
    (unnamed : c.skipBlanks.rest ≠ [] → ¬ c.skipBlanks.sees ['%', '>'] = true →
      readAttribute? s .directive c.skipBlanks = none →
        Reads s .directive (c.skipBlanks.skip 1) (readDirective s (c.skipBlanks.skip 1)).tokens
          (readDirective s (c.skipBlanks.skip 1)).next) :
    Reads s .directive c (readDirective s c).tokens (readDirective s c).next := by
  rw [readDirective]
  split
  · next atEnd => exact .directiveCut atEnd
  · next left =>
    split
    · next closed => exact .directiveEnd closed
    · next going =>
      dsimp only
      split
      · next r hr =>
        obtain ⟨first, more⟩ := named left going r hr
        exact .directiveAttribute first more
      · next hr =>
        exact .directiveStray left (by simpa using going) (readAttribute?_eq_none_iff.1 hr)
          (unnamed left going hr)

theorem reads_of_readAttribute? {place : Place} {c : Cursor} {r : Reading c.rest.length}
    (value : ∀ q, nameReach place c ≠ 0 → (afterName place c).rest.head? = some '=' →
      quote? (afterEquals (afterName place c)).rest = some q →
        Reads s (.quoted q true) ((afterEquals (afterName place c)).skip 1)
          (readQuoted s q true ((afterEquals (afterName place c)).skip 1)).tokens
          (readQuoted s q true ((afterEquals (afterName place c)).skip 1)).next)
    (hr : readAttribute? s place c = some r) :
    Reads s (.attribute place) c r.tokens r.next := by
  rw [readAttribute?] at hr
  split at hr
  · cases hr
  · next named =>
    dsimp only at hr
    split at hr
    · next valued =>
      split at hr
      · next q opened =>
        obtain rfl := Option.some.inj hr
        exact .quoted named valued opened (value q named valued opened)
      · next plain =>
        obtain rfl := Option.some.inj hr
        exact .unquoted named valued plain
    · next valueless =>
      obtain rfl := Option.some.inj hr
      exact .bare named valueless

theorem reads_of_readQuoted {q : Char} {alone : Bool} {c : Cursor}
    (inner : ∀ r, readConstruct? s (c.skip (fragmentReach s q c)) = some r →
      Reads s .construct (c.skip (fragmentReach s q c)) r.tokens r.next ∧
        Reads s (.quoted q false) r.next (readQuoted s q false r.next).tokens
          (readQuoted s q false r.next).next) :
    Reads s (.quoted q alone) c (readQuoted s q alone c).tokens (readQuoted s q alone c).next := by
  rw [readQuoted]
  split
  · next r hr =>
    obtain ⟨first, more⟩ := inner r hr
    have : Reads s (.quoted q alone) c _ _ := .quotedConstruct first more
    simpa [Source.fragment, Reading.followedBy] using this
  · next hr => exact .quotedEnd (readConstruct?_eq_none_iff.1 hr)

/-- The four readers that are recursive through one another, together. -/
theorem reads_readers (s : Source) :
    (∀ c r, readConstruct? s c = some r → Reads s .construct c r.tokens r.next) ∧
    (∀ c, Reads s .directive c (readDirective s c).tokens (readDirective s c).next) ∧
    (∀ place c r, readAttribute? s place c = some r →
      Reads s (.attribute place) c r.tokens r.next) ∧
    ∀ q alone c, Reads s (.quoted q alone) c (readQuoted s q alone c).tokens
      (readQuoted s q alone c).next := by
  -- The induction is on the calls of the readers; each case is one way to the end of a reader.
  apply readConstruct?.mutual_induct s
  case case1 => exact fun c h r => reads_of_readConstruct? (by simp [h])
  case case2 => exact fun c n h _ _ _ _ _ r => reads_of_readConstruct? (by simp [h])
  case case3 => exact fun c n h _ _ _ _ _ ih r => reads_of_readConstruct? fun _ _ => ih
  case case4 => exact fun c n kind h _ _ _ _ _ r => reads_of_readConstruct? (by simp [h])
  case case5 =>
    exact fun c _ atEnd => reads_of_readDirective (absurd atEnd) (absurd atEnd)
  case case6 =>
    exact fun c _ _ closed => reads_of_readDirective (fun _ => absurd closed)
      (fun _ => absurd closed)
  case case7 =>
    intro c _ _ _ _ r hr _ ihr ih
    refine reads_of_readDirective (fun _ _ r' hr' => ?_) (by simp [hr])
    obtain rfl := Option.some.inj (hr.symm.trans hr')
    exact ⟨ihr r hr, ih⟩
  case case8 =>
    exact fun c _ _ _ _ hr _ _ ih => reads_of_readDirective (by simp [hr]) fun _ _ _ => ih
  case case9 =>
    exact fun place c unnamed r => reads_of_readAttribute? fun _ named => absurd unnamed named
  case case10 =>
    intro place c _ _ _ _ q opened _ ih r
    refine reads_of_readAttribute? ?_
    intro q' _ _ opened'
    obtain rfl := Option.some.inj (opened.symm.trans opened')
    exact ih
  case case11 =>
    exact fun place c _ _ _ _ plain r => reads_of_readAttribute? (by simp [plain])
  case case12 =>
    exact fun place c _ _ valueless r => reads_of_readAttribute? fun _ _ valued =>
      absurd valued valueless
  case case13 =>
    intro q alone c _ r hr _ ihr ih
    refine reads_of_readQuoted ?_
    intro r' hr'
    obtain rfl := Option.some.inj (hr.symm.trans hr')
    exact ⟨ihr r hr, ih⟩
  case case14 => exact fun q alone c _ hr _ => reads_of_readQuoted (by simp [hr])

theorem reads_readConstruct? {c : Cursor} {r : Reading c.rest.length}
    (h : readConstruct? s c = some r) : Reads s .construct c r.tokens r.next :=
  (reads_readers s).1 c r h

theorem reads_readAttribute? {place : Place} {c : Cursor} {r : Reading c.rest.length}
    (h : readAttribute? s place c = some r) : Reads s (.attribute place) c r.tokens r.next :=
  (reads_readers s).2.2.1 place c r h

theorem reads_readTagBody (s : Source) (c : Cursor) :
    Reads s (.body (readTagBody s c).2) c (readTagBody s c).1.tokens (readTagBody s c).1.next := by
  fun_induction readTagBody s c with
  | case1 c _ atEnd => exact .bodyCut atEnd
  | case2 c _ _ closed => exact .bodyOpened closed
  | case3 c _ _ _ closed => exact .bodySelfClosed closed
  | case4 c _ _ _ _ _ r hr _ body ending hb ih =>
    rw [hb] at ih
    cases hc : readConstruct? s c.skipBlanks with
    | some r' =>
      rw [hc] at hr
      obtain rfl := Option.some.inj hr
      exact .bodyConstruct (reads_readConstruct? hc) ih
    | none =>
      rw [hc] at hr
      exact .bodyAttribute (readConstruct?_eq_none_iff.1 hc) (reads_readAttribute? hr) ih
  | case5 c _ left unclosed going _ hr _ body ending hb ih =>
    rw [hb] at ih
    cases hc : readConstruct? s c.skipBlanks with
    | some r' => simp [hc] at hr
    | none =>
      rw [hc] at hr
      exact .bodyStray left (by simpa using unclosed) (by simpa using going)
        (readConstruct?_eq_none_iff.1 hc) (readAttribute?_eq_none_iff.1 hr) ih

/-! ### Where a reader comes to -/

namespace Cursor.On

variable {c : Cursor}

theorem afterName {place : Place} (h : c.On s) : (afterName place c).On s :=
  (h.skip _).skipBlanks

theorem afterEquals (h : c.On s) : (afterEquals c).On s :=
  (h.skip 1).skipBlanks

end Cursor.On

namespace Reads

variable {part : Part} {c d : Cursor} {ts : List Token}

/-- A reader goes forward, so it stays in its source. -/
theorem on (h : Reads s part c ts d) (hc : c.On s) : d.On s := by
  induction h with
  | comment | code => exact hc.skip _
  | directiveCut | bodyCut | closingBare => exact hc.skipBlanks
  | directiveEnd | bodyOpened | bodySelfClosed | closingEnd => exact hc.skipBlanks.skip _
  | bare => exact hc.afterName
  | unquoted => exact hc.afterName.afterEquals.skip _
  | quotedEnd => exact (hc.skip _).skip 1
  | directive _ _ ih => exact ih (hc.skip 3)
  | directiveAttribute _ _ ih₁ ih₂ => exact ih₂ (ih₁ hc.skipBlanks)
  | directiveStray _ _ _ _ ih => exact ih (hc.skipBlanks.skip 1)
  | quoted _ _ _ _ ih => exact ih (hc.afterName.afterEquals.skip 1)
  | quotedConstruct _ _ ih₁ ih₂ => exact ih₂ (ih₁ (hc.skip _))
  | bodyConstruct _ _ ih₁ ih₂ => exact ih₂ (ih₁ hc.skipBlanks)
  | bodyAttribute _ _ _ ih₁ ih₂ => exact ih₂ (ih₁ hc.skipBlanks)
  | bodyStray _ _ _ _ _ _ ih => exact ih (hc.skipBlanks.skip 1)

/-- A tag that is cut goes on to the end of the text. -/
theorem rest_of_cut (h : Reads s (.body .cut) c ts d) : d.rest = [] := by
  generalize hp : Part.body .cut = p at h
  induction h with
  | bodyCut atEnd => exact atEnd
  | bodyConstruct _ _ _ ih => exact ih hp
  | bodyAttribute _ _ _ _ ih => exact ih hp
  | bodyStray _ _ _ _ _ _ ih => exact ih hp
  | _ => simp at hp

end Reads

end ServerMarkup
