/-
# The grammar of the tokens

`Phrase.rule` is the grammar in which the tokens of a page are written, in EBNF over the kinds of
tokens:

| phrase | rule |
| --- | --- |
| `stream` | [text] {markup [text]} |
| `markup` | comment, docType, construct, startTag or endTag |
| `construct` | serverComment, code or directive |
| `directive` | startDirective {attribute} (endDirective or the end) |
| `startTag` | tagOpen name {attribute or construct} (tagClose, tagSlashClose or the end) |
| `endTag` | tagOpenSlash name [tagClose] |
| `name` | [elementNamespace] elementName |
| `attribute` | attribute [value] |
| `value` | (attributeValue or construct [attributeValue]) {construct [attributeValue]} |

A text of a stream holds characters, and no two are side by side; nor are two fragments of a value.
The end may stand for a closing token only where no token is left.

What is read by rules (`Reads`) is written by the rule of its part (`Reads.matches_rule`), provided
that nothing follows if it came to the end of the source; this is so because a part that goes on
from there reads nothing (`Reads.eq_nil_of_atEnd`).  A step of the lexer gathers text, or puts the
text gathered and one markup before what the steps after it emit (`Goes.matches_stream`), which
gives `tokens_match`.
-/

import ServerMarkup.Proofs.Lexer.Moves

namespace ServerMarkup

/-! ### Rules and their words -/

/-- The phrases of the grammar. -/
inductive Phrase where
  | stream
  | markup
  | construct
  | code
  | directive
  | startTag
  | endTag
  | name
  | attribute
  | value
deriving DecidableEq, Repr

/-- The right-hand sides of a grammar over the kinds of tokens. -/
inductive Rule where
  | empty
  /-- No token is left. -/
  | stop
  | token (kind : TokenKind)
  /-- A token of the kind that stands for at least one character. -/
  | filled (kind : TokenKind)
  | phrase (p : Phrase)
  | sequence (r r' : Rule)
  | choice (r r' : Rule)
  | many (r : Rule)
deriving DecidableEq, Repr

namespace Rule

instance : Append Rule := ⟨sequence⟩

instance : OrOp Rule := ⟨choice⟩

/-- The rule once or not at all. -/
def optional (r : Rule) : Rule :=
  r ||| empty

end Rule

/-- How each phrase is written. -/
def Phrase.rule : Phrase → Rule
  | .stream => .optional (.filled .text) ++ .many (.phrase .markup ++ .optional (.filled .text))
  | .markup => .token .comment ||| .token .docType ||| .phrase .construct ||| .phrase .startTag |||
      .phrase .endTag
  | .construct => .token .serverComment ||| .phrase .code ||| .phrase .directive
  | .code => .token (.code .statement) ||| .token (.code .output) ||| .token (.code .binding) |||
      .token (.code .encoded)
  | .directive => .token .startDirective ++
      (.many (.phrase .attribute) ++ (.token .endDirective ||| .stop))
  | .startTag => .token .tagOpen ++ (.phrase .name ++
      (.many (.phrase .attribute ||| .phrase .construct) ++
        (.token .tagClose ||| .token .tagSlashClose ||| .stop)))
  | .endTag => .token .tagOpenSlash ++ (.phrase .name ++ .optional (.token .tagClose))
  | .name => .optional (.token .elementNamespace) ++ .token .elementName
  | .attribute => .token .attribute ++ .optional (.phrase .value)
  | .value =>
    (.token .attributeValue ||| .phrase .construct ++ .optional (.token .attributeValue)) ++
      .many (.phrase .construct ++ .optional (.token .attributeValue))

/-- `Matches r ts us`: a word of the rule `r` stands at the beginning of `ts`, and `us` is what is
left after it. -/
inductive Matches : Rule → List Token → List Token → Prop where
  | empty {ts} : Matches .empty ts ts
  | stop : Matches .stop [] []
  | token {kind t ts} (same : t.kind = kind) : Matches (.token kind) (t :: ts) ts
  | filled {kind t ts} (same : t.kind = kind) (holds : t.text.chars ≠ []) :
      Matches (.filled kind) (t :: ts) ts
  | phrase {p ts us} (written : Matches p.rule ts us) : Matches (.phrase p) ts us
  | sequence {r r' ts us vs} (first : Matches r ts us) (second : Matches r' us vs) :
      Matches (.sequence r r') ts vs
  | inl {r r' ts us} (written : Matches r ts us) : Matches (.choice r r') ts us
  | inr {r r' ts us} (written : Matches r' ts us) : Matches (.choice r r') ts us
  | done {r ts} : Matches (.many r) ts ts
  | more {r ts us vs} (first : Matches r ts us) (others : Matches (.many r) us vs) :
      Matches (.many r) ts vs

/-- The rule by which a part is written. -/
def Part.rule : Part → Rule
  | .construct => .phrase .construct
  | .directive => .many (.phrase .attribute) ++ (.token .endDirective ||| .stop)
  | .attribute _ => .phrase .attribute
  | .quoted _ true => .phrase .value
  | .quoted _ false => .optional (.token .attributeValue) ++
      .many (.phrase .construct ++ .optional (.token .attributeValue))
  | .body _ => .many (.phrase .attribute ||| .phrase .construct) ++
      (.token .tagClose ||| .token .tagSlashClose ||| .stop)
  | .closing => .optional (.token .tagClose)

/-- The parts that go on after a construct or an attribute. -/
def Part.GoesOn : Part → Prop
  | .directive | .quoted _ false | .body _ => True
  | _ => False

variable {s : Source} {part : Part} {c d : Cursor} {r r' : Rule} {t : Token} {ts us vs : List Token}

/-- The fragment of a value is one token, or none if the value goes on or has begun. -/
theorem Source.fragment_eq (s : Source) (q : Char) (alone : Bool) (c : Cursor) :
    s.fragment q alone c = [] ∧ alone = false ∨
      ∃ t, s.fragment q alone c = [t] ∧ t.kind = .attributeValue := by
  unfold fragment
  split
  · next empty =>
    simp only [Bool.and_eq_true, Bool.not_eq_true'] at empty
    exact .inl ⟨rfl, empty.2⟩
  · exact .inr ⟨_, rfl, rfl⟩

namespace Matches

theorem left (h : Matches r ts us) : Matches (r ||| r') ts us :=
  .inl h

theorem right (h : Matches r' ts us) : Matches (r ||| r') ts us :=
  .inr h

theorem append (first : Matches r ts us) (second : Matches r' us vs) : Matches (r ++ r') ts vs :=
  .sequence first second

theorem optional (h : Matches r ts us) : Matches r.optional ts us :=
  left h

theorem skipped : Matches r.optional ts ts :=
  right .empty

/-- A repetition that something follows begins with one more word. -/
theorem more_append (first : Matches r ts us) (h : Matches (.many r ++ r') us vs) :
    Matches (.many r ++ r') ts vs := by
  cases h with
  | sequence others last => exact append (.more first others) last

/-- What stands between the words of a repetition is counted to the one before it. -/
theorem many_of_append (first : Matches r ts us)
    (h : Matches (r' ++ .many (r ++ r')) us vs) : Matches (.many (r ++ r')) ts vs := by
  cases h with
  | sequence between others => exact .more (append first between) others

theorem code (h : t.isCode = true) : Matches (.phrase .code) (t :: ts) ts := by
  obtain ⟨kind, span, text⟩ := t
  cases kind with
  | code kind =>
    cases kind with
    | statement => exact .phrase (left (left (left (.token rfl))))
    | output => exact .phrase (left (left (right (.token rfl))))
    | binding => exact .phrase (left (right (.token rfl)))
    | encoded => exact .phrase (right (.token rfl))
  | _ => simp [Token.isCode, TokenKind.isCode] at h

/-- A tag name, after its prefix if it has one. -/
theorem name (e : Excerpt) : Matches (.phrase .name) (nameTokens e ++ ts) ts := by
  unfold nameTokens
  split
  · exact .phrase (append (optional (.token rfl)) (.token rfl))
  · exact .phrase (append skipped (.token rfl))

/-- The fragment of a value that may be empty. -/
theorem fragment (q : Char) (c : Cursor) :
    Matches (.optional (.token .attributeValue)) (s.fragment q false c ++ ts) ts := by
  rcases s.fragment_eq q false c with ⟨hf, -⟩ | ⟨t, hf, hk⟩
  · rw [hf]
    exact skipped
  · rw [hf]
    exact optional (.token hk)

/-- The text gathered, if there is any, holds characters. -/
theorem gathered {st : LexerState} (h : st.On s) :
    Matches (.optional (.filled .text)) (st.gathered s ++ ts) ts := by
  unfold LexerState.gathered
  split
  · next before =>
    refine optional (.filled rfl ?_)
    have within := h.cursor.offset_le
    have left := h.text.length_rest
    simp only [Token.whole, Source.chars_excerpt, ne_eq, List.take_eq_nil_iff, not_or]
    exact ⟨by omega, List.length_pos_iff.1 (by omega)⟩
  · exact skipped

end Matches

/-! ### What is read -/

namespace Reads

theorem ne_nil_of_construct (h : Reads s .construct c ts d) : c.rest ≠ [] := by
  intro atEnd
  cases h with
  | comment found | code found | directive found =>
    rw [atEnd] at found
    cases found

theorem ne_nil_of_attribute {place : Place} (h : Reads s (.attribute place) c ts d) :
    c.rest ≠ [] := by
  intro atEnd
  cases h with
  | bare named | unquoted named | quoted named =>
    rw [nameReach, atEnd] at named
    exact named rfl

/-- A part that goes on at the end of the source reads nothing. -/
theorem eq_nil_of_atEnd (h : Reads s part c ts d) (goes : part.GoesOn) (atEnd : c.rest = []) :
    ts = [] ∧ d.rest = [] := by
  have blanks : c.skipBlanks.rest = [] := by simp [Cursor.skipBlanks, atEnd]
  have fragment (q : Char) : fragmentReach s q c = 0 := by
    rw [fragmentReach, atEnd]
    rfl
  have unseen (m : Char) (ms : List Char) : c.skipBlanks.sees (m :: ms) = false := by
    simp [Cursor.sees, blanks]
  cases h with
  | directiveCut | bodyCut => exact ⟨rfl, blanks⟩
  | directiveEnd closed | bodyOpened closed | bodySelfClosed closed => simp [unseen] at closed
  | directiveAttribute first => exact absurd blanks first.ne_nil_of_attribute
  | bodyAttribute _ first => exact absurd blanks first.ne_nil_of_attribute
  | bodyConstruct first => exact absurd blanks first.ne_nil_of_construct
  | directiveStray left | bodyStray left => exact absurd blanks left
  | quotedConstruct inner =>
    refine absurd ?_ inner.ne_nil_of_construct
    simp [atEnd]
  | @quotedEnd q alone =>
    cases alone with
    | true => exact goes.elim
    | false => exact ⟨by simp [Source.fragment, fragment], by simp [atEnd]⟩
  | comment | code | directive | bare | unquoted | quoted | closingEnd | closingBare =>
    exact goes.elim

/-- **What is read is written by the rule of its part**, if nothing follows when it comes to the end
of the source. -/
theorem matches_rule (h : Reads s part c ts d) {rest : List Token}
    (ends : d.rest = [] → rest = []) : Matches part.rule (ts ++ rest) rest := by
  -- What comes first ends before the source does, or the rest has no tokens.
  have between {part : Part} {c d : Cursor} {us rest : List Token}
      (more : Reads s part c us d) (goes : part.GoesOn) (ends : d.rest = [] → rest = [])
      (atEnd : c.rest = []) : us ++ rest = [] := by
    obtain ⟨rfl, hd⟩ := more.eq_nil_of_atEnd goes atEnd
    simpa using ends hd
  induction h generalizing rest with
  | comment => exact .phrase (.left (.left (.token rfl)))
  | code => exact .phrase (.left (.right (.code rfl)))
  | directive _ _ ih => exact .phrase (.right (.phrase (.append (.token rfl) (ih ends))))
  | directiveCut atEnd =>
    rw [ends atEnd]
    exact .append .done (.right .stop)
  | directiveEnd => exact .append .done (.left (.token rfl))
  | directiveAttribute _ more ih₁ ih₂ =>
    rw [List.append_assoc]
    exact .more_append (ih₁ (between more trivial ends)) (ih₂ ends)
  | directiveStray _ _ _ _ ih => exact ih ends
  | bare => exact .phrase (.append (.token rfl) .skipped)
  | unquoted =>
    exact .phrase (.append (.token rfl) (.optional (.phrase (.append (.left (.token rfl)) .done))))
  | quoted _ _ _ _ ih => exact .phrase (.append (.token rfl) (.optional (ih ends)))
  | @quotedConstruct q alone c _ _ _ _ _ more ih₁ ih₂ =>
    have first := ih₁ (between more trivial ends)
    have others := ih₂ ends
    rw [List.append_assoc, List.append_assoc]
    cases alone with
    | false => exact .append (.fragment q c) (.many_of_append first others)
    | true =>
      rcases s.fragment_eq q false c with ⟨hf, -⟩ | ⟨t, hf, hk⟩
      · rw [hf, List.nil_append]
        cases others with
        | sequence between others =>
          exact .phrase (.append (.right (.append first between)) others)
      · rw [hf]
        exact .phrase (.append (.left (.token hk)) (.many_of_append first others))
  | @quotedEnd q alone c =>
    cases alone with
    | false => exact .append (.fragment q c) .done
    | true =>
      rcases s.fragment_eq q true c with ⟨-, alone⟩ | ⟨t, hf, hk⟩
      · cases alone
      · rw [hf]
        exact .phrase (.append (.left (.token hk)) .done)
  | bodyCut atEnd =>
    rw [ends atEnd]
    exact .append .done (.right .stop)
  | bodyOpened => exact .append .done (.left (.left (.token rfl)))
  | bodySelfClosed => exact .append .done (.left (.right (.token rfl)))
  | bodyConstruct _ more ih₁ ih₂ =>
    rw [List.append_assoc]
    exact .more_append (.right (ih₁ (between more trivial ends))) (ih₂ ends)
  | bodyAttribute _ _ more ih₁ ih₂ =>
    rw [List.append_assoc]
    exact .more_append (.left (ih₁ (between more trivial ends))) (ih₂ ends)
  | bodyStray _ _ _ _ _ _ ih => exact ih ends
  | closingEnd => exact .optional (.token rfl)
  | closingBare => exact .skipped

end Reads

/-! ### What the lexer emits -/

namespace LexerState

variable {st next : LexerState}

/-- What is taken apart is one markup. -/
theorem Takes.matches_markup (h : Takes s st ts next) (ends : next.cursor.rest = [] → us = []) :
    Matches (.phrase .markup) (ts ++ us) us := by
  have start {ending : TagEnd} {vs : List Token} {d : Cursor}
      (inner : Reads s (.body ending) (st.cursor.skip (st.startName.length + 1)) vs d)
      (ends : d.rest = [] → us = []) :
      Matches (.phrase .markup) (st.startTokens s ++ vs ++ us) us := by
    rw [List.append_assoc]
    have body := inner.matches_rule ends
    exact .phrase (.left (.right (.phrase (.append (.token rfl) (.append (.name _) body)))))
  cases h with
  | whole isWhole =>
    rcases isWhole with rfl | rfl
    · exact .phrase (.left (.left (.left (.left (.token rfl)))))
    · exact .phrase (.left (.left (.left (.right (.token rfl)))))
  | construct inner => exact .phrase (.left (.left (.right (inner.matches_rule ends))))
  | openingTag _ _ _ inner => exact start inner ends
  | loneTag _ _ _ inner => exact start inner ends
  | closingTag _ _ _ inner =>
    rw [List.append_assoc]
    have closing := inner.matches_rule ends
    exact .phrase (.right (.phrase (.append (.token rfl) (.append (.name _) closing))))

/-- A step gathers text, or emits the text gathered and one markup. -/
theorem Goes.matches_stream (h : Goes s st ts next) (on : st.On s)
    (ends : next.cursor.rest = [] → next.text = next.cursor → us = [])
    (more : Matches Phrase.stream.rule us []) : Matches Phrase.stream.rule (ts ++ us) [] := by
  have markup {st : LexerState} {vs : List Token} (on : st.On s)
      (first : Matches (.phrase .markup) (vs ++ us) us) :
      Matches Phrase.stream.rule (st.gathered s ++ vs ++ us) [] := by
    rw [List.append_assoc]
    exact .append (.gathered on) (.many_of_append first more)
  cases h with
  | text | literalTag | literalEnd | rawEnd => exact more
  | @rawConstruct tag _ _ _ inner =>
    refine markup (on.addText _) (.phrase (.left (.left (.right (inner.matches_rule ?_)))))
    exact fun atEnd => ends atEnd rfl
  | taken _ takes =>
    refine markup on (takes.matches_markup fun atEnd => ends atEnd ?_)
    exact (takes.on on.cursor).2

theorem matches_tokens (on : st.On s) : Matches Phrase.stream.rule (st.tokens s) [] := by
  fun_induction tokens s st with
  | case1 st ts h =>
    obtain ⟨-, -, rfl⟩ := eq_gathered_of_step h
    have text : Matches (.optional (.filled .text)) (st.gathered s ++ []) [] := .gathered on
    rw [List.append_nil] at text
    exact .append text .done
  | case2 st ts next h ih =>
    have goes := goes_of_step h
    exact goes.matches_stream on tokens_eq_nil (ih (goes.on on))

end LexerState

/-- **The tokens of a text are a stream**: their kinds are written by the grammar, to the last
token. -/
theorem tokens_match (file text : String) :
    Matches (.phrase .stream) (tokenize file text) [] :=
  .phrase (LexerState.matches_tokens (LexerState.on_start _))

end ServerMarkup
