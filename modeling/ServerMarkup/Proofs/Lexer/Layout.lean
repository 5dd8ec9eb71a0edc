/-
# How tokens lie in the source

`Laid s k a ts b` says that the tokens `ts` lie one after the other between the offsets `a` and `b`
of the text, and what stands between them; `k` is the kind of the token before.  What may stand
between two tokens depends on the first one:

| after | may stand |
| --- | --- |
| text, a comment, a document type, the marks of a tag, or at the start | nothing |
| the prefix of a tag name | the colon before the name |
| any other token | characters that the lexer passes over |

After a token of the first kind, or at the start, the next token is not empty, so the character
there belongs to it.  `Laid.append` puts two layouts together: the characters passed over at the end
of one and at the start of the next make one gap.
-/

import ServerMarkup.Proofs.Lexer.Steps
import ServerMarkup.Proofs.Source.Excerpts

namespace ServerMarkup

/-- The characters that may be left out of all tokens: blanks, quotes, and what is stray in a tag
or a directive. -/
def isPassedOver (c : Char) : Bool :=
  isBlank c || ['\x00', '"', '\x27', '=', '/', '<', '>'].contains c

namespace TokenKind

/-- Whether characters may be passed over after a token of the kind. -/
def isLoose : TokenKind → Bool
  | .serverComment | .elementName | .attribute | .attributeValue | .code _ | .startDirective
  | .endDirective => true
  | _ => false

/-- Whether the next token follows a token of the kind without a gap. -/
def isTight : TokenKind → Bool
  | .text | .comment | .docType | .tagOpen | .tagOpenSlash | .tagClose | .tagSlashClose => true
  | _ => false

end TokenKind

namespace Token

/-- The offset of the first character of a token. -/
def start (t : Token) : Nat :=
  t.span.start.offset

/-- The offset behind the last character of a token. -/
def stop (t : Token) : Nat :=
  t.span.stop.offset

/-- The character at the offset belongs to the token. -/
def Covers (t : Token) (o : Nat) : Prop :=
  t.start ≤ o ∧ o < t.stop

instance (t : Token) (o : Nat) : Decidable (t.Covers o) :=
  inferInstanceAs (Decidable (t.start ≤ o ∧ o < t.stop))

end Token

/-- Whether characters may be passed over after a token of the kind; not at the start. -/
def Loose (k : Option TokenKind) : Prop :=
  k.any TokenKind.isLoose = true

/-- Whether the next token follows without a gap: after tight tokens, and at the start. -/
def Tight (k : Option TokenKind) : Prop :=
  k.all TokenKind.isTight = true

/-- What may stand from the offset `a` to the offset `b`, between a token of the kind `k` and one of
the kind `k'`. -/
inductive Gap (s : Source) : Option TokenKind → Option TokenKind → Nat → Nat → Prop where
  | nothing {k k' a} : Gap s k k' a a
  | colon {a} (h : s.text[a]? = some ':') :
      Gap s (some .elementNamespace) (some .elementName) a (a + 1)
  | passed {k k' a b} (loose : Loose k) (le : a ≤ b)
      (all : ∀ i, a ≤ i → i < b → (s.text[i]?).any isPassedOver = true) : Gap s k k' a b

/-- The tokens lie one after the other from the offset `a` to the offset `b`, after a token of the
kind `k`, with nothing between them but what may stand there. -/
def Laid (s : Source) : Option TokenKind → Nat → List Token → Nat → Prop
  | k, a, [], b => Gap s k none a b
  | k, a, t :: ts, b =>
    Gap s k (some t.kind) a t.start ∧ t.start ≤ t.stop ∧ (Tight k → t.start < t.stop) ∧
      Laid s (some t.kind) t.stop ts b

/-- The kind of the last token, or that of the token before if there is none. -/
def lastKind (k : Option TokenKind) (ts : List Token) : Option TokenKind :=
  ts.foldl (fun _ t => some t.kind) k

variable {s : Source}

/-! ### Gaps -/

namespace Gap

variable {k k' : Option TokenKind} {a b d : Nat} {c : Cursor}

theorem le (h : Gap s k k' a b) : a ≤ b := by
  cases h with
  | nothing => exact Nat.le_refl a
  | colon _ => exact Nat.le_succ a
  | passed _ le _ => exact le

/-- Two gaps after the same token make one. -/
theorem trans (h : Gap s k none a b) (h' : Gap s k k' b d) : Gap s k k' a d := by
  cases h with
  | nothing => exact h'
  | passed loose le all =>
    cases h' with
    | nothing => exact .passed loose le all
    | colon _ => simp [Loose, TokenKind.isLoose] at loose
    | passed _ le' all' =>
      refine .passed loose (Nat.le_trans le le') ?_
      intro i hi hd
      rcases Nat.lt_or_ge i b with hb | hb
      · exact all i hi hb
      · exact all' i hb hd

/-- Characters of the kinds that are passed over make a gap. -/
theorem skip (hc : c.On s) (loose : Loose k) {n : Nat}
    (h : ∀ x ∈ c.rest.take n, isPassedOver x = true) : Gap s k k' c.offset (c.skip n).offset := by
  have hoff := c.offset_skip n
  refine .passed loose (by omega) ?_
  intro i hi hb
  obtain ⟨j, rfl⟩ := Nat.exists_eq_add_of_le hi
  have hj : j < (c.rest.take n).length := by rw [List.length_take]; omega
  rw [← hc.getElem?_rest, ← List.getElem?_take_of_lt (i := j) (j := n) (by omega),
    List.getElem?_eq_getElem hj]
  exact h _ (List.getElem_mem hj)

theorem blanks (hc : c.On s) (loose : Loose k) : Gap s k k' c.offset c.skipBlanks.offset := by
  refine skip hc loose ?_
  intro x hx
  have hall := List.all_eq_true.1 (List.all_takeWhile (p := isBlank) (l := c.rest)) x
  rw [← List.prefix_iff_eq_take.1 (List.takeWhile_prefix isBlank)] at hx
  simp [isPassedOver, hall hx]

/-- The character at the cursor may be passed over. -/
theorem one (hc : c.On s) (loose : Loose k) (h : c.rest.head?.all isPassedOver = true) :
    Gap s k k' c.offset (c.skip 1).offset := by
  refine skip hc loose ?_
  intro x hx
  cases hr : c.rest with
  | nil => simp [hr] at hx
  | cons y ys =>
    simp only [hr, List.take_succ_cons, List.take_zero, List.mem_singleton, List.head?_cons,
      Option.all_some] at hx h
    exact hx ▸ h

end Gap

/-! ### Layouts -/

theorem lastKind_append (k : Option TokenKind) (ts us : List Token) :
    lastKind k (ts ++ us) = lastKind (lastKind k ts) us :=
  List.foldl_append ..

namespace Laid

variable {k : Option TokenKind} {a b d : Nat} {ts us : List Token} {c : Cursor}

/-- What a gap leads to. -/
theorem after (h : Gap s k none a b) (hl : Laid s k b ts d) : Laid s k a ts d := by
  cases ts with
  | nil => exact h.trans hl
  | cons t ts => exact ⟨h.trans hl.1, hl.2⟩

theorem append (h : Laid s k a ts b) (h' : Laid s (lastKind k ts) b us d) :
    Laid s k a (ts ++ us) d := by
  induction ts generalizing k a with
  | nil => exact after h h'
  | cons t ts ih => exact ⟨h.1, h.2.1, h.2.2.1, ih h.2.2.2 h'⟩

/-- A token that is not empty and stands at the start may follow any token. -/
theorem congr {k' : Option TokenKind} {t : Token} (h : Laid s k a (t :: ts) b) (start : t.start = a)
    (filled : t.start < t.stop) : Laid s k' a (t :: ts) b :=
  ⟨start ▸ .nothing, h.2.1, fun _ => filled, h.2.2.2⟩

/-- A token whose span begins at the cursor. -/
theorem token {t : Token} {n : Nat} (span : t.span = s.span c n)
    (filled : Tight k → n ≠ 0 ∧ c.rest ≠ []) (h : Laid s (some t.kind) (c.skip n).offset ts b) :
    Laid s k c.offset (t :: ts) b := by
  have hoff := c.offset_skip n
  have hstart : t.start = c.offset := by rw [Token.start, span]; rfl
  have hstop : t.stop = (c.skip n).offset := by rw [Token.stop, span]; rfl
  refine ⟨hstart ▸ .nothing, by omega, fun ht => ?_, hstop ▸ h⟩
  have := List.length_pos_iff.2 (filled ht).2
  have := (filled ht).1
  omega

/-- The tokens of a tag name that does not begin with a colon. -/
theorem nameTokens (hc : c.On s) {n : Nat} (hn : n ≤ c.rest.length) (filled : n ≠ 0)
    (letter : c.rest.head? ≠ some ':') :
    Laid s k c.offset (nameTokens (s.excerpt c n)) (c.skip n).offset := by
  have hlen : (s.excerpt c n).length = n := by
    rw [Excerpt.length, Source.chars_excerpt, List.length_take, Nat.min_eq_left hn]
  have hoff : (c.skip n).offset = c.offset + n := by
    rw [c.offset_skip, Nat.min_eq_left hn]
  unfold ServerMarkup.nameTokens
  split
  · next i hi =>
    obtain ⟨hlt, hcolon, _⟩ := List.findIdx?_eq_some_iff_getElem.1 hi
    have hin : i < n := by rwa [← hlen]
    have hat : c.rest[i]? = some ':' := by
      rw [← List.getElem?_take_of_lt hin, ← Source.chars_excerpt s c n,
        List.getElem?_eq_getElem hlt]
      simpa using hcolon
    have hpos : i ≠ 0 := by
      rintro rfl
      exact letter (List.head?_eq_getElem? ▸ hat)
    have hfirst := (s.excerpt c n).start_slice 0 i
    have hcut := (s.excerpt c n).stop_slice 0 i
    have hnext := (s.excerpt c n).start_slice (i + 1) (s.excerpt c n).length
    have hlast := (s.excerpt c n).stop_slice (i + 1) (s.excerpt c n).length
    rw [hlen] at hfirst hcut hnext hlast
    change _ = c.offset + _ at hfirst hcut hnext hlast
    have hgap : Gap s (some .elementNamespace) (some .elementName) (c.offset + i)
        (c.offset + i + 1) := .colon (by rw [← hc.getElem?_rest]; exact hat)
    simp only [Laid, Token.whole, Token.start, Token.stop, hlen, hfirst, hcut, hnext, hlast, hoff]
    simp only [Nat.min_self, Nat.min_eq_left (Nat.le_of_lt hin), Nat.zero_min, Nat.add_zero,
      Nat.min_eq_left hin]
    refine ⟨.nothing, by omega, fun _ => by omega, hgap, by omega, fun ht => ?_, .nothing⟩
    simp [Tight, TokenKind.isTight] at ht
  · refine token rfl (fun _ => ⟨filled, fun he => ?_⟩) .nothing
    simp [he] at hn
    exact filled hn

end Laid

end ServerMarkup
