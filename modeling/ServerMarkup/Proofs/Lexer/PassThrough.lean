/-
# Plain HTML passes through

Most of a page is not meant for the server.  A source is *plain* if it opens no comment, construct
or document type and if each of its start tags is left alone: its name is neither one that is always
taken apart nor capitalised, and the look ahead from its end finds no `runat`.

In a plain source no tag is ever opened, so no closing tag closes one, however it is named.  Each
step but the last only gathers more text (`step_gathering`), and what has been gathered at the end
is the whole source (`tokenize_of_isPlain`).
-/

import Mathlib.Data.List.Infix
import ServerMarkup.Proofs.Lexer.Steps

namespace ServerMarkup

/-- The name of the tag that the character `o` opens, if that is a `<`. -/
def Source.tagName (s : Source) (o : Nat) : String :=
  .ofList (tagNameOf (s.text.drop (o + 1)))

/-- The start tag that the character `o` opens is left alone. -/
structure Source.LeavesTag (s : Source) (o : Nat) : Prop where
  unstructured : isStructuredTag (s.tagName o) = false
  uncapitalised : looksLikeServerTag (s.tagName o) = false
  unmarked : (inspectTag s (s.begin.skip (o + (1 + (s.tagName o).length)))).runat = false

/-- A source in which nothing is taken apart. -/
structure Source.IsPlain (s : Source) : Prop where
  no_construct : ¬ ['<', '%'] <:+: s.text
  no_comment : ¬ ['<', '!', '-', '-'] <:+: s.text
  no_docType : ∀ o < s.text.length,
    namedAt ['<', '!', 'd', 'o', 'c', 't', 'y', 'p', 'e'] (s.text.drop o) = false
  no_tag : ∀ o < s.text.length, s.text[o]? = some '<' →
    (s.text.drop (o + 1)).head?.any isLetter = true → s.LeavesTag o

instance (s : Source) (o : Nat) : Decidable (s.LeavesTag o) :=
  decidable_of_iff (_ ∧ _ ∧ _) ⟨fun h => ⟨h.1, h.2.1, h.2.2⟩, fun h => ⟨h.1, h.2, h.3⟩⟩

instance (s : Source) : Decidable s.IsPlain :=
  decidable_of_iff (_ ∧ _ ∧ _ ∧ _)
    ⟨fun h => ⟨h.1, h.2.1, h.2.2.1, h.2.2.2⟩, fun h => ⟨h.1, h.2, h.3, h.4⟩⟩

/-- Among no open tags, every closing tag is text. -/
theorem closeTag?_nil (name : String) : closeTag? [] name = none := by
  simp [closeTag?]

namespace LexerState

variable {s : Source} {o : Nat}

/-- The state in which the first `o` characters have been gathered as text and no tag is open. -/
def gathering (s : Source) (o : Nat) : LexerState :=
  ⟨s.begin.skip o, s.begin, [], none⟩

theorem rest_gathering (s : Source) (o : Nat) :
    (gathering s o).cursor.rest = s.text.drop o := rfl

theorem addText_gathering (s : Source) (o n : Nat) :
    (gathering s o).addText n = gathering s (o + n) := by
  simp [gathering, addText, Cursor.skip_skip]

/-- A mark that does not occur in the source is seen nowhere. -/
theorem not_sees_gathering {mark : List Char} (absent : ¬ mark <:+: s.text) (o : Nat) :
    (gathering s o).cursor.sees mark = false := by
  rw [Cursor.sees, Bool.eq_false_iff]
  intro sees
  exact absent ((List.isPrefixOf_iff_prefix.1 sees).isInfix.trans (List.drop_suffix o _).isInfix)

/-- A start tag that is left alone is gathered up to the end of its name. -/
theorem startTag_gathering (leaves : s.LeavesTag o) :
    (gathering s o).startTag s (s.tagName o).length =
      ([], gathering s (o + (1 + (s.tagName o).length))) := by
  have name : String.ofList (((gathering s o).cursor.rest.drop 1).take (s.tagName o).length) =
      s.tagName o := by
    rw [rest_gathering, List.drop_drop, Source.tagName, String.length_ofList, take_length_tagNameOf]
  have alone : (gathering s o).opened = [] := rfl
  have unmarked := leaves.unmarked
  rw [← Cursor.skip_skip, Nat.add_comm 1] at unmarked
  change (inspectTag s ((gathering s o).cursor.skip ((s.tagName o).length + 1))).runat = false
    at unmarked
  rw [startTag, name]
  dsimp only
  rw [unmarked, leaves.uncapitalised, leaves.unstructured, if_neg (by simp), afterLiteralTag, alone,
    addText_gathering, Nat.add_comm 1]
  simp [gathering]

/-- In a plain source no closing tag closes anything and no start tag is taken apart: what looks
like markup is gathered. -/
theorem markup?_gathering (plain : s.IsPlain) (ho : o < s.text.length) :
    (gathering s o).markup? s = none ∨
      ∃ n, (gathering s o).markup? s = some ([], gathering s (o + n)) := by
  have docType := plain.no_docType o ho
  rw [← rest_gathering] at docType
  unfold markup?
  dsimp only
  rw [not_sees_gathering plain.no_comment, not_sees_gathering plain.no_construct, docType]
  simp only [Bool.false_eq_true, if_false]
  split
  · have closing (n : Nat) : (gathering s o).closingTag? s n = none := by
      have alone : (gathering s o).opened = [] := rfl
      simp only [closingTag?, alone, closeTag?_nil]
    rw [closing, ite_self]
    exact .inl rfl
  split
  · next opens =>
    rw [rest_gathering, List.drop_drop]
    split
    · next letter =>
      have mark : s.text[o]? = some '<' := by
        obtain ⟨cs, hcs⟩ := List.isPrefixOf_iff_prefix.1 opens
        rw [rest_gathering] at hcs
        simp [← List.head?_drop, ← hcs]
      have leaves := startTag_gathering (plain.no_tag o ho mark letter)
      rw [Source.tagName, String.length_ofList] at leaves
      exact .inr ⟨_, congrArg some leaves⟩
    · exact .inl rfl
  · exact .inl rfl

/-- In a plain source every step but the last one gathers text. -/
theorem step_gathering (plain : s.IsPlain) (ho : o < s.text.length) :
    ∃ n, (gathering s o).step s = ([], some (gathering s (o + n))) := by
  have going : (gathering s o).cursor.rest ≠ [] := by
    rw [rest_gathering, ne_eq, List.drop_eq_nil_iff]
    omega
  have outside : (gathering s o).raw = none := rfl
  rw [step]
  simp only [outside, if_neg going]
  rcases markup?_gathering plain ho with text | ⟨n, tag⟩
  · rw [text, addText_gathering]
    exact ⟨_, rfl⟩
  · rw [tag]
    exact ⟨n, rfl⟩

/-- The last step emits what has been gathered, if there is anything. -/
theorem gathered_gathering (ho : s.text.length ≤ o) : (gathering s o).gathered s =
    if s.text = [] then [] else [.whole .text (s.excerpt s.begin s.text.length)] := by
  have offset : (gathering s o).cursor.offset = s.text.length := by
    have := s.begin.offset_skip o
    have hbegin : s.begin.offset + min o s.text.length = s.text.length := by
      rw [Nat.min_eq_right ho]
      exact Nat.zero_add _
    exact this.trans hbegin
  have first : (gathering s o).text.offset = 0 := rfl
  rw [gathered, offset, first, Nat.sub_zero]
  simp only [List.length_pos_iff, ite_not]
  rfl

/-- From a state that has only gathered text, a plain source makes one text token. -/
theorem tokens_gathering (plain : s.IsPlain) (o : Nat) : (gathering s o).tokens s =
    if s.text = [] then [] else [.whole .text (s.excerpt s.begin s.text.length)] := by
  generalize hst : gathering s o = st
  fun_induction tokens s st generalizing o with
  | case1 st ts h =>
    subst hst
    obtain ⟨-, atEnd, rfl⟩ := eq_gathered_of_step h
    rw [rest_gathering, List.drop_eq_nil_iff] at atEnd
    exact gathered_gathering atEnd
  | case2 st ts next h ih =>
    subst hst
    rcases Nat.lt_or_ge o s.text.length with ho | ho
    · obtain ⟨n, hn⟩ := step_gathering plain ho
      rw [hn] at h
      obtain ⟨rfl, hnext⟩ := Prod.mk.inj h
      exact ih _ (Option.some.inj hnext)
    · have atEnd : (gathering s o).cursor.rest = [] := by
        rw [rest_gathering, List.drop_of_length_le ho]
      have outside : (gathering s o).raw = none := rfl
      simp [step, outside, atEnd] at h

end LexerState

/-- **Plain HTML passes through**: it is one text, from the first character to the last, or nothing
at all if the source is empty. -/
theorem tokenize_of_isPlain (file text : String) (plain : (Source.of file text).IsPlain) :
    tokenize file text = if text = "" then [] else
      [.whole .text ⟨text, file, .first, Position.first.across text.toList⟩] := by
  have whole : (Source.of file text).excerpt (Source.of file text).begin text.toList.length =
      ⟨text, file, .first, Position.first.across text.toList⟩ := by
    simp [Source.excerpt, Source.span, Source.begin, Source.of, Cursor.skip, Position.across]
  rw [tokenize, Source.tokens, LexerState.start, ← Cursor.skip_zero (Source.begin _)]
  refine (LexerState.tokens_gathering plain 0).trans ?_
  change (if text.toList = [] then _ else _) = _
  rw [show (Source.of file text).text.length = text.toList.length from rfl, whole]
  simp only [String.toList_eq_nil_iff]

/-- Stray, capitalised and truncated closing tags are text like any other. -/
theorem tokenize_unbalanced :
    tokenize "page.aspx" "<p>1 < 2</B></p></asp:X" =
      [.whole .text ⟨"<p>1 < 2</B></p></asp:X", "page.aspx", .first, ⟨23, 1, 24⟩⟩] :=
  tokenize_of_isPlain "page.aspx" "<p>1 < 2</B></p></asp:X" (by decide +kernel)

end ServerMarkup
