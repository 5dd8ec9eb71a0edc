/-
# Values in pieces

A quoted value is cut by the constructs in it.  Two pieces of its literal text therefore never come
one after the other among the tokens of a text (`parted_tokenize`).  A construct has tokens of its
own between them, and the last of these is no literal text, unless it is a directive that is cut at
the end of the text, and then no other piece follows.
-/

import Mathlib.Data.List.Chain
import ServerMarkup.Proofs.Lexer.Moves
import ServerMarkup.Proofs.Lexer.Shapes

namespace ServerMarkup

/-- No two pieces of literal text come one after the other. -/
def Parted (ts : List Token) : Prop :=
  ts.IsChain fun t u => t.kind = .attributeValue → u.kind ≠ .attributeValue

/-- The first token, if there is one, is no literal text of a value. -/
def Begun (ts : List Token) : Prop :=
  ∀ t, ts.head? = some t → t.kind ≠ .attributeValue

variable {s : Source} {c d : Cursor} {ts us : List Token}

theorem Parted.append (h : Parted ts) (h' : Parted us) (begun : Begun us) : Parted (ts ++ us) :=
  List.IsChain.append h h' fun _ _ u hu _ => begun u hu

theorem begun_nil : Begun [] :=
  fun _ none => nomatch none

theorem begun_cons {t : Token} (h : t.kind ≠ .attributeValue) : Begun (t :: ts) := by
  intro u hu
  obtain rfl := Option.some.inj hu
  exact h

theorem Begun.append (h : Begun ts) (h' : Begun us) : Begun (ts ++ us) := by
  cases ts with
  | nil => exact h'
  | cons t ts => exact h

/-- Tokens of which none is literal text of a value. -/
theorem parted_of_plain (h : ∀ t ∈ ts, t.kind ≠ .attributeValue) : Parted ts :=
  List.Pairwise.isChain (List.pairwise_of_forall_mem_list fun t ht _ _ value => absurd value (h t ht))

/-! ### What is read -/

theorem parted_fragment (s : Source) (q : Char) (alone : Bool) (c : Cursor) :
    Parted (s.fragment q alone c) := by
  unfold Source.fragment
  split
  · exact .nil
  · exact .singleton _

namespace Reads

/-- Only what is read in quotes may begin with literal text of a value. -/
theorem begun {part : Part} (h : Reads s part c ts d) (plain : ∀ q alone, part ≠ .quoted q alone) :
    Begun ts := by
  induction h with
  | comment | code | directive | directiveEnd | bare | unquoted | quoted | bodyOpened
  | bodySelfClosed | closingEnd => exact begun_cons TokenKind.noConfusion
  | directiveCut | bodyCut | closingBare => exact begun_nil
  | directiveAttribute _ _ ih₁ ih₂ | bodyConstruct _ _ ih₁ ih₂ | bodyAttribute _ _ _ ih₁ ih₂ =>
    exact (ih₁ (by simp)).append (ih₂ (by simp))
  | directiveStray _ _ _ _ ih | bodyStray _ _ _ _ _ _ ih => exact ih (by simp)
  | quotedConstruct | quotedEnd => exact absurd rfl (plain _ _)

/-- A directive ends with its mark, or with the source. -/
theorem last_directive (h : Reads s .directive c ts d) :
    (∃ us t, ts = us ++ [t] ∧ t.kind = .endDirective) ∨ d.rest = [] := by
  generalize hp : Part.directive = part at h
  induction h with
  | directiveCut atEnd => exact .inr atEnd
  | directiveEnd => exact .inl ⟨[], _, rfl, rfl⟩
  | directiveAttribute _ _ _ ih =>
    obtain ⟨us, t, rfl, mark⟩ | atEnd := ih hp
    · exact .inl ⟨_, t, (List.append_assoc ..).symm, mark⟩
    · exact .inr atEnd
  | directiveStray _ _ _ _ ih => exact ih hp
  | _ => simp at hp

/-- A construct does not end with literal text of a value, unless it ends with the source. -/
theorem last_construct (h : Reads s .construct c ts d) :
    (∃ us t, ts = us ++ [t] ∧ t.kind ≠ .attributeValue) ∨ d.rest = [] := by
  cases h with
  | comment => exact .inl ⟨[], _, rfl, TokenKind.noConfusion⟩
  | code => exact .inl ⟨[], _, rfl, TokenKind.noConfusion⟩
  | directive _ inner =>
    obtain ⟨us, t, rfl, mark⟩ | atEnd := inner.last_directive
    · exact .inl ⟨_ :: us, t, rfl, by simp [mark]⟩
    · exact .inr atEnd

/-- At the end of the source nothing is left of a quoted value. -/
theorem eq_nil_of_quoted {q : Char} (h : Reads s (.quoted q false) c ts d) (atEnd : c.rest = []) :
    ts = [] := by
  have reach : fragmentReach s q c = 0 := by rw [fragmentReach, atEnd]; rfl
  generalize hp : Part.quoted q false = part at h
  cases h with
  | quotedConstruct inner =>
    obtain ⟨rfl, rfl⟩ := Part.quoted.inj hp
    have none : s.construct? (c.skip (fragmentReach s q c)).offset
        (c.skip (fragmentReach s q c)).rest = none := by
      rw [Cursor.rest_skip, atEnd, List.drop_nil]
      rfl
    cases inner with
    | comment found | code found | directive found =>
      rw [found] at none
      cases none
  | quotedEnd =>
    obtain ⟨rfl, rfl⟩ := Part.quoted.inj hp
    simp [Source.fragment, reach]
  | _ => simp at hp

theorem parted {part : Part} (h : Reads s part c ts d) : Parted ts := by
  induction h with
  | comment | code | directiveEnd | bare | bodyOpened | bodySelfClosed | closingEnd =>
    exact .singleton _
  | directiveCut | bodyCut | closingBare => exact .nil
  | directive _ inner ih => exact Parted.append (.singleton _) ih (inner.begun (by simp))
  | directiveAttribute _ more ih₁ ih₂ | bodyConstruct _ more ih₁ ih₂
  | bodyAttribute _ _ more ih₁ ih₂ => exact ih₁.append ih₂ (more.begun (by simp))
  | directiveStray _ _ _ _ ih | bodyStray _ _ _ _ _ _ ih => exact ih
  | unquoted => exact List.isChain_pair.2 fun name => nomatch name
  | quoted _ _ _ _ ih => exact List.isChain_cons.2 ⟨fun _ _ name => (nomatch name), ih⟩
  | @quotedConstruct q alone c ts _ us _ inner more ih₁ ih₂ =>
    have before := (parted_fragment s q false c).append ih₁ (inner.begun (by simp))
    obtain ⟨vs, t, rfl, other⟩ | atEnd := inner.last_construct
    · refine List.IsChain.append before ih₂ fun u hu _ _ value => ?_
      obtain rfl : t = u := by simpa using hu
      exact absurd value other
    · rw [more.eq_nil_of_quoted atEnd, List.append_nil]
      exact before
  | quotedEnd => exact parted_fragment s _ _ _

end Reads

/-! ### Steps -/

namespace LexerState

variable {st next : LexerState}

theorem parted_tag {kind : TokenKind} {e name : Excerpt} (h : kind ≠ .attributeValue)
    (body : Parted ts) (begun : Begun ts) :
    Parted (.whole kind e :: nameTokens name ++ ts) ∧
      Begun (.whole kind e :: nameTokens name ++ ts) := by
  have head : Parted (.whole kind e :: nameTokens name) :=
    parted_of_plain (List.forall_mem_cons.2
      ⟨h, fun _ ht => (kind_nameTokens ht).elim (by simp [·]) (by simp [·])⟩)
  exact ⟨head.append body begun, begun_cons h⟩

theorem Takes.parted (h : Takes s st ts next) : Parted ts ∧ Begun ts := by
  cases h with
  | whole isWhole =>
    refine ⟨.singleton _, begun_cons ?_⟩
    obtain rfl | rfl := isWhole <;> exact TokenKind.noConfusion
  | construct inner => exact ⟨inner.parted, inner.begun (by simp)⟩
  | openingTag _ _ _ inner => exact parted_tag (by simp) inner.parted (inner.begun (by simp))
  | loneTag _ _ _ inner => exact parted_tag (by simp) inner.parted (inner.begun (by simp))
  | closingTag _ _ _ inner => exact parted_tag (by simp) inner.parted (inner.begun (by simp))

theorem parted_gathered (s : Source) (st : LexerState) :
    Parted (st.gathered s) ∧ Begun (st.gathered s) := by
  unfold gathered
  split
  · exact ⟨.singleton _, begun_cons TokenKind.noConfusion⟩
  · exact ⟨.nil, begun_nil⟩

theorem Goes.parted (h : Goes s st ts next) : Parted ts ∧ Begun ts := by
  cases h with
  | text | literalTag | literalEnd | rawEnd => exact ⟨.nil, begun_nil⟩
  | @rawConstruct tag _ _ _ inner =>
    obtain ⟨parted, begun⟩ := parted_gathered s (st.addText (rawReach s tag st.cursor))
    have head := inner.begun (by simp)
    exact ⟨parted.append inner.parted head, begun.append head⟩
  | taken _ takes =>
    obtain ⟨parted, begun⟩ := parted_gathered s st
    obtain ⟨parted', begun'⟩ := takes.parted
    exact ⟨parted.append parted' begun', begun.append begun'⟩

theorem parted_tokens (s : Source) (st : LexerState) :
    Parted (st.tokens s) ∧ Begun (st.tokens s) := by
  fun_induction tokens s st with
  | case1 st ts h =>
    obtain ⟨-, -, rfl⟩ := eq_gathered_of_step h
    exact parted_gathered s st
  | case2 st ts next h ih =>
    obtain ⟨parted, begun⟩ := (goes_of_step h).parted
    exact ⟨parted.append ih.1 ih.2, begun.append ih.2⟩

end LexerState

/-- **Between two pieces of literal text there is always another token.** -/
theorem parted_tokenize (file text : String) : Parted (tokenize file text) :=
  (LexerState.parted_tokens _ _).1

end ServerMarkup
