/-
# What begins at the cursor

`LexerState.markup?` asks one question after the other.  Where a letter stands behind `<` or `</`,
all but the last have been answered, and what is there is a tag; and markup begins with a `<` only.

The name of a tag ends in front of each character that no tag name may hold, such as a blank
(`tagNameOf_append_iff`).
-/

import Mathlib.Data.List.TakeWhile
import ServerMarkup.Proofs.Lexer.Determined
import ServerMarkup.Proofs.Lexer.Moves
import ServerMarkup.Proofs.Source.LetterCase

namespace ServerMarkup

/-! ### The name of a tag -/

/-- No blank belongs to a tag name. -/
theorem not_isTagNameChar_of_isBlank {c : Char} (blank : isBlank c = true) :
    isTagNameChar c = false := by
  have apart : ∀ r ∈ blanks, ∀ k < r.2 + 1 - r.1,
      (letters.contains (r.1 + k) || numbers.contains (r.1 + k) ||
        [':', '-', '_', '.'].any fun x => x.toNat == r.1 + k) = false := by decide +kernel
  have sorted : CharSet.sortedFrom 0 blanks = true := by decide
  rw [isBlank, CharSet.contains_eq_any sorted, List.any_eq_true] at blank
  obtain ⟨r, mem, range⟩ := blank
  simp only [Bool.and_eq_true, decide_eq_true_eq] at range
  obtain ⟨k, hk⟩ := Nat.exists_eq_add_of_le range.1
  have other := apart r mem k (by omega)
  rw [← hk] at other
  simp only [Bool.or_eq_false_iff] at other
  rw [isTagNameChar, isAlphanumeric, isLetter, other.1.1, other.1.2, Bool.false_or, Bool.false_or]
  refine Bool.eq_false_iff.2 fun mark => ?_
  rw [List.contains_iff_mem] at mark
  exact absurd (List.any_eq_false.1 other.2 c mark) (by simp)

/-- A tag name ends in front of the text exactly if the text goes on otherwise. -/
theorem tagNameOf_append_iff {name cs : List Char} : tagNameOf (name ++ cs) = name ↔
    (∀ x ∈ name, isTagNameChar x = true) ∧ cs.head?.any isTagNameChar = false := by
  constructor
  · intro same
    have plain : ∀ x ∈ name, isTagNameChar x = true := fun x mem =>
      List.mem_takeWhile_imp (same.symm ▸ mem)
    refine ⟨plain, ?_⟩
    rw [tagNameOf, List.takeWhile_append_of_pos plain, List.append_right_eq_self] at same
    cases cs with
    | nil => rfl
    | cons x cs =>
      rw [List.takeWhile_cons] at same
      split at same
      · cases same
      · next other => simpa using other
  · rintro ⟨plain, ends⟩
    rw [tagNameOf, List.takeWhile_append_of_pos plain, List.append_right_eq_self]
    cases cs with
    | nil => rfl
    | cons x cs => exact List.takeWhile_cons_of_neg (by simpa using ends)

namespace LexerState

variable {s : Source} {st : LexerState}

/-! ### Tags -/

/-- Only a `<` begins markup. -/
theorem markup?_eq_none_of_head? (h : st.cursor.rest.head? ≠ some '<') : st.markup? s = none := by
  cases hr : st.cursor.rest with
  | nil => simp [markup?, Cursor.sees, hr, namedAt]
  | cons c cs =>
    have other : c ≠ '<' := by
      rintro rfl
      exact h (congrArg List.head? hr)
    have small : c.toLower ≠ '<' := mt (toLower_eq_iff (by decide)).1 other
    simp [markup?, Cursor.sees, hr, namedAt, other.symm, small]

/-- Behind a `<`, a letter begins a tag. -/
theorem AtStartTag.markup?_eq (tag : st.AtStartTag) :
    st.markup? s = some (st.startTag s st.startName.length) := by
  obtain ⟨cs, hcs⟩ := List.isPrefixOf_iff_prefix.1 tag.opens
  have letter := tag.letter
  rw [← hcs] at letter
  cases cs with
  | nil => cases letter
  | cons c cs =>
    change isLetter c = true at letter
    have other {x : Char} (h : isLetter x = false) : c ≠ x := by
      rintro rfl
      cases letter.symm.trans h
    have bang : c ≠ '!' := other (by decide +kernel)
    have percent : c ≠ '%' := other (by decide +kernel)
    have slash : c ≠ '/' := other (by decide +kernel)
    have small : c.toLower ≠ '!' := mt (toLower_eq_iff (by decide)).1 bang
    rw [← length_startName]
    simp [markup?, Cursor.sees, ← hcs, namedAt, bang.symm, percent.symm, slash.symm, small, letter]

/-- Behind a `</`, a letter begins a closing tag. -/
theorem AtEndTag.markup?_eq (tag : st.AtEndTag) :
    st.markup? s = st.closingTag? s st.endName.length := by
  obtain ⟨cs, hcs⟩ := List.isPrefixOf_iff_prefix.1 tag.opens
  have letter := tag.letter
  rw [← hcs] at letter
  change cs.head?.any isLetter = true at letter
  rw [← length_endName]
  simp [markup?, Cursor.sees, ← hcs, namedAt, letter]

/-! ### Steps that gather text -/

theorem step_text (outside : st.raw = none) (left : st.cursor.rest ≠ [])
    (plain : st.markup? s = none) :
    st.step s = ([], some (st.addText (textReach st.cursor.rest))) := by
  simp [step, outside, left, plain]

/-- Text that begins here, or that is no markup here, ends at the next `<`. -/
theorem textReach_append {pre cs : List Char} (filled : pre ≠ []) (within : '<' ∉ pre.tail)
    (ends : cs = [] ∨ cs.head? = some '<') : textReach (pre ++ cs) = pre.length := by
  obtain ⟨c, pre, rfl⟩ := List.exists_cons_of_ne_nil filled
  have passed : ∀ x ∈ pre, (x != '<') = true := fun x mem =>
    bne_iff_ne.2 fun same => within (same ▸ mem)
  have stop : cs.takeWhile (· != '<') = [] := by
    rcases ends with rfl | ends
    · rfl
    · obtain ⟨ds, rfl⟩ := List.head?_eq_some_iff.1 ends
      rfl
  rw [List.cons_append, textReach, List.takeWhile_append_of_pos passed, stop, List.append_nil,
    List.length_cons, Nat.add_comm]

/-- A start tag whose role is literal is text up to the end of its name. -/
theorem AtStartTag.step_literal (tag : st.AtStartTag) (role : st.startRole s = .literal) :
    st.step s = ([], some (st.afterLiteralTag st.startName
      (inspectTag s (st.cursor.skip (st.startName.length + 1))) (isVoidTag st.startName)
      (st.startName.length + 1))) := by
  have left : st.cursor.rest ≠ [] := rest_ne_nil_of_sees tag.opens
  have plain : ¬ (((inspectTag s (st.cursor.skip (st.startName.length + 1))).runat ||
      looksLikeServerTag st.startName || isStructuredTag st.startName) = true) := by
    intro taken
    rw [startRole_of_taken taken] at role
    split at role <;> cases role
  have read : st.startTag s st.startName.length = ([], st.afterLiteralTag st.startName
      (inspectTag s (st.cursor.skip (st.startName.length + 1))) (isVoidTag st.startName)
      (st.startName.length + 1)) := by
    rw [startTag, ofList_take_startName]
    exact if_neg plain
  simp [step, tag.outside, left, tag.markup?_eq, read]

/-- A run goes on behind the name of a literal start tag. -/
theorem after_of_literal {ms ns : List Move} {m : Move} (run : st.moves s = ms ++ m :: ns)
    (tag : m.before.AtStartTag) (role : m.before.startRole s = .literal) :
    m.after = m.before.afterLiteralTag m.before.startName
        (inspectTag s (m.before.cursor.skip (m.before.startName.length + 1)))
        (isVoidTag m.before.startName) (m.before.startName.length + 1) ∧
      m.tokens = [] ∧ m.after.moves s = ns := by
  have here := (moves_eq_of_append run).symm.trans (moves_of_step (tag.step_literal role))
  obtain ⟨same, behind⟩ := List.cons.inj here
  have after := congrArg Move.after same
  exact ⟨after, congrArg Move.tokens same, by rw [after, behind]⟩

/-- The closing tag of a literal tag is text up to the end of its name. -/
theorem AtEndTag.step_literal {opened : List OpenTag} (tag : st.AtEndTag)
    (closes : closeTag? st.opened st.endName = some (.literal, opened)) :
    st.step s = ([], some { st.addText (st.endName.length + 2) with opened }) := by
  have left : st.cursor.rest ≠ [] := rest_ne_nil_of_sees tag.opens
  have read : st.closingTag? s st.endName.length =
      some ([], { st.addText (st.endName.length + 2) with opened }) := by
    rw [closingTag?, value_excerpt_endName, closes]
  simp [step, tag.outside, left, tag.markup?_eq, read]

/-- The closing tag of a structured tag is taken apart. -/
theorem AtEndTag.exists_step_taken {role : TagRole} {opened : List OpenTag} (tag : st.AtEndTag)
    (closes : closeTag? st.opened st.endName = some (role, opened)) (taken : role ≠ .literal) :
    ∃ us d, Reads s .closing (st.cursor.skip (st.endName.length + 2)) us d ∧
      st.step s = (st.gathered s ++ (st.endTokens s ++ us), some { st.moved d with opened }) := by
  have left : st.cursor.rest ≠ [] := rest_ne_nil_of_sees tag.opens
  obtain ⟨us, d, inner, read⟩ := closingTag?_of_taken (s := s) closes taken
  exact ⟨us, d, inner, by simp [step, tag.outside, left, tag.markup?_eq, read]⟩

/-- A closing tag that closes nothing is text. -/
theorem AtEndTag.markup?_eq_none (tag : st.AtEndTag)
    (closes : closeTag? st.opened st.endName = none) : st.markup? s = none := by
  rw [tag.markup?_eq, closingTag?, value_excerpt_endName, closes]

end LexerState
end ServerMarkup
