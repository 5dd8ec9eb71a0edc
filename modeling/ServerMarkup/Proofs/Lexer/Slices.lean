/-
# Cutting what tokens hold

Cutting an excerpt counts positions over the excerpt alone.  For an excerpt that agrees with its
source, the parts agree with it too exactly if the excerpt is closed
(`Excerpt.Verbatim.closed_iff_slice`): a part that ends with the excerpt does not see the line feed
behind a last carriage return.  No token ends there, so what any token holds can be cut anywhere
(`cuttable_of_mem_tokenize`).
-/

import ServerMarkup.Proofs.Lexer.Sound

namespace ServerMarkup

/-! ### Texts without blanks at their ends -/

theorem takeWhile_trimEnd_reverse (cs : List Char) :
    (trimEnd cs).reverse.takeWhile isBlank = [] := by
  have front := List.head?_dropWhile_not isBlank cs.reverse
  rw [trimEnd, List.reverse_reverse]
  cases hd : cs.reverse.dropWhile isBlank with
  | nil => rfl
  | cons c rest =>
    rw [hd] at front
    exact List.takeWhile_cons_of_neg (by simpa using front)

theorem takeWhile_trim (cs : List Char) : (trim cs).takeWhile isBlank = [] := by
  have front := List.head?_dropWhile_not isBlank cs
  have kept : trim cs <+: trimStart cs := by
    have left := List.dropWhile_suffix isBlank (l := (trimStart cs).reverse)
    rw [← List.reverse_prefix, List.reverse_reverse] at left
    exact left
  cases ht : trim cs with
  | nil => rfl
  | cons c rest =>
    obtain ⟨after, whole⟩ := ht ▸ kept
    rw [show cs.dropWhile isBlank = c :: (rest ++ after) from whole.symm] at front
    exact List.takeWhile_cons_of_neg (by simpa using front)

namespace Excerpt

/-- The excerpt can be cut anywhere: its parts are stretches of the source again. -/
structure Cuttable (s : Source) (e : Excerpt) : Prop where
  slice (a b : Nat) : (e.slice a b).Verbatim s
  /-- The parts are those that the indices say; the end stands for an index behind it. -/
  bounds (a b : Nat) :
    (e.slice a b).span.start.offset = e.span.start.offset + min a (min b e.length) ∧
      (e.slice a b).span.stop.offset = e.span.start.offset + min b e.length
  split (i : Nat) : (e.splitAt i).1.Verbatim s ∧ (e.splitAt i).2.Verbatim s
  meet (i : Nat) : (e.splitAt i).1.span.stop = (e.splitAt i).2.span.start
  whole (i : Nat) : (e.splitAt i).1.span.join (e.splitAt i).2.span = e.span ∧
    (e.splitAt i).1.chars ++ (e.splitAt i).2.chars = e.chars
  trim : e.trim.Verbatim s
  trim_value : e.trim.value = trimmed e.value
  trim_trim : e.trim.trim = e.trim

namespace Verbatim

variable {s : Source} {e : Excerpt}

/-- Counting over a closed excerpt comes to its end. -/
theorem positionAt_length (h : e.Verbatim s) (closed : e.Closed s) :
    e.positionAt e.length = e.span.stop := by
  rw [h.positionAt_eq closed (Nat.le_refl _), h.length_eq,
    Nat.add_sub_of_le h.within.start_le, ← h.within.stop_eq]

/-- Cutting nothing off leaves a closed excerpt as it is. -/
theorem slice_all (h : e.Verbatim s) (closed : e.Closed s) : e.slice 0 e.length = e := by
  have stop := h.positionAt_length closed
  have start : e.positionAt 0 = e.span.start := Position.into_zero _ _
  have value : String.ofList e.chars = e.value := String.ofList_toList
  simp only [Excerpt.slice, Nat.min_self, Nat.zero_min, List.drop_zero, start, stop]
  rw [length, List.take_length, value]

/-- What has been trimmed is left as it is. -/
theorem trim_trim (h : e.Verbatim s) (closed : e.Closed s) : e.trim.trim = e.trim := by
  have leading : e.trim.chars.takeWhile isBlank = [] := e.chars_trim ▸ takeWhile_trim _
  have trailing : e.trim.chars.reverse.takeWhile isBlank = [] :=
    e.chars_trim ▸ takeWhile_trimEnd_reverse _
  have uncut : e.trim.trim = e.trim.slice 0 e.trim.length := by
    rw [Excerpt.trim.eq_def e.trim, leading, trailing]
    simp
  rw [uncut, (h.trim closed).slice_all e.closed_trim]

theorem cuttable (h : e.Verbatim s) (closed : e.Closed s) : e.Cuttable s where
  slice := h.slice closed
  bounds a b := ⟨e.start_slice a b, e.stop_slice a b⟩
  split i := ⟨h.slice closed 0 i, h.slice closed i e.length⟩
  meet := e.splitAt_meet
  whole i := by
    have start : (e.splitAt i).1.span.start = e.span.start := by
      simp [splitAt, Excerpt.slice, positionAt]
    have stop : (e.splitAt i).2.span.stop = e.span.stop := by
      rw [← h.positionAt_length closed]
      simp [splitAt, Excerpt.slice]
    exact ⟨by rw [Span.join, start, stop]; rfl, e.chars_splitAt i⟩
  trim := h.trim closed
  trim_value := e.value_trim
  trim_trim := h.trim_trim closed

/-- The position of an index, where the part up to it is verbatim. -/
theorem positionAt_eq_of_slice {i : Nat} (hi : i ≤ e.length) (h : (e.slice 0 i).Verbatim s) :
    e.positionAt i = .counted s.text (e.span.start.offset + i) := by
  have stop := h.within.stop_eq
  rw [e.stop_slice, Nat.min_eq_left hi] at stop
  rwa [show (e.slice 0 i).span.stop = e.positionAt i by
    simp [Excerpt.slice, Nat.min_eq_left hi]] at stop

/-- **What can be cut is what is closed.**  The parts of a verbatim excerpt are all verbatim exactly
if it does not end between a carriage return and its line feed. -/
theorem closed_iff_slice (h : e.Verbatim s) :
    e.Closed s ↔ ∀ a b, (e.slice a b).Verbatim s := by
  refine ⟨h.slice, fun parts last feed => ?_⟩
  obtain ⟨front, chars⟩ := List.getLast?_eq_some_iff.1 last
  have size : e.length = front.length + 1 := by rw [length, chars, List.length_append]; rfl
  have span : e.span.stop.offset = e.span.start.offset + front.length + 1 := by
    have := h.length_eq
    have := h.within.start_le
    omega
  have before := positionAt_eq_of_slice (by omega) (parts 0 front.length)
  have behind := positionAt_eq_of_slice (Nat.le_of_eq size.symm) (parts 0 (front.length + 1))
  have inside : e.chars[front.length]? = some '\r' := by simp [chars]
  have real : s.text[e.span.start.offset + front.length]? = some '\r' := by
    rw [h.chars_eq, Source.between, List.getElem?_take_of_lt (by omega), List.getElem?_drop]
      at inside
    exact inside
  -- Over the excerpt the last step sees nothing behind the return, over the source the line feed.
  have own : e.positionAt (front.length + 1) =
      (e.positionAt front.length).advance '\r' none := by
    rw [positionAt, Position.into_succ _ inside, chars]
    simp [positionAt, chars]
  have seen : Position.counted s.text (e.span.start.offset + (front.length + 1)) =
      (Position.counted s.text (e.span.start.offset + front.length)).advance '\r'
        (some '\n') := by
    rw [Position.counted_eq_into, ← Nat.add_assoc, Position.into_succ _ real, ← span, feed,
      Position.counted_eq_into]
  rw [own, seen, before] at behind
  have line := congrArg Position.line behind
  simp [Position.advance, Position.endsLine] at line

end Verbatim
end Excerpt

/-- **What a token holds can be cut anywhere.**  Each part is the text between its offsets, and its
positions are those that counting over the whole source gives, which sees the character that really
follows a carriage return; the two parts of a split meet at one position and make up the whole; and
what has been trimmed is left as it is. -/
theorem cuttable_of_mem_tokenize {file text : String} {t : Token} (mem : t ∈ tokenize file text) :
    t.text.Cuttable (.of file text) :=
  ((tokens_faithful file text).2 t mem).2.verbatim.cuttable (sound_of_mem_tokenize mem).closed

/-- A text that is one token, with a line break in it. -/
def brokenLine : Token :=
  .whole .text ⟨"a\r\nb", ⟨"page.aspx", ⟨0, 1, 1⟩, ⟨4, 2, 2⟩⟩⟩

/-- A cut in the middle of the line break stays on its line. -/
theorem cuttable_brokenLine : brokenLine ∈ tokenize "page.aspx" "a\r\nb" ∧
    brokenLine.text.Cuttable (.of "page.aspx" "a\r\nb") ∧
    (brokenLine.text.slice 0 2).span.stop = ⟨2, 1, 3⟩ :=
  have mem : brokenLine ∈ tokenize "page.aspx" "a\r\nb" := by decide +kernel
  ⟨mem, cuttable_of_mem_tokenize mem, by decide +kernel⟩

/-- Alone, the return ends the line. -/
example : ¬ (brokenLine.text.slice 0 2).Closed (.of "page.aspx" "a\r\nb") ∧
    ((brokenLine.text.slice 0 2).slice 0 2).span.stop = ⟨2, 2, 1⟩ := by
  unfold Excerpt.Closed
  decide +kernel

end ServerMarkup
