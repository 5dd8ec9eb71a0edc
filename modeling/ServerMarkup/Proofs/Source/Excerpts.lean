/-
# Excerpts that agree with their source

An excerpt is *verbatim* if its span is a stretch of the source, with positions counted over the
source itself, and its value is the text between them.  What is read at a cursor is verbatim
(`verbatim_excerpt`).

Cutting an excerpt counts the positions of the parts over the excerpt alone, which does not see what
follows it.  That matters at one place only: at the end of an excerpt that ends in a carriage return
before a line feed.  An excerpt for which this is not so is *closed*, and its parts are verbatim
again (`Verbatim.slice`, `Verbatim.trim`).
-/

import Mathlib.Data.List.TakeWhile
import ServerMarkup.Proofs.Source.Places

namespace ServerMarkup

/-- The characters from the offset `a` up to the offset `b`. -/
def Source.between (s : Source) (a b : Nat) : List Char :=
  (s.text.drop a).take (b - a)

/-- A span that is a stretch of the source, with the positions that counting gives. -/
structure Span.In (s : Source) (p : Span) : Prop where
  file : p.file = s.file
  start_eq : p.start = .counted s.text p.start.offset
  stop_eq : p.stop = .counted s.text p.stop.offset
  start_le : p.start.offset ≤ p.stop.offset
  stop_le : p.stop.offset ≤ s.text.length

namespace Position

/-- The text behind a place is seen only at a carriage return right before it. -/
theorem into_take (p : Position) {i n : Nat} {cs : List Char} (hi : i ≤ n)
    (h : i = n → cs[n - 1]? = some '\r' → cs[n]? ≠ some '\n') :
    p.into i (cs.take n) = p.into i cs := by
  induction i generalizing p n cs with
  | zero => simp
  | succ i ih =>
    obtain ⟨n, rfl⟩ := Nat.exists_eq_add_of_le' (Nat.lt_of_lt_of_le (Nat.succ_pos i) hi)
    cases cs with
    | nil => simp
    | cons c cs =>
      have hstep : p.advance c (cs.take n).head? = p.advance c cs.head? := by
        cases n with
        | succ n => cases cs <;> rfl
        | zero =>
          have hc : c = '\r' → cs.head? ≠ some '\n' := by
            intro hc
            simpa [hc, List.head?_eq_getElem?] using h (by omega)
          by_cases hr : c = '\r'
          · have := hc hr
            simp [advance, endsLine, hr, this]
          · simp [advance, endsLine, hr]
      simp only [List.take_succ_cons, into, hstep]
      refine ih _ (by omega) ?_
      intro he hr
      cases n with
      | zero => simp [hr]
      | succ n => simpa using h (by omega) (by simpa using hr)

end Position

namespace Source

/-- What is read at a cursor lies in the source. -/
theorem in_span {s : Source} {c : Cursor} (hc : c.On s) (n : Nat) : (s.span c n).In s where
  file := rfl
  start_eq := hc.pos_eq
  stop_eq := (hc.skip n).pos_eq
  start_le := by
    have := c.offset_skip n
    show c.offset ≤ (c.skip n).offset
    omega
  stop_le := (hc.skip n).offset_le

end Source

namespace Excerpt

/-- The excerpt holds the text of its span. -/
structure Verbatim (s : Source) (e : Excerpt) : Prop where
  within : e.span.In s
  chars_eq : e.chars = s.between e.span.start.offset e.span.stop.offset

/-- The excerpt does not end between a carriage return and its line feed. -/
def Closed (s : Source) (e : Excerpt) : Prop :=
  e.chars.getLast? = some '\r' → s.text[e.span.stop.offset]? ≠ some '\n'

theorem verbatim_excerpt {s : Source} {c : Cursor} (hc : c.On s) (n : Nat) :
    (s.excerpt c n).Verbatim s := by
  refine ⟨Source.in_span hc n, ?_⟩
  have hoff := c.offset_skip n
  have hlen := hc.length_rest
  show (s.excerpt c n).chars = (s.text.drop c.offset).take ((c.skip n).offset - c.offset)
  rw [Source.chars_excerpt, ← hc.rest_eq, hoff, Nat.add_sub_cancel_left]
  rcases Nat.le_total n c.rest.length with h | h
  · rw [Nat.min_eq_left h]
  · rw [Nat.min_eq_right h, List.take_of_length_le h, List.take_length]

theorem offset_positionAt (e : Excerpt) (i : Nat) :
    (e.positionAt i).offset = e.span.start.offset + min i e.length :=
  Position.offset_into ..

theorem start_slice (e : Excerpt) (a b : Nat) :
    (e.slice a b).span.start.offset = e.span.start.offset + min a (min b e.length) := by
  have h := e.offset_positionAt (min a (min b e.length))
  have : min (min a (min b e.length)) e.length = min a (min b e.length) := by omega
  rwa [this] at h

theorem stop_slice (e : Excerpt) (a b : Nat) :
    (e.slice a b).span.stop.offset = e.span.start.offset + min b e.length := by
  have h := e.offset_positionAt (min b e.length)
  have : min (min b e.length) e.length = min b e.length := by omega
  rwa [this] at h

namespace Verbatim

variable {s : Source} {e : Excerpt}

theorem length_eq (h : e.Verbatim s) :
    e.length = e.span.stop.offset - e.span.start.offset := by
  have := h.within.start_le
  have := h.within.stop_le
  rw [length, h.chars_eq, Source.between, List.length_take, List.length_drop]
  omega

/-- Counting over a closed excerpt is counting over the source. -/
theorem positionAt_eq (h : e.Verbatim s) (closed : e.Closed s) {i : Nat} (hi : i ≤ e.length) :
    e.positionAt i = .counted s.text (e.span.start.offset + i) := by
  have hlen := h.length_eq
  have hle := h.within.start_le
  have hcut : i = e.length → (s.text.drop e.span.start.offset)[e.length - 1]? = some '\r' →
      (s.text.drop e.span.start.offset)[e.length]? ≠ some '\n' := by
    intro _ hr
    rw [List.getElem?_drop, hlen, Nat.add_sub_of_le hle]
    rcases Nat.eq_zero_or_pos e.length with h0 | h0
    · rw [h0, List.getElem?_drop] at hr
      rw [show e.span.stop.offset = e.span.start.offset + (0 - 1) by omega, hr]
      simp
    · refine closed ?_
      rw [List.getLast?_eq_getElem?, ← length, h.chars_eq, Source.between,
        List.getElem?_take_of_lt (by omega)]
      exact hr
  calc e.positionAt i
      = e.span.start.into i ((s.text.drop e.span.start.offset).take e.length) := by
        rw [positionAt, h.chars_eq, Source.between, hlen]
    _ = e.span.start.into i (s.text.drop e.span.start.offset) := Position.into_take _ hi hcut
    _ = .counted s.text (e.span.start.offset + i) := by
        rw [← Position.counted_into, ← h.within.start_eq]

/-- The parts of a closed excerpt are verbatim. -/
theorem slice (h : e.Verbatim s) (closed : e.Closed s) (a b : Nat) : (e.slice a b).Verbatim s := by
  have hlen := h.length_eq
  have hle := h.within.start_le
  have hstop := h.within.stop_le
  have hstart := e.start_slice a b
  have hend := e.stop_slice a b
  refine ⟨⟨h.within.file, ?_, ?_, by omega, by omega⟩, ?_⟩
  · rw [hstart]
    exact h.positionAt_eq closed (by omega)
  · rw [hend]
    exact h.positionAt_eq closed (by omega)
  · rw [chars_slice, h.chars_eq, Source.between, Source.between, hstart, hend, ← hlen,
      List.take_take, List.drop_take, List.drop_drop]
    rcases Nat.le_total a (min b e.length) with ha | ha
    · rw [Nat.min_eq_left ha]
      congr 1
      omega
    · rw [Nat.min_eq_right ha, Nat.sub_eq_zero_of_le ha, List.take_zero,
        Nat.sub_self, List.take_zero]

theorem trim (h : e.Verbatim s) (closed : e.Closed s) : e.trim.Verbatim s :=
  h.slice closed _ _

end Verbatim
end Excerpt

/-! ### Trimming -/

/-- The blanks at the end of a text stand behind those at its beginning, unless it is blank. -/
theorem takeWhile_reverse_of_trimStart {cs : List Char} (filled : trimStart cs ≠ []) :
    cs.reverse.takeWhile isBlank = (trimStart cs).reverse.takeWhile isBlank := by
  have whole : cs.takeWhile isBlank ++ trimStart cs = cs := List.takeWhile_append_dropWhile
  have some : ((trimStart cs).reverse.takeWhile isBlank).length ≠ (trimStart cs).reverse.length := by
    intro all
    have first : isBlank ((trimStart cs).head filled) = false :=
      List.head_dropWhile_not isBlank filled
    have mem := List.mem_reverse.2 (List.head_mem filled)
    rw [← (List.takeWhile_prefix isBlank).eq_of_length all] at mem
    rw [List.mem_takeWhile_imp mem] at first
    cases first
  rw [← whole, List.reverse_append, List.takeWhile_append, if_neg some, whole]

/-- Trimming cuts off as many characters as blanks stand at the ends. -/
theorem trim_eq_drop_take (cs : List Char) : trim cs =
    (cs.take (max (cs.takeWhile isBlank).length
      (cs.length - (cs.reverse.takeWhile isBlank).length))).drop
        (cs.takeWhile isBlank).length := by
  have whole : cs.takeWhile isBlank ++ trimStart cs = cs := List.takeWhile_append_dropWhile
  rw [trim]
  by_cases filled : trimStart cs = []
  · rw [filled, List.append_nil] at whole
    rw [whole, filled, List.drop_of_length_le (List.length_take_le' ..)]
    rfl
  · have last : trimEnd (trimStart cs) ++ (cs.reverse.takeWhile isBlank).reverse = trimStart cs := by
      rw [takeWhile_reverse_of_trimStart filled, trimEnd, ← List.reverse_append,
        List.takeWhile_append_dropWhile, List.reverse_reverse]
    generalize cs.takeWhile isBlank = leading at *
    generalize cs.reverse.takeWhile isBlank = trailing at *
    generalize trimEnd (trimStart cs) = kept at *
    obtain rfl : cs = leading ++ (kept ++ trailing.reverse) := by rw [last, whole]
    have size : max leading.length ((leading ++ (kept ++ trailing.reverse)).length -
        trailing.length) = (leading ++ kept).length := by
      simp only [List.length_append, List.length_reverse]
      omega
    rw [size, ← List.append_assoc, List.take_left, List.drop_left]

/-- The trimmed excerpt has the trimmed text. -/
theorem Excerpt.value_trim (e : Excerpt) : e.trim.value = trimmed e.value := by
  have cut := e.chars_slice (e.chars.takeWhile isBlank).length
    (max (e.chars.takeWhile isBlank).length
      (e.length - (e.chars.reverse.takeWhile isBlank).length))
  rw [trimmed]
  change _ = String.ofList (ServerMarkup.trim e.chars)
  rw [trim_eq_drop_take]
  exact (String.ofList_toList).symm.trans (congrArg String.ofList cut)

theorem Excerpt.chars_trim (e : Excerpt) : e.trim.chars = ServerMarkup.trim e.chars := by
  rw [chars, e.value_trim, trimmed, String.toList_ofList, chars]

end ServerMarkup
