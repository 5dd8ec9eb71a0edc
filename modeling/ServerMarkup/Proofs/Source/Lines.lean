/-
# The lines of a text

A line feed ends a line, and so does a carriage return; a carriage return and the line feed behind
it end one line together.  `lineBreaks` counts the lines that a text ends, pair by pair, and
`lastLine` is what stands behind the last of these ends.  A step of a position sees one character
more than it takes, and yet what a whole text does to a position is told by these two
(`across_eq`).

Positions add up over the parts of a text unless the cut goes through a pair: then the first part
ends a line with its carriage return, and the second one ends another with its line feed
(`across_linewise`).
-/

import Mathlib.Data.List.DropRight
import ServerMarkup.Proofs.Source.Places

namespace ServerMarkup

/-- Whether a line may end with the character. -/
def isLineEnd (c : Char) : Bool :=
  c == '\r' || c == '\n'

/-- How many lines the text ends. -/
def lineBreaks : List Char → Nat
  | '\r' :: '\n' :: cs => lineBreaks cs + 1
  | '\r' :: cs => lineBreaks cs + 1
  | '\n' :: cs => lineBreaks cs + 1
  | _ :: cs => lineBreaks cs
  | [] => 0

/-- The characters after the last line break, or all of them. -/
def lastLine (cs : List Char) : List Char :=
  cs.rtakeWhile (! isLineEnd ·)

variable {c : Char} {cs : List Char}

/-! ### Ends of lines -/

/-- One more character ends one more line if a step over it does. -/
theorem lineBreaks_cons (c : Char) (cs : List Char) :
    lineBreaks (c :: cs) = lineBreaks cs + if Position.endsLine c cs.head? then 1 else 0 := by
  rw [lineBreaks.eq_def (c :: cs)]
  split
  · next rest pair =>
    obtain ⟨rfl, rfl⟩ := List.cons.inj pair
    simp [Position.endsLine, lineBreaks]
  · next rest noPair one =>
    obtain ⟨rfl, rfl⟩ := List.cons.inj one
    have alone : cs.head? ≠ some '\n' := by
      cases cs with
      | nil => simp
      | cons d ds => exact fun h => noPair ds (by simpa using h)
    simp [Position.endsLine, alone]
  · next rest one =>
    obtain ⟨rfl, rfl⟩ := List.cons.inj one
    simp [Position.endsLine]
  · next d rest noPair noReturn noFeed one =>
    obtain ⟨rfl, rfl⟩ := List.cons.inj one
    have noReturn : c ≠ '\r' := noReturn
    have noFeed : c ≠ '\n' := noFeed
    simp [Position.endsLine, noReturn, noFeed]
  · next empty => cases empty

/-- A text ends no line if it has no character that does. -/
theorem lineBreaks_eq_zero_iff : lineBreaks cs = 0 ↔ ∀ c ∈ cs, isLineEnd c = false := by
  fun_induction lineBreaks cs with
  | case1 | case2 | case3 => simp [isLineEnd]
  | case4 c cs noPair noReturn noFeed ih =>
    have noReturn : c ≠ '\r' := noReturn
    have noFeed : c ≠ '\n' := noFeed
    simp [isLineEnd, noReturn, noFeed, ih]
  | case5 => simp

theorem lastLine_of_lineBreaks (h : lineBreaks cs = 0) : lastLine cs = cs := by
  rw [lastLine, List.rtakeWhile_eq_self_iff]
  exact fun c hc => by simp [lineBreaks_eq_zero_iff.1 h c hc]

/-- The first character stands in the last line only if it ends no line and none ends after it. -/
theorem lastLine_cons (h : lineBreaks cs ≠ 0 ∨ isLineEnd c = true) :
    lastLine (c :: cs) = lastLine cs := by
  have here : (cs.reverse.takeWhile (! isLineEnd ·)).length = cs.reverse.length →
      isLineEnd c = true := by
    intro all
    have whole := (List.takeWhile_prefix (! isLineEnd ·)).eq_of_length all
    rw [List.takeWhile_eq_self_iff] at whole
    refine h.resolve_left fun some => some (lineBreaks_eq_zero_iff.2 fun d hd => ?_)
    simpa using whole d (List.mem_reverse.2 hd)
  rw [lastLine, List.rtakeWhile, List.reverse_cons, List.takeWhile_append]
  split
  · next all =>
    have whole := (List.takeWhile_prefix (! isLineEnd ·)).eq_of_length all
    rw [lastLine, List.rtakeWhile, whole]
    simp [here all]
  · rfl

namespace Position

/-! ### A whole text -/

theorem across_cons (p : Position) (c : Char) (cs : List Char) :
    p.across (c :: cs) = (p.advance c cs.head?).across cs := rfl

/-- **What a text does to a position:** it goes on by its length, ends lines by its line breaks, and
comes to the column behind the last of them. -/
theorem across_eq (p : Position) (cs : List Char) :
    p.across cs = ⟨p.offset + cs.length, p.line + lineBreaks cs,
      if lineBreaks cs = 0 then p.column + cs.length else 1 + (lastLine cs).length⟩ := by
  induction cs generalizing p with
  | nil => rfl
  | cons c cs ih =>
    rw [across_cons, ih, lineBreaks_cons, advance]
    split
    · next ends =>
      have hc : isLineEnd c = true := by
        simp only [endsLine, Bool.or_eq_true, Bool.and_eq_true] at ends
        rcases ends with feed | ⟨ret, -⟩
        · simp [isLineEnd, feed]
        · simp [isLineEnd, ret]
      have column : (if lineBreaks cs = 0 then 1 + cs.length else 1 + (lastLine cs).length) =
          1 + (lastLine (c :: cs)).length := by
        rw [lastLine_cons (.inr hc)]
        split
        · next none => rw [lastLine_of_lineBreaks none]
        · rfl
      simp only [column, List.length_cons, Nat.add_eq_zero_iff, Nat.one_ne_zero, and_false,
        if_false, mk.injEq, and_true]
      omega
    · next stays =>
      simp only [List.length_cons, Nat.add_zero, mk.injEq, true_and]
      refine ⟨by omega, ?_⟩
      split
      · omega
      · next some => rw [lastLine_cons (.inl some)]

/-! ### Two parts of a text -/

/-- Going over the first part of a text sees no more of the second one than its first character. -/
theorem into_append (p : Position) (a : List Char) (c : Char) (b : List Char) :
    p.into (a ++ [c]).length (a ++ c :: b) =
      (p.into a.length (a ++ [c])).advance c b.head? := by
  induction a generalizing p with
  | nil => rfl
  | cons x a ih =>
    have head : (a ++ c :: b).head? = (a ++ [c]).head? := by cases a <;> rfl
    simp only [List.cons_append, List.length_cons, into, head, ih]

/-- A step sees what comes next only if it is over a carriage return and a line feed comes. -/
theorem advance_eq_iff (p : Position) (c : Char) (next : Option Char) :
    p.advance c next = p.advance c none ↔ ¬ (c = '\r' ∧ next = some '\n') := by
  constructor
  · rintro same ⟨rfl, rfl⟩
    simp [advance, endsLine] at same
  · intro noPair
    have same : endsLine c next = endsLine c none := by grind [endsLine]
    rw [advance, advance, same]

theorem advance_eq_of_line {p : Position} {next next' : Option Char}
    (h : (p.advance c next).line = (p.advance c next').line) :
    p.advance c next = p.advance c next' := by
  unfold advance at h ⊢
  split <;> split <;> simp_all

/-- **Lines are counted, and positions add up but for a pair that is cut in two.**  Over every text
a position goes on by the text's length and by its line breaks, and comes to the column behind the
last of them or, if it has none, goes on by as many columns.  Over two texts in turn it comes to
where it comes over both at once, unless the first one ends with a carriage return and the second
one begins with a line feed. -/
theorem across_linewise (p : Position) :
    (∀ cs, p.across cs = ⟨p.offset + cs.length, p.line + lineBreaks cs,
      if lineBreaks cs = 0 then p.column + cs.length else 1 + (lastLine cs).length⟩) ∧
    ∀ a b, p.across (a ++ b) = (p.across a).across b ↔
      ¬ (a.getLast? = some '\r' ∧ b.head? = some '\n') := by
  refine ⟨p.across_eq, fun a b => ?_⟩
  rcases List.eq_nil_or_concat' a with rfl | ⟨a, c, rfl⟩
  · simp [across]
  · have whole : p.across (a ++ [c] ++ b) =
        ((p.into a.length (a ++ [c])).advance c b.head?).across b := by
      rw [across, List.length_append, into_add, List.drop_left, List.append_assoc,
        List.singleton_append, into_append]
      rfl
    have part : p.across (a ++ [c]) = (p.into a.length (a ++ [c])).advance c none :=
      into_append p a c []
    rw [whole, part, List.getLast?_concat, Option.some.injEq,
      ← advance_eq_iff (p.into a.length (a ++ [c]))]
    refine ⟨fun same => advance_eq_of_line ?_, fun same => by rw [same]⟩
    -- Both ways go on over the same lines, so they have come to the same line before.
    have lines := congrArg line same
    rw [across_eq, across_eq] at lines
    exact Nat.add_right_cancel lines

example : lineBreaks "a\r\nb\rc\n\r\n".toList = 4 := by decide +kernel

end Position
end ServerMarkup
