/-
# Positions in a text

A position counts the characters before it and names its line and column.  Lines end at a line
feed, at a carriage return, or at the pair of the two, which ends one line only: the step over a
carriage return looks at the character that follows, and stays on the line before a line feed.

`Position.into n cs` is the position `n` characters into `cs`, each step seeing the character that
really follows, so going in by parts adds up (`into_add`).  `across cs` goes through the whole of
`cs` and sees nothing behind it: after a text that ends in a carriage return it stands on a new
line, whatever comes next.
-/

namespace ServerMarkup

/-- The characters before a place in a text, and its line and column, counted from one. -/
structure Position where
  offset : Nat
  line : Nat
  column : Nat
deriving DecidableEq, Repr

namespace Position

/-- The place of the first character of a file. -/
def first : Position :=
  ⟨0, 1, 1⟩

/-- Whether `c` ends a line, where `next` is the character after it. -/
def endsLine (c : Char) (next : Option Char) : Bool :=
  c == '\n' || (c == '\r' && next != some '\n')

/-- The position after `c`, where `next` is the character after it. -/
def advance (p : Position) (c : Char) (next : Option Char) : Position :=
  if endsLine c next then ⟨p.offset + 1, p.line + 1, 1⟩ else ⟨p.offset + 1, p.line, p.column + 1⟩

/-- The position `n` characters into the text, or at its end if it is shorter. -/
def into (p : Position) : Nat → List Char → Position
  | n + 1, c :: cs => (p.advance c cs.head?).into n cs
  | _, _ => p

/-- The position after all characters of a text that nothing follows. -/
def across (p : Position) (cs : List Char) : Position :=
  p.into cs.length cs

/-- The positions after the first character, the second, and so on. -/
def trail (p : Position) : List Char → List Position
  | [] => []
  | c :: cs => p.advance c cs.head? :: trail (p.advance c cs.head?) cs

@[simp] theorem offset_advance (p : Position) (c : Char) (next : Option Char) :
    (p.advance c next).offset = p.offset + 1 := by
  unfold advance; split <;> rfl

@[simp] theorem into_zero (p : Position) (cs : List Char) : p.into 0 cs = p := by
  cases cs <;> rfl

@[simp] theorem into_nil (p : Position) (n : Nat) : p.into n [] = p := by
  cases n <;> rfl

@[simp] theorem offset_into (p : Position) (n : Nat) (cs : List Char) :
    (p.into n cs).offset = p.offset + min n cs.length := by
  induction n generalizing p cs with
  | zero => simp
  | succ n ih =>
    cases cs with
    | nil => simp
    | cons c cs =>
      simp only [into, ih, offset_advance, List.length_cons]
      omega

/-- Going `m + n` characters in is going `m` in and then `n` more into what is left. -/
theorem into_add (p : Position) (m n : Nat) (cs : List Char) :
    p.into (m + n) cs = (p.into m cs).into n (cs.drop m) := by
  induction m generalizing p cs with
  | zero => simp
  | succ m ih =>
    cases cs with
    | nil => simp
    | cons c cs => simpa [Nat.succ_add, into] using ih (p.advance c cs.head?) cs

/-- Going past the end of a text ends at its end. -/
theorem into_of_length_le (p : Position) {n : Nat} {cs : List Char} (h : cs.length ≤ n) :
    p.into n cs = p.across cs := by
  obtain ⟨k, rfl⟩ := Nat.exists_eq_add_of_le h
  rw [across, into_add]
  simp

example : first.across "a\r\nb".toList = ⟨4, 2, 2⟩ := by decide +kernel

example : first.across "a\rb".toList = ⟨3, 2, 2⟩ := by decide +kernel

end Position

end ServerMarkup
