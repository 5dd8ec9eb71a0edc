/-
# Source texts and their horizons

A construct such as a comment is one only if its end mark follows, so reading a page means looking
ahead for end marks over and over.  A page with many openings and no end mark would be searched to
its end from each of them; a source therefore knows, for each mark, its *horizon*: the offset from
which the mark no longer occurs.  `Source.ahead?` answers at once from there on and searches
before it.

| mark | ends |
| --- | --- |
| `-->` | a comment |
| `>` | a document type |
| `--%>` | a server comment |
| `%>` | a code block or a directive |
-/

import ServerMarkup.Text.Reach

namespace ServerMarkup

/-- The marks that end a construct. -/
inductive EndMark where
  | comment
  | docType
  | serverComment
  | code
deriving DecidableEq, Repr

/-- The characters of a mark. -/
def EndMark.chars : EndMark → List Char
  | .comment => ['-', '-', '>']
  | .docType => ['>']
  | .serverComment => ['-', '-', '%', '>']
  | .code => ['%', '>']

/-- One more than the last index where the mark occurs, counting from `i`, or else `last`. -/
def horizonFrom (mark : List Char) (i last : Nat) : List Char → Nat
  | [] => last
  | c :: cs => horizonFrom mark (i + 1) (if mark.isPrefixOf (c :: cs) then i + 1 else last) cs

/-- The least index from which the mark no longer occurs. -/
def horizon (mark : List Char) (cs : List Char) : Nat :=
  horizonFrom mark 0 0 cs

/-- The offset of a text from which each mark no longer occurs. -/
structure Horizons where
  comment : Nat
  docType : Nat
  serverComment : Nat
  code : Nat
deriving DecidableEq, Repr

namespace Horizons

/-- The horizons of a text. -/
def of (text : List Char) : Horizons :=
  ⟨horizon EndMark.comment.chars text, horizon EndMark.docType.chars text,
    horizon EndMark.serverComment.chars text, horizon EndMark.code.chars text⟩

/-- The horizon of one mark. -/
def get (h : Horizons) : EndMark → Nat
  | .comment => h.comment
  | .docType => h.docType
  | .serverComment => h.serverComment
  | .code => h.code

theorem get_of (text : List Char) (m : EndMark) : (of text).get m = horizon m.chars text := by
  cases m <;> rfl

end Horizons

/-- A named text and the horizons of its end marks. -/
structure Source where
  file : String
  text : List Char
  horizons : Horizons
deriving DecidableEq, Repr

namespace Source

/-- The source that a file's text makes. -/
def of (file text : String) : Source :=
  ⟨file, text.toList, Horizons.of text.toList⟩

/-- How many characters come before the next occurrence of the mark in `rest`, the part of the
text from `offset` on. -/
def ahead? (s : Source) (m : EndMark) (offset : Nat) (rest : List Char) : Option Nat :=
  if s.horizons.get m ≤ offset then none else distance? m.chars rest

end Source

/-- Past its horizon a mark is not found. -/
theorem distanceFrom?_eq_none_of_horizonFrom {mark : List Char} {i last : Nat} {cs : List Char}
    (h : horizonFrom mark i last cs ≤ i) : ∀ j, distanceFrom? mark j cs = none := by
  have mono : ∀ (cs : List Char) (i last : Nat), last ≤ i → last ≤ horizonFrom mark i last cs := by
    intro cs
    induction cs with
    | nil => intro i last _; exact Nat.le_refl _
    | cons c cs ih =>
      intro i last hl
      unfold horizonFrom
      split
      · exact Nat.le_trans (by omega) (ih (i + 1) (i + 1) (Nat.le_refl _))
      · exact ih (i + 1) last (by omega)
  induction cs generalizing i last with
  | nil => intro j; rfl
  | cons c cs ih =>
    intro j
    unfold horizonFrom at h
    split at h
    · have := mono cs (i + 1) (i + 1) (Nat.le_refl _)
      omega
    · next hp =>
      unfold distanceFrom?
      rw [if_neg hp]
      exact ih (Nat.le_trans h (Nat.le_succ i)) (j + 1)

example : horizon EndMark.code.chars "a %> b %> c".toList = 8 := by decide +kernel

end ServerMarkup
