/-
# Searching with a memory

The horizons of a source are all counted before anything is read.  A search that remembers comes to
the same without counting first: it goes through the text, and when it has been in vain it notes
the mark and where it began, so that a later search from there on, or from further behind, answers
at once.  The memory grows with the searches, which begin now further ahead and now further back.

`Scan` is a computation with such a memory that may return nothing.  A search is one step of it
(`find`).
-/

import ServerMarkup.Source

namespace ServerMarkup

/-- The marks that have been searched for in vain, each with the least offset where such a search
has begun. -/
abbrev Missing := List (EndMark × Nat)

/-- A search for a mark, the offset where it has begun, what it has found, and what is known to be
missing after it. -/
structure Search where
  mark : EndMark
  start : Nat
  found : Option Nat
  missing : Missing
deriving DecidableEq, Repr

/-- What is known to be missing, and a record of all searches, the last one first.  No search reads
the record. -/
structure Memory where
  missing : Missing
  searches : List Search
deriving DecidableEq, Repr

/-- The offset of the first occurrence of the mark from `start` on. -/
def Source.first? (s : Source) (m : EndMark) (start : Nat) : Option Nat :=
  (distance? m.chars (s.text.drop start)).map (start + ·)

namespace Missing

/-- One more search has been in vain. -/
def noted (missing : Missing) (m : EndMark) (start : Nat) : Missing :=
  if missing.any (·.1 == m) then
    missing.map fun entry => if entry.1 = m then (m, min entry.2 start) else entry
  else missing ++ [(m, start)]

/-- The answer to a search and what is missing after it: at once where an earlier search has been
in vain, and else by going through the text. -/
def search (missing : Missing) (s : Source) (m : EndMark) (start : Nat) : Option Nat × Missing :=
  if (missing.lookup m).any (· ≤ start) then (none, missing)
  else match s.first? m start with
    | some i => (some i, missing)
    | none => (none, missing.noted m start)

end Missing

namespace Memory

/-- The memory before the first search. -/
def empty : Memory :=
  ⟨[], []⟩

/-- The answer to a search and the memory after it. -/
def search (mem : Memory) (s : Source) (m : EndMark) (start : Nat) : Option Nat × Memory :=
  let (found, missing) := mem.missing.search s m start
  (found, ⟨missing, ⟨m, start, found, missing⟩ :: mem.searches⟩)

end Memory

/-- A computation with a memory, which may return nothing. -/
abbrev Scan := StateT Memory Option

/-- The computation that returns nothing: there are no turns left. -/
def Scan.out {α : Type} : Scan α :=
  fun _ => none

/-- The offset of the first occurrence of the mark from `start` on. -/
def find (s : Source) (m : EndMark) (start : Nat) : Scan (Option Nat) :=
  fun mem => some (mem.search s m start)

example : (Missing.search [(.code, 3)] (.of "page.aspx" "<% a") .code 2) =
    (none, [(.code, 2)]) := by decide +kernel

end ServerMarkup
