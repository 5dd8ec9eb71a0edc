/-
# Reading without letter case

The readers of a tag never ask for the case of a letter.  `Source.lowered` is a source with its
letters made small, and `lowered` does the same to what is read from one: a cursor, an excerpt, a
token.  All that a reader asks for is the same in both sources, so it emits the same tokens but for
the letters of their texts, and ends at the same place (`Reads.lowered`).

The marks that readers look for hold no letter, and each of the classes of characters that they ask
for holds all letters or none (`congr_toLower`).
-/

import ServerMarkup.Lexer.Tag
import ServerMarkup.Proofs.Lexer.Determined
import ServerMarkup.Proofs.Source.LetterCase

namespace ServerMarkup

/-! ### Characters -/

/-- All letters can stand in the name of a tag. -/
@[simp] theorem isTagNameChar_toLower (c : Char) : isTagNameChar c.toLower = isTagNameChar c := by
  refine congr_toLower (a := true) (fun c letter => ?_) c
  rw [isTagNameChar, isAlphanumeric, isLetter_of_isAlpha c letter]
  rfl

/-- No letter is among marks without letters. -/
theorem contains_toLower {marks : List Char} (plain : marks.any Char.isAlpha = false) (c : Char) :
    marks.contains c.toLower = marks.contains c := by
  refine congr_toLower (a := false) (fun c letter => ?_) c
  refine Bool.eq_false_iff.2 fun mem => ?_
  exact absurd letter (List.any_eq_false.1 plain c (List.contains_iff_mem.1 mem))

/-! ### Texts -/

section
variable {mark : List Char} (plain : mark.any Char.isAlpha = false)
include plain

/-- Small letters begin with the same marks. -/
theorem isPrefixOf_map_toLower (cs : List Char) :
    mark.isPrefixOf (cs.map Char.toLower) = mark.isPrefixOf cs := by
  induction mark generalizing cs with
  | nil => rfl
  | cons x mark ih =>
    obtain ⟨other, plain⟩ := Bool.or_eq_false_iff.1 plain
    cases cs with
    | nil => rfl
    | cons c cs =>
      rw [List.map_cons, List.isPrefixOf_cons_cons, List.isPrefixOf_cons_cons, ih plain,
        Bool.beq_comm, beq_toLower other, Bool.beq_comm]

/-- A mark stands at the same place among small letters. -/
theorem distanceFrom?_map_toLower (i : Nat) (cs : List Char) :
    distanceFrom? mark i (cs.map Char.toLower) = distanceFrom? mark i cs := by
  induction cs generalizing i with
  | nil => rfl
  | cons c cs ih =>
    have first := isPrefixOf_map_toLower plain (c :: cs)
    rw [List.map_cons] at first ⊢
    rw [distanceFrom?, distanceFrom?, first, ih]

/-- A mark stands as far into the small letters as into the text. -/
theorem distance?_map_toLower (cs : List Char) :
    distance? mark (cs.map Char.toLower) = distance? mark cs :=
  distanceFrom?_map_toLower plain 0 cs

/-- The last place where a mark begins is the same. -/
theorem horizonFrom_map_toLower (i last : Nat) (cs : List Char) :
    horizonFrom mark i last (cs.map Char.toLower) = horizonFrom mark i last cs := by
  induction cs generalizing i last with
  | nil => rfl
  | cons c cs ih =>
    have first := isPrefixOf_map_toLower plain (c :: cs)
    rw [List.map_cons] at first ⊢
    rw [horizonFrom, horizonFrom, first, ih]

end

/-- A reach ends at the same place if its end is seen there. -/
theorem reachFrom_map_toLower {stop stop' : Nat → List Char → Bool}
    (same : ∀ i cs, stop' i (cs.map Char.toLower) = stop i cs) (i : Nat) (cs : List Char) :
    reachFrom stop' i (cs.map Char.toLower) = reachFrom stop i cs := by
  induction cs generalizing i with
  | nil => rfl
  | cons c cs ih =>
    have first := same i (c :: cs)
    rw [List.map_cons] at first ⊢
    rw [reachFrom, reachFrom, first, ih]

/-- A reach is as long if its end does not depend on the letter case. -/
theorem reach_map_toLower {stop stop' : Nat → List Char → Bool}
    (same : ∀ i cs, stop' i (cs.map Char.toLower) = stop i cs) (cs : List Char) :
    reach stop' (cs.map Char.toLower) = reach stop cs :=
  reachFrom_map_toLower same 0 cs

/-- What is taken of small letters is the small letters of what is taken, for a property that does
not depend on the letter case. -/
theorem takeWhile_map_toLower {p : Char → Bool} (same : ∀ c, p c.toLower = p c) (cs : List Char) :
    (cs.map Char.toLower).takeWhile p = (cs.takeWhile p).map Char.toLower := by
  rw [List.takeWhile_map]
  exact congrArg (fun q => (cs.takeWhile q).map Char.toLower) (funext same)

/-- No letter ends a line. -/
theorem endsLine_toLower (c : Char) (next : Option Char) :
    Position.endsLine c.toLower (next.map Char.toLower) = Position.endsLine c next := by
  have feed : (next.map Char.toLower != some '\n') = (next != some '\n') := by
    cases next with
    | none => rfl
    | some d => exact congrArg not (beq_toLower (x := '\n') (by decide) d)
  rw [Position.endsLine, Position.endsLine, beq_toLower (by decide), beq_toLower (by decide), feed]

/-- Positions are counted over line ends only. -/
theorem Position.into_map_toLower (p : Position) (n : Nat) (cs : List Char) :
    p.into n (cs.map Char.toLower) = p.into n cs := by
  induction n generalizing p cs with
  | zero => rw [into_zero, into_zero]
  | succ n ih =>
    cases cs with
    | nil => rfl
    | cons c cs =>
      rw [List.map_cons, into, into, ih, List.head?_map, advance, endsLine_toLower]
      rfl

/-! ### Sources, cursors and tokens -/

/-- The source with its letters made small. -/
def Source.lowered (s : Source) : Source :=
  { s with text := s.text.map Char.toLower }

/-- The cursor in the source with its letters made small. -/
def Cursor.lowered (c : Cursor) : Cursor :=
  ⟨c.pos, c.rest.map Char.toLower⟩

/-- The excerpt with its letters made small. -/
def Excerpt.lowered (e : Excerpt) : Excerpt :=
  ⟨ServerMarkup.lowered e.value, e.span⟩

/-- The token with the letters of its text made small. -/
def Token.lowered (t : Token) : Token :=
  { t with text := t.text.lowered }

/-- Small letters of an excerpt, by its characters. -/
theorem Excerpt.lowered_ofList (cs : List Char) (p : Span) :
    (⟨String.ofList cs, p⟩ : Excerpt).lowered = ⟨String.ofList (cs.map Char.toLower), p⟩ := by
  rw [lowered, ServerMarkup.lowered, String.toList_ofList]

/-- All marks are found in the same places, so searches give up at the same ones. -/
theorem Horizons.of_map_toLower (text : List Char) :
    of (text.map Char.toLower) = of text := by
  simp [of, horizon, horizonFrom_map_toLower, EndMark.chars]

/-- The source of a text, with its letters made small, is the source of the small letters. -/
theorem Source.lowered_of (file text : String) :
    (of file text).lowered = of file (ServerMarkup.lowered text) := by
  rw [of, of, ServerMarkup.lowered, String.toList_ofList, Horizons.of_map_toLower]
  rfl

namespace Cursor

variable {c : Cursor}

/-- The text behind the cursor has small letters. -/
@[simp] theorem rest_lowered (c : Cursor) : c.lowered.rest = c.rest.map Char.toLower := rfl

/-- The cursor is at the same offset. -/
@[simp] theorem offset_lowered (c : Cursor) : c.lowered.offset = c.offset := rfl

/-- Going on comes to the same place. -/
@[simp] theorem skip_lowered (c : Cursor) (n : Nat) : c.lowered.skip n = (c.skip n).lowered := by
  rw [skip, lowered, Position.into_map_toLower, ← List.map_drop]
  rfl

/-- Going over blanks comes to the same place. -/
@[simp] theorem skipBlanks_lowered (c : Cursor) : c.lowered.skipBlanks = c.skipBlanks.lowered := by
  rw [skipBlanks, rest_lowered, takeWhile_map_toLower isBlank_toLower, List.length_map,
    skip_lowered]
  rfl

/-- The cursor sees the same marks. -/
theorem sees_lowered {mark : List Char} (plain : mark.any Char.isAlpha = false) (c : Cursor) :
    c.lowered.sees mark = c.sees mark :=
  isPrefixOf_map_toLower plain c.rest

end Cursor

namespace Source

variable (s : Source) (c : Cursor)

/-- Spans are the same. -/
@[simp] theorem span_lowered (n : Nat) : s.lowered.span c.lowered n = s.span c n := by
  rw [span, Cursor.skip_lowered]
  rfl

/-- Excerpts are the same but for their letters. -/
@[simp] theorem excerpt_lowered (n : Nat) :
    s.lowered.excerpt c.lowered n = (s.excerpt c n).lowered := by
  rw [excerpt, span_lowered, Cursor.rest_lowered, ← List.map_take, excerpt, Excerpt.lowered_ofList]

/-- A search ahead finds the same. -/
@[simp] theorem ahead?_lowered (m : EndMark) (o : Nat) (cs : List Char) :
    s.lowered.ahead? m o (cs.map Char.toLower) = s.ahead? m o cs := by
  have plain : m.chars.any Char.isAlpha = false := by cases m <;> decide
  rw [ahead?, distance?_map_toLower plain]
  rfl

end Source

/-- The characters of an excerpt with its letters made small. -/
@[simp] theorem Excerpt.chars_lowered (e : Excerpt) :
    e.lowered.chars = e.chars.map Char.toLower := by
  rw [chars, lowered, ServerMarkup.lowered, String.toList_ofList]
  rfl

/-- A slice is cut at the same positions. -/
@[simp] theorem Excerpt.slice_lowered (e : Excerpt) (a b : Nat) :
    e.lowered.slice a b = (e.slice a b).lowered := by
  have length : e.lowered.length = e.length := by
    rw [Excerpt.length, chars_lowered, List.length_map, Excerpt.length]
  have place (i : Nat) : e.lowered.positionAt i = e.positionAt i := by
    rw [positionAt, chars_lowered, Position.into_map_toLower]
    rfl
  rw [slice, slice, length, place, place, chars_lowered, ← List.map_take, ← List.map_drop,
    lowered_ofList]
  rfl

/-- Blanks are trimmed off in the same places. -/
@[simp] theorem Excerpt.trim_lowered (e : Excerpt) : e.lowered.trim = e.trim.lowered := by
  rw [trim, slice_lowered, chars_lowered, ← List.map_reverse, takeWhile_map_toLower isBlank_toLower,
    takeWhile_map_toLower isBlank_toLower, List.length_map, List.length_map, Excerpt.length,
    chars_lowered, List.length_map]
  rfl

/-- A token that stands for all of its span stays one. -/
@[simp] theorem Token.whole_lowered (kind : TokenKind) (e : Excerpt) :
    Token.whole kind e.lowered = (Token.whole kind e).lowered := rfl

/-! ### Constructs and attributes -/

/-- An opening is told by the mark that the text begins with. -/
theorem Opening.of?_eq (cs : List Char) : of? cs =
    if ['<', '%'].isPrefixOf cs then some (
      if ['<', '%', '-', '-'].isPrefixOf cs then .comment
      else if ['<', '%', '@'].isPrefixOf cs then .directive
      else if ['<', '%', '='].isPrefixOf cs then .code .output
      else if ['<', '%', ':'].isPrefixOf cs then .code .encoded
      else if ['<', '%', '#'].isPrefixOf cs then .code .binding
      else .code .statement)
    else none := by
  have apart (mark : List Char) {ds : List Char} (other : ∀ es, ds ≠ mark ++ es) :
      ¬ mark <+: ds := by
    rintro ⟨es, hes⟩
    exact other es hes.symm
  unfold of?
  split
  · split
    case h_6 comment directive output encoded binding =>
      simp [apart ['-', '-'] comment, apart ['@'] directive, apart ['='] output,
        apart [':'] encoded, apart ['#'] binding]
    all_goals rfl
  · next other => simp [apart ['<', '%'] other]

/-- The same construct begins there. -/
theorem Opening.of?_map_toLower (cs : List Char) : of? (cs.map Char.toLower) = of? cs := by
  simp (disch := decide) only [of?_eq, isPrefixOf_map_toLower]

section
variable (s : Source) (c : Cursor)

/-- The same construct stands there. -/
@[simp] theorem Source.construct?_lowered (o : Nat) (cs : List Char) :
    s.lowered.construct? o (cs.map Char.toLower) = s.construct? o cs := by
  rw [construct?, construct?, Opening.of?_map_toLower]
  simp only [← List.map_drop, ahead?_lowered]

/-- The name of an attribute ends in the same places. -/
theorem endsName_map_toLower (place : Place) (cs : List Char) :
    endsName place (cs.map Char.toLower) = endsName place cs := by
  cases cs with
  | nil => rfl
  | cons c cs =>
    have opens := @isPrefixOf_map_toLower ['<', '%'] (by decide) (c :: cs)
    have closes := @isPrefixOf_map_toLower ['%', '>'] (by decide) (c :: cs)
    rw [List.map_cons] at opens closes ⊢
    rw [endsName, endsName, isBlank_toLower, contains_toLower (by decide), opens, closes]

/-- A value without quotes ends in the same places. -/
theorem endsValue_map_toLower (place : Place) (cs : List Char) :
    endsValue place (cs.map Char.toLower) = endsValue place cs := by
  cases cs with
  | nil => rfl
  | cons c cs =>
    have closes := @isPrefixOf_map_toLower ['%', '>'] (by decide) (c :: cs)
    rw [List.map_cons] at closes ⊢
    rw [endsValue, endsValue, isBlank_toLower, contains_toLower (by decide), closes]

/-- A text opens a quoted value with its first character. -/
theorem quote?_cons (c : Char) (cs : List Char) : quote? (c :: cs) =
    if c = '"' then some '"' else if c = '\x27' then some '\x27' else none := by
  unfold quote?
  split <;> simp_all

/-- The same quote is opened. -/
@[simp] theorem quote?_map_toLower (cs : List Char) : quote? (cs.map Char.toLower) = quote? cs := by
  cases cs with
  | nil => rfl
  | cons c cs =>
    simp only [List.map_cons, quote?_cons, toLower_eq_iff (x := '"') (by decide),
      toLower_eq_iff (x := '\x27') (by decide)]

/-- Names are as long. -/
@[simp] theorem nameReach_lowered (place : Place) : nameReach place c.lowered = nameReach place c :=
  reach_map_toLower (fun _ => endsName_map_toLower place) c.rest

/-- Values without quotes are as long. -/
@[simp] theorem valueReach_lowered (place : Place) :
    valueReach place c.lowered = valueReach place c :=
  reach_map_toLower (fun _ => endsValue_map_toLower place) c.rest

/-- Small letters begin with a character that is no letter if the text does. -/
theorem head?_map_toLower {x : Char} (other : x.isAlpha = false) (cs : List Char) :
    (cs.map Char.toLower).head? = some x ↔ cs.head? = some x := by
  cases cs with
  | nil => rfl
  | cons c cs => simp [toLower_eq_iff other]

/-- Fragments of quoted values are as long. -/
theorem fragmentReach_lowered {q : Char} (other : q.isAlpha = false) :
    fragmentReach s.lowered q c.lowered = fragmentReach s q c := by
  refine reach_map_toLower (fun i cs => ?_) c.rest
  have closes : ((cs.map Char.toLower).head? == some q) = (cs.head? == some q) := by
    rw [Bool.eq_iff_iff, beq_iff_eq, beq_iff_eq, head?_map_toLower other]
  rw [closes, Cursor.offset_lowered, Source.construct?_lowered]

/-- What follows a name stands at the same place. -/
@[simp] theorem afterName_lowered (place : Place) :
    afterName place c.lowered = (afterName place c).lowered := by
  rw [afterName, nameReach_lowered, Cursor.skip_lowered, Cursor.skipBlanks_lowered]
  rfl

/-- What follows an equals sign stands at the same place. -/
@[simp] theorem afterEquals_lowered : afterEquals c.lowered = (afterEquals c).lowered := by
  rw [afterEquals, Cursor.skip_lowered, Cursor.skipBlanks_lowered]
  rfl

/-- The token of a server comment, but for letters. -/
@[simp] theorem Source.commentToken_lowered (n : Nat) :
    s.lowered.commentToken c.lowered n = (s.commentToken c n).lowered := by
  rw [commentToken, span_lowered, Cursor.skip_lowered, excerpt_lowered]
  rfl

/-- The token of a code block, but for letters. -/
@[simp] theorem Source.codeToken_lowered (kind : CodeKind) (n : Nat) :
    s.lowered.codeToken c.lowered kind n = (s.codeToken c kind n).lowered := by
  rw [codeToken, span_lowered, Cursor.skip_lowered, excerpt_lowered, Excerpt.trim_lowered]
  rfl

/-- The token of a name, but for letters. -/
@[simp] theorem Source.nameToken_lowered (place : Place) :
    s.lowered.nameToken place c.lowered = (s.nameToken place c).lowered := by
  rw [nameToken, nameReach_lowered, excerpt_lowered, Token.whole_lowered]
  rfl

/-- The token of a value without quotes, but for letters. -/
@[simp] theorem Source.valueToken_lowered (place : Place) :
    s.lowered.valueToken place c.lowered = (s.valueToken place c).lowered := by
  rw [valueToken, valueReach_lowered, excerpt_lowered, Token.whole_lowered]
  rfl

/-- The token of a fragment, if there is one, but for letters. -/
theorem Source.fragment_lowered {q : Char} (other : q.isAlpha = false) (alone : Bool) :
    s.lowered.fragment q alone c.lowered = (s.fragment q alone c).map Token.lowered := by
  rw [fragment, fragment, fragmentReach_lowered s c other, excerpt_lowered, Token.whole_lowered]
  split <;> rfl

end

/-! ### Readings -/

/-- The quote of a part that is read in quotes is no letter. -/
def Part.Plain : Part → Prop
  | .quoted q _ => q.isAlpha = false
  | _ => True

/-- A quote is no letter. -/
theorem not_isAlpha_of_quote? {cs : List Char} {q : Char} (h : quote? cs = some q) :
    q.isAlpha = false := by
  rcases eq_of_quote? h with rfl | rfl <;> rfl

/-- **A reader is told nothing by the case of a letter.**  What it reads in the source with its
letters made small is what it reads in the source itself, with the letters made small. -/
theorem Reads.lowered {s : Source} {part : Part} {c d : Cursor} {ts : List Token}
    (h : Reads s part c ts d) (plain : part.Plain) :
    Reads s.lowered part c.lowered (ts.map Token.lowered) d.lowered := by
  induction h with
  | @comment c n found =>
    have here := @Reads.comment s.lowered c.lowered n (by simpa using found)
    simpa using here
  | @code c kind n found =>
    have here := @Reads.code s.lowered c.lowered kind n (by simpa using found)
    simpa using here
  | @directive c n ts d found _ ih =>
    have here := @Reads.directive s.lowered c.lowered n _ _ (by simpa using found)
      (by simpa using ih trivial)
    simpa using here
  | @directiveCut c atEnd =>
    have here := @Reads.directiveCut s.lowered c.lowered (by simpa using atEnd)
    simpa using here
  | @directiveEnd c closed =>
    have here := @Reads.directiveEnd s.lowered c.lowered
      (by simpa [Cursor.sees_lowered] using closed)
    simpa using here
  | @directiveAttribute c ts d us e _ _ ih₁ ih₂ =>
    have here := @Reads.directiveAttribute _ c.lowered _ _ _ _ (by simpa using ih₁ trivial)
      (ih₂ trivial)
    simpa using here
  | @directiveStray c ts d left going unnamed _ ih =>
    have here := @Reads.directiveStray s.lowered c.lowered _ _ (by simpa using left)
      (by simpa [Cursor.sees_lowered] using going) (by simpa using unnamed)
      (by simpa using ih trivial)
    simpa using here
  | @bare place c named valueless =>
    have here := @Reads.bare s.lowered place c.lowered
      (by simpa using named)
      (by simpa [toLower_eq_iff] using valueless)
    simpa using here
  | @unquoted place c named valued free =>
    have here := @Reads.unquoted s.lowered place c.lowered
      (by simpa using named) (by simpa [toLower_eq_iff] using valued) (by simpa using free)
    simpa using here
  | @quoted place c q ts d named valued opened _ ih =>
    have here := @Reads.quoted s.lowered place c.lowered q _ _
      (by simpa using named) (by simpa [toLower_eq_iff] using valued) (by simpa using opened)
      (by simpa using ih (not_isAlpha_of_quote? opened))
    simpa using here
  | @quotedConstruct q alone c ts d us e _ _ ih₁ ih₂ =>
    have here := @Reads.quotedConstruct s.lowered q alone c.lowered _ _ _ _
      (by simpa [fragmentReach_lowered s c plain] using ih₁ trivial) (ih₂ plain)
    simpa [Source.fragment_lowered s c plain] using here
  | @quotedEnd q alone c ends =>
    have here := @Reads.quotedEnd s.lowered q alone c.lowered
      (by simpa [fragmentReach_lowered s c plain, ← List.map_drop] using ends)
    simpa [Source.fragment_lowered s c plain, fragmentReach_lowered s c plain] using here
  | @bodyCut c atEnd =>
    have here := @Reads.bodyCut s.lowered c.lowered (by simpa using atEnd)
    simpa using here
  | @bodyOpened c closed =>
    have here := @Reads.bodyOpened s.lowered c.lowered
      (by simpa [Cursor.sees_lowered] using closed)
    simpa using here
  | @bodySelfClosed c closed =>
    have here := @Reads.bodySelfClosed s.lowered c.lowered
      (by simpa [Cursor.sees_lowered] using closed)
    simpa using here
  | @bodyConstruct ending c ts d us e _ _ ih₁ ih₂ =>
    have here := @Reads.bodyConstruct s.lowered _ c.lowered _ _ _ _ (by simpa using ih₁ trivial)
      (ih₂ trivial)
    simpa using here
  | @bodyAttribute ending c ts d us e free _ _ ih₁ ih₂ =>
    have here := @Reads.bodyAttribute s.lowered _ c.lowered _ _ _ _ (by simpa using free)
      (by simpa using ih₁ trivial) (ih₂ trivial)
    simpa using here
  | @bodyStray ending c ts d left unclosed going free unnamed _ ih =>
    have here := @Reads.bodyStray s.lowered _ c.lowered _ _ (by simpa using left)
      (by simpa [Cursor.sees_lowered] using unclosed)
      (by simpa [Cursor.sees_lowered] using going) (by simpa using free) (by simpa using unnamed)
      (by simpa using ih trivial)
    simpa using here
  | @closingEnd c closed =>
    have here := @Reads.closingEnd s.lowered c.lowered
      (by simpa [Cursor.sees_lowered] using closed)
    simpa using here
  | @closingBare c unclosed =>
    have here := @Reads.closingBare s.lowered c.lowered
      (by simpa [Cursor.sees_lowered] using unclosed)
    simpa using here

end ServerMarkup
