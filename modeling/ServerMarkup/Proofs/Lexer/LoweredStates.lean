/-
# Lexer states without letter case

`LexerState.lowered` is a state in the source with its letters made small.  The lexer asks for the
case of a letter at one point only: whether the name of a tag begins with a capital.  All else that
a step does is the same there but for the letters of texts and names.
-/

import ServerMarkup.Proofs.Lexer.Lowered
import ServerMarkup.Proofs.Lexer.Openings

namespace ServerMarkup

/-! ### Names -/

/-- Making letters small keeps the length. -/
theorem length_lowered (a : String) : (lowered a).length = a.length := by
  rw [lowered, String.length_ofList, List.length_map, String.length_toList]

/-- Names are the same as before. -/
theorem sameName_lowered (a b : String) : sameName (lowered a) (lowered b) = sameName a b := by
  rw [sameName, lowered_lowered, lowered_lowered, sameName]

/-- A name is listed with small letters if it is listed. -/
theorem nameIn_lowered (names : List String) (a : String) :
    nameIn names (lowered a) = nameIn names a :=
  nameIn_eq_of_sameName (sameName_iff.2 (lowered_lowered a))

/-- A tag is void with small letters if it is void. -/
theorem isVoidTag_lowered (a : String) : isVoidTag (lowered a) = isVoidTag a := by
  have colon : (lowered a).toList.contains ':' = a.toList.contains ':' := by
    rw [Bool.eq_iff_iff, List.contains_iff_mem, List.contains_iff_mem, lowered,
      String.toList_ofList]
    simp [toLower_eq_iff]
  rw [isVoidTag, isVoidTag, colon, isVoidElement, isVoidElement, nameIn_lowered]

/-- A word is found at the same place. -/
theorem namedAt_map_toLower (word cs : List Char) :
    namedAt word (cs.map Char.toLower) = namedAt word cs := by
  induction word generalizing cs with
  | nil => rfl
  | cons w word ih =>
    cases cs with
    | nil => rfl
    | cons c cs => rw [List.map_cons, namedAt, namedAt, toLower_toLower, ih]

/-- The name of a tag ends at the same character. -/
theorem tagNameOf_map_toLower (cs : List Char) :
    tagNameOf (cs.map Char.toLower) = (tagNameOf cs).map Char.toLower :=
  takeWhile_map_toLower isTagNameChar_toLower cs

/-- A name is cut at the same colon. -/
theorem nameTokens_lowered (name : Excerpt) :
    nameTokens name.lowered = (nameTokens name).map Token.lowered := by
  have colon : name.lowered.chars.findIdx? (· == ':') = name.chars.findIdx? (· == ':') := by
    rw [Excerpt.chars_lowered, List.findIdx?_map]
    exact congrArg name.chars.findIdx? (funext (beq_toLower (by decide)))
  have length : name.lowered.length = name.length := by
    rw [Excerpt.length, Excerpt.chars_lowered, List.length_map, Excerpt.length]
  rw [nameTokens, nameTokens, colon, length]
  split <;> simp

/-! ### The look ahead over a tag -/

/-- A `runat` is seen in the same places. -/
theorem startsRunat_map_toLower (cs : List Char) :
    startsRunat (cs.map Char.toLower) = startsRunat cs := by
  rw [startsRunat, startsRunat, namedAt_map_toLower, ← List.map_drop]
  cases cs.drop 5 with
  | nil => rfl
  | cons c ds =>
    rw [List.map_cons]
    dsimp only
    rw [contains_toLower (by decide), isBlank_toLower]

/-- The look ahead comes to the same shape, from any place in a tag, inside quotes or not. -/
theorem inspectFrom_lowered (s : Source) {quote : Option Char}
    (plain : ∀ q ∈ quote, q.isAlpha = false) (o skip : Nat) (last : Option Char) (runat : Bool)
    (cs : List Char) :
    inspectFrom s.lowered o skip quote (last.map Char.toLower) runat (cs.map Char.toLower) =
      inspectFrom s o skip quote last runat cs := by
  induction cs generalizing o skip quote last runat with
  | nil => rfl
  | cons c cs ih =>
    cases skip with
    | succ skip => exact ih plain (o + 1) skip (some c) runat
    | zero =>
      have opens := @isPrefixOf_map_toLower ['<', '%'] (by decide) (c :: cs)
      have slash : (last.map Char.toLower == some '/') = (last == some '/') := by
        cases last with
        | none => rfl
        | some d => exact beq_toLower (x := '/') (by decide) d
      rw [List.map_cons] at opens ⊢
      unfold inspectFrom
      dsimp only
      rw [opens, ← List.map_drop, Source.ahead?_lowered]
      split
      · cases s.ahead? .code (o + 2) (cs.drop 1) with
        | none => rfl
        | some n => exact ih plain (o + 1) (n + 3) (some c) runat
      · cases quote with
        | some q =>
          have other : q.isAlpha = false := plain q rfl
          simp only [toLower_eq_iff other]
          split
          · exact ih (by simp) (o + 1) 0 (some c) runat
          · exact ih plain (o + 1) 0 (some c) runat
        | none =>
          simp only [toLower_eq_iff (x := '>') (by decide), toLower_eq_iff (x := '<') (by decide),
            toLower_eq_iff (x := '"') (by decide), toLower_eq_iff (x := '\x27') (by decide),
            slash, isBlank_toLower, startsRunat_map_toLower]
          split
          · rfl
          split
          · rfl
          split
          · next quote =>
            simp only [Bool.or_eq_true, decide_eq_true_eq] at quote
            have other : c.isAlpha = false := by rcases quote with rfl | rfl <;> rfl
            have same : c.toLower = c := (toLower_eq_iff other).2 rfl
            have later := ih (fun q hq => Option.some.inj hq ▸ other) (o + 1) 0 (some c) runat
            rw [Option.map_some, same] at later
            rw [same, later]
          · exact ih plain (o + 1) 0 (some c) _

/-- The look ahead over a tag comes to the same shape. -/
theorem inspectTag_lowered (s : Source) (c : Cursor) :
    inspectTag s.lowered c.lowered = inspectTag s c :=
  inspectFrom_lowered s (by simp) c.offset 0 none false c.rest

/-! ### The readers -/

/-- The same construct is read, but for letters. -/
theorem readConstruct?_lowered (s : Source) (c : Cursor) :
    (readConstruct? s.lowered c.lowered).map Reading.result =
      (readConstruct? s c).map fun r => (r.tokens.map Token.lowered, r.next.lowered) := by
  cases read : readConstruct? s c with
  | none =>
    rw [readConstruct?_eq_none_iff] at read
    rw [readConstruct?_eq_none_iff.2 (by simpa using read)]
    rfl
  | some r => exact ((reads_readConstruct? read).lowered trivial).finds

/-- The same attributes and end of a tag are read, but for letters. -/
theorem readTagBody_lowered (s : Source) (c : Cursor) :
    (readTagBody s.lowered c.lowered).1.result =
        ((readTagBody s c).1.tokens.map Token.lowered, (readTagBody s c).1.next.lowered) ∧
      (readTagBody s.lowered c.lowered).2 = (readTagBody s c).2 :=
  ((reads_readTagBody s c).lowered trivial).finds

/-! ### The open tags -/

/-- The open tag with its name in small letters. -/
def OpenTag.lowered (t : OpenTag) : OpenTag :=
  { t with name := ServerMarkup.lowered t.name }

/-- What a closing tag closes, with the names of the tags that stay open in small letters. -/
def loweredClosing (closed : TagRole × List OpenTag) : TagRole × List OpenTag :=
  (closed.1, closed.2.map OpenTag.lowered)

section
variable {opened opened' : List OpenTag} {name name' : String}
  (ho : opened'.map OpenTag.lowered = opened.map OpenTag.lowered)
  (hn : lowered name' = lowered name)
include ho

/-- A property that does not depend on letter case holds of some open tag in both lists or in
neither. -/
theorem any_congr_lowered {p : OpenTag → Bool} (same : ∀ t, p t.lowered = p t) :
    opened'.any p = opened.any p := by
  have low (opened : List OpenTag) : (opened.map OpenTag.lowered).any p = opened.any p := by
    rw [List.any_map]
    exact congrArg opened.any (funext same)
  rw [← low, ho, low]

/-- Open tags are given up alike by a property that does not depend on letter case. -/
theorem dropWhile_congr_lowered {p : OpenTag → Bool} (same : ∀ t, p t.lowered = p t) :
    (opened'.dropWhile p).map OpenTag.lowered = (opened.dropWhile p).map OpenTag.lowered := by
  have low (opened : List OpenTag) : (opened.map OpenTag.lowered).dropWhile p =
      (opened.dropWhile p).map OpenTag.lowered := by
    rw [List.dropWhile_map]
    exact congrArg (fun q => (opened.dropWhile q).map OpenTag.lowered) (funext same)
  rw [← low, ho, low]

include hn

/-- A closing tag closes the same among open tags that differ in letter case only, unless its name
is capitalised in one case only. -/
theorem closeTag?_congr (capital : looksLikeServerTag name' = looksLikeServerTag name) :
    (closeTag? opened' name').map loweredClosing =
      (closeTag? opened name).map loweredClosing := by
  have names (t : OpenTag) : sameName t.name name' = sameName t.name name := by
    rw [sameName, sameName, hn]
  have low (t : OpenTag) : sameName t.lowered.name name = sameName t.name name := by
    rw [sameName, sameName, OpenTag.lowered, lowered_lowered]
  have server := any_congr_lowered ho (p := fun t => t.role == .server && sameName t.name name)
    fun t => by rw [low]; rfl
  have outer := dropWhile_congr_lowered ho (p := (! ·.isStructured)) fun t => rfl
  have top : opened'.head?.any (sameName ·.name name) =
      opened.head?.any (sameName ·.name name) := by
    cases opened <;> cases opened'
    · rfl
    · cases ho
    · cases ho
    · have := (List.cons.inj ho).1
      simp only [List.head?_cons, Option.any_some]
      rw [← low, this, low]
  simp only [closeTag?, names, capital, server, top]
  split
  · cases opened <;> cases opened' <;> simp_all [loweredClosing, OpenTag.lowered]
  split
  · revert outer
    generalize opened'.dropWhile (! ·.isStructured) = rest'
    generalize opened.dropWhile (! ·.isStructured) = rest
    intro outer
    cases rest <;> cases rest' <;> simp_all [loweredClosing, OpenTag.lowered]
  · rfl

end

/-! ### States -/

namespace LexerState

/-- The state in the source with its letters made small. -/
def lowered (st : LexerState) : LexerState :=
  ⟨st.cursor.lowered, st.text.lowered, st.opened.map OpenTag.lowered,
    st.raw.map ServerMarkup.lowered⟩

/-- What a step comes to in the source with its letters made small. -/
def loweredResult (r : List Token × LexerState) : List Token × LexerState :=
  (r.1.map Token.lowered, r.2.lowered)

section
variable (s : Source) (st : LexerState)

/-- The cursor of the state with small letters. -/
@[simp] theorem cursor_lowered : st.lowered.cursor = st.cursor.lowered := rfl

/-- The start of the text gathered so far, with small letters behind it. -/
@[simp] theorem text_lowered : st.lowered.text = st.text.lowered := rfl

/-- The open tags of the state with small letters. -/
@[simp] theorem opened_lowered : st.lowered.opened = st.opened.map OpenTag.lowered := rfl

/-- The name of the start tag at the cursor, in small letters. -/
theorem startName_lowered : st.lowered.startName = ServerMarkup.lowered st.startName := by
  rw [startName, startName, cursor_lowered, Cursor.rest_lowered, ← List.map_drop,
    tagNameOf_map_toLower, ServerMarkup.lowered, String.toList_ofList]

/-- The name of the closing tag at the cursor, in small letters. -/
theorem endName_lowered : st.lowered.endName = ServerMarkup.lowered st.endName := by
  rw [endName, endName, cursor_lowered, Cursor.rest_lowered, ← List.map_drop,
    tagNameOf_map_toLower, ServerMarkup.lowered, String.toList_ofList]

/-- The gathered text, in small letters. -/
theorem gathered_lowered : st.lowered.gathered s.lowered = (st.gathered s).map Token.lowered := by
  rw [gathered, gathered, cursor_lowered, text_lowered, Cursor.offset_lowered,
    Cursor.offset_lowered, Source.excerpt_lowered, Token.whole_lowered]
  split <;> rfl

/-- Emitting tokens is the same, but for letters. -/
theorem emit_lowered (ts : List Token) (next : Cursor) :
    st.lowered.emit s.lowered (ts.map Token.lowered) next.lowered =
      loweredResult (st.emit s ts next) := by
  rw [emit, gathered_lowered, ← List.map_append]
  rfl

/-- Gathering text is the same, but for letters. -/
theorem addText_lowered (n : Nat) : st.lowered.addText n = (st.addText n).lowered := by
  rw [addText, cursor_lowered, Cursor.skip_lowered]
  rfl

/-- A comment or document type ends at the same place. -/
theorem enclosed?_lowered (kind : TokenKind) (lead : Nat) (m : EndMark) :
    st.lowered.enclosed? s.lowered kind lead m =
      (st.enclosed? s kind lead m).map loweredResult := by
  rw [enclosed?, enclosed?, cursor_lowered, Cursor.rest_lowered, ← List.map_drop,
    Source.ahead?_lowered, Cursor.offset_lowered, Option.map_map]
  refine congrArg (Option.map · _) (funext fun n => ?_)
  rw [Function.comp, ← emit_lowered]
  dsimp only
  rw [Source.excerpt_lowered, Cursor.skip_lowered]
  rfl

/-- The step over the construct at the cursor, if there is one. -/
def construct? (s : Source) (st : LexerState) : Option (List Token × LexerState) :=
  (readConstruct? s st.cursor).map fun r => st.emit s r.tokens r.next

/-- The step over a construct is the same, but for letters. -/
theorem construct?_lowered :
    st.lowered.construct? s.lowered = (st.construct? s).map loweredResult := by
  have read := readConstruct?_lowered s st.cursor
  have emits (s : Source) (st : LexerState) : st.construct? s =
      ((readConstruct? s st.cursor).map Reading.result).map fun r => st.emit s r.1 r.2 := by
    rw [Option.map_map]
    rfl
  rw [emits, cursor_lowered, read, Option.map_map, construct?, Option.map_map]
  exact congrArg (Option.map · _) (funext fun r => emit_lowered s st r.tokens r.next)

/-- A literal tag is kept open under its name in small letters, or is not, as before. -/
theorem afterLiteralTag_lowered (name : String) (shape : TagShape) (void : Bool) (n : Nat) :
    st.lowered.afterLiteralTag (ServerMarkup.lowered name) shape void n =
      (st.afterLiteralTag name shape void n).lowered := by
  have kept : (st.lowered.opened.any fun t =>
      t.isStructured && sameName t.name (ServerMarkup.lowered name)) =
        st.opened.any fun t => t.isStructured && sameName t.name name := by
    rw [opened_lowered, List.any_map]
    refine congrArg st.opened.any (funext fun t => ?_)
    exact congrArg (t.isStructured && ·) (sameName_lowered t.name name)
  rw [afterLiteralTag, afterLiteralTag, kept, addText_lowered]
  split <;> rfl

/-- The tokens of a start tag up to its name, but for letters. -/
theorem startTokens_lowered :
    st.lowered.startTokens s.lowered = (st.startTokens s).map Token.lowered := by
  rw [startTokens, startTokens, startName_lowered, length_lowered, cursor_lowered,
    Cursor.skip_lowered, Source.excerpt_lowered, Source.excerpt_lowered, nameTokens_lowered]
  rfl

/-- The tokens of a closing tag up to its name, but for letters. -/
theorem endTokens_lowered :
    st.lowered.endTokens s.lowered = (st.endTokens s).map Token.lowered := by
  rw [endTokens, endTokens, endName_lowered, length_lowered, cursor_lowered,
    Cursor.skip_lowered, Source.excerpt_lowered, Source.excerpt_lowered, nameTokens_lowered]
  rfl

/-- Text up to the next tag is as long. -/
theorem textReach_map_toLower (cs : List Char) :
    textReach (cs.map Char.toLower) = textReach cs := by
  cases cs with
  | nil => rfl
  | cons c cs =>
    rw [List.map_cons, textReach, textReach, takeWhile_map_toLower, List.length_map]
    exact fun c => congrArg not (beq_toLower (by decide) c)

/-! ### Bodies of scripts and style sheets -/

/-- A raw body is closed by `</` and the name of its tag. -/
theorem closesRaw_eq (tag : String) (cs : List Char) : closesRaw tag cs =
    (['<', '/'].isPrefixOf cs && (!(tagNameOf (cs.drop 2)).isEmpty &&
      sameName (String.ofList (tagNameOf (cs.drop 2))) tag)) := by
  unfold closesRaw
  split
  · simp
  · next other =>
    refine (Bool.and_eq_false_imp.2 fun opens => ?_).symm
    obtain ⟨ds, hds⟩ := List.isPrefixOf_iff_prefix.1 opens
    exact absurd hds.symm (other ds)

/-- A raw body is closed in the same places. -/
theorem closesRaw_map_toLower (tag : String) (cs : List Char) :
    closesRaw (ServerMarkup.lowered tag) (cs.map Char.toLower) = closesRaw tag cs := by
  have name : String.ofList ((tagNameOf (cs.drop 2)).map Char.toLower) =
      ServerMarkup.lowered (String.ofList (tagNameOf (cs.drop 2))) := by
    rw [ServerMarkup.lowered, String.toList_ofList]
  rw [closesRaw_eq, closesRaw_eq, isPrefixOf_map_toLower (by decide), ← List.map_drop,
    tagNameOf_map_toLower, List.isEmpty_map, name, sameName_lowered]

/-- The text of a raw body is as long. -/
theorem rawReach_lowered (tag : String) (c : Cursor) :
    rawReach s.lowered (ServerMarkup.lowered tag) c.lowered = rawReach s tag c := by
  refine reach_map_toLower (fun i cs => ?_) c.rest
  rw [closesRaw_map_toLower, Cursor.offset_lowered, Source.construct?_lowered]

/-- A step in a raw body is the same, but for letters. -/
theorem rawStep_lowered (tag : String) :
    rawStep s.lowered (ServerMarkup.lowered tag) st.lowered = loweredResult (rawStep s tag st) := by
  have step (st : LexerState) (tag : String) (s : Source) : rawStep s tag st =
      ((st.addText (rawReach s tag st.cursor)).construct? s).getD
        ([], { st.addText (rawReach s tag st.cursor) with raw := none }) := by
    rw [rawStep, construct?]
    cases readConstruct? s (st.addText (rawReach s tag st.cursor)).cursor <;> rfl
  rw [step, step, cursor_lowered, rawReach_lowered, addText_lowered, construct?_lowered]
  cases (st.addText (rawReach s tag st.cursor)).construct? s <;> rfl

end

end LexerState

end ServerMarkup
