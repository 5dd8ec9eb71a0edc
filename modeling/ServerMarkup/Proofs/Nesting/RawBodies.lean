/-
# The bodies of scripts and style sheets

Behind a start tag that is taken apart and named `script` or `style`, in any letter case, the lexer
looks for two things only: a complete `<% … %>` construct, and the closing tag of that name.  Where
neither begins, the character is text, whatever markup it looks like.

`RawBody` walks over such a body, by whole constructs and else by single characters, up to the first
place that is the closing tag, or to the end of the source.  `rawBody_of_startTag` says that the
lexer emits just the texts and constructs of that walk, and that the closing tag at its end closes
the tag that the body belongs to and leaves all others open.
-/

import ServerMarkup.Proofs.Lexer.Sound
import ServerMarkup.Proofs.Nesting.Scripts
import ServerMarkup.Proofs.Parse.TagEndings

namespace ServerMarkup

open LexerState

/-- The text begins with `</`, and the tag name behind it is `name` in some letter case. -/
def Closes (name : String) (cs : List Char) : Prop :=
  ['<', '/'] <+: cs ∧ sameName (.ofList (tagNameOf (cs.drop 2))) name = true

namespace Source

/-- The text between two cursors as one token, unless there is none. -/
def textBetween (s : Source) (b c : Cursor) : List Token :=
  if b.offset < c.offset then [.whole .text (s.excerpt b (c.offset - b.offset))] else []

/-- The first tokens of the closing tag at the cursor, if its name has no prefix. -/
def closeTokens (s : Source) (d : Cursor) : List Token :=
  [.whole .tagOpenSlash (s.excerpt d 2),
    .whole .elementName (s.excerpt (d.skip 2) (tagNameOf (d.rest.drop 2)).length)]

end Source

/-- `RawBody s name b c ts d`: the body of a tag `name`, read from the place `c` on, ends at `d` and
has the tokens `ts`; the text before its first construct begins at `b`.  The place `d` is the first
one outside the constructs at which the tag is closed, or the end of the source. -/
inductive RawBody (s : Source) (name : String) : Cursor → Cursor → List Token → Cursor → Prop where
  | ends {b c} (stop : c.rest = [] ∨ Closes name c.rest) :
      RawBody s name b c (s.textBetween b c) c
  | char {b c ts d} (left : c.rest ≠ []) (going : ¬ Closes name c.rest)
      (plain : s.construct? c.offset c.rest = none) (more : RawBody s name b (c.skip 1) ts d) :
      RawBody s name b c ts d
  | construct {b c us e ts d} (inner : Reads s .construct c us e) (more : RawBody s name e e ts d) :
      RawBody s name b c (s.textBetween b c ++ us ++ ts) d

/-- What comes of the innermost of the open tags `opened` in the moves `ms`, through its body that
ends at `d`: the source ends in it, or its closing tag leaves just the tags `below` open. -/
inductive BodyEnds (s : Source) (name : String) (opened below : List OpenTag) (ms : List Move)
    (body : List Token) (d : Cursor) : Prop where
  | cut (atEnd : d.rest = []) (tokens : ms.flatMap Move.tokens = body)
      (kept : ∀ m ∈ ms, m.after.opened = opened)
  | closed {before m after close} (closes : Closes name d.rest) (run : ms = before ++ m :: after)
      (tokens : (before ++ [m]).flatMap Move.tokens = body ++ s.closeTokens d ++ close)
      (end' : ∀ t ∈ close, t.kind = .tagClose) (kept : ∀ k ∈ before, k.after.opened = opened)
      (innermost : m.before.opened = opened) (popped : m.after.opened = below)

/-! ### Names of scripts and style sheets -/

section
variable {name : String} {cs : List Char}

theorem closesRaw_iff (raw : isRawTextElement name = true) :
    closesRaw name cs = true ↔ Closes name cs := by
  constructor
  · intro h
    obtain ⟨ds, rfl, same⟩ := exists_of_closesRaw h
    exact ⟨List.prefix_append ['<', '/'] ds, same⟩
  · rintro ⟨⟨ds, rfl⟩, same⟩
    have filled : tagNameOf ds ≠ [] := by
      intro none
      change sameName (.ofList (tagNameOf ds)) name = true at same
      rw [none, sameName_iff_small] at same
      rcases isRawTextElement_iff.1 raw with script | style
      · cases same.trans script
      · cases same.trans style
    change (!(tagNameOf ds).isEmpty && sameName (.ofList (tagNameOf ds)) name) = true
    rw [Bool.and_eq_true]
    exact ⟨by simpa using filled, same⟩

/-- The name begins with a letter, and there is no colon in it. -/
theorem Closes.letter (h : Closes name cs) (raw : isRawTextElement name = true) :
    (cs.drop 2).head?.any isLetter = true ∧ ':' ∉ tagNameOf (cs.drop 2) := by
  have scanned : isRawTextElement (.ofList (tagNameOf (cs.drop 2))) = true :=
    (nameIn_eq_of_sameName h.2).trans raw
  have spelled := isRawTextElement_iff.1 scanned
  rw [small, String.toList_ofList] at spelled
  refine ⟨head?_of_isRawTextElement scanned, fun colon => ?_⟩
  have mem := List.mem_map_of_mem (f := Char.toLower) colon
  rcases spelled with script | style
  · rw [script] at mem
    exact absurd mem (by decide +kernel)
  · rw [style] at mem
    exact absurd mem (by decide +kernel)

/-- Such a tag has content. -/
theorem isVoidTag_of_isRawTextElement (raw : isRawTextElement name = true) :
    isVoidTag name = false := by
  have filled : isVoidElement name = false := by
    rcases isRawTextElement_iff.1 raw with script | style
    · rw [isVoidElement, nameIn_eq_of_sameName (sameName_iff_small.2 script)]
      decide +kernel
    · rw [isVoidElement, nameIn_eq_of_sameName (sameName_iff_small.2 style)]
      decide +kernel
  rw [isVoidTag, filled, Bool.and_false]

end

/-! ### The body -/

variable {s : Source} {name : String} {b c d : Cursor} {ts : List Token}

/-- A body holds texts and the tokens of constructs. -/
theorem RawBody.kind (h : RawBody s name b c ts d) :
    ∀ t ∈ ts, t.kind = .text ∨ t.kind.isInner = true := by
  have text {b c : Cursor} : ∀ t ∈ s.textBetween b c, t.kind = .text ∨ t.kind.isInner = true := by
    unfold Source.textBetween
    split
    · exact List.forall_mem_singleton.2 (.inl rfl)
    · exact List.forall_mem_nil _
  induction h with
  | ends => exact text
  | char _ _ _ _ ih => exact ih
  | construct inner _ ih =>
    exact List.forall_mem_append.2
      ⟨List.forall_mem_append.2 ⟨text, fun t ht => .inr (inner.inner trivial t ht)⟩, ih⟩

/-- The lexer reaches over characters at which neither a construct nor the closing tag begins. -/
theorem RawBody.of_reach (raw : isRawTextElement name = true) {n : Nat} (le : n ≤ rawReach s name c)
    (h : RawBody s name b (c.skip n) ts d) : RawBody s name b c ts d := by
  induction n with
  | zero => rwa [Cursor.skip_zero] at h
  | succ n ih =>
    have within : n < c.rest.length := Nat.lt_of_lt_of_le le (reach_le _ _)
    have going := not_stop_of_lt_reach le
    rw [Bool.or_eq_false_iff, Option.isSome_eq_false_iff, Option.isNone_iff_eq_none] at going
    refine ih (Nat.le_of_succ_le le) (.char ?_ ?_ ?_ ?_)
    · rw [Cursor.rest_skip, ne_eq, List.drop_eq_nil_iff]
      omega
    · rw [← closesRaw_iff raw, Cursor.rest_skip, going.1]
      exact Bool.false_ne_true
    · rw [Cursor.offset_skip, Nat.min_eq_left (Nat.le_of_lt within), Cursor.rest_skip]
      exact going.2
    · rwa [Cursor.skip_skip]

/-- A move before that changes no open tag. -/
theorem BodyEnds.cons {m : Move} {opened below : List OpenTag} {ms : List Move} {body : List Token}
    (h : BodyEnds s name opened below ms body d) (same : m.after.opened = opened) :
    BodyEnds s name opened below (m :: ms) (m.tokens ++ body) d := by
  cases h with
  | cut atEnd tokens kept =>
    exact .cut atEnd (by rw [List.flatMap_cons, tokens]) (List.forall_mem_cons.2 ⟨same, kept⟩)
  | closed closes run tokens end' kept innermost popped =>
    refine .closed closes (congrArg (m :: ·) run) ?_ end' (List.forall_mem_cons.2 ⟨same, kept⟩)
      innermost popped
    rw [List.cons_append, List.flatMap_cons, tokens]
    simp only [List.append_assoc]

namespace LexerState

variable {st : LexerState} {t : OpenTag} {below : List OpenTag}

/-- At its closing tag the body ends, and the tag it belongs to is closed. -/
theorem bodyEnds_of_closes (outside : st.raw = none) (opened : st.opened = t :: below)
    (taken : t.role ≠ .literal) (raw : isRawTextElement t.name = true)
    (closes : Closes t.name st.cursor.rest) :
    BodyEnds s t.name st.opened below (st.moves s) (s.textBetween st.text st.cursor)
      st.cursor := by
  obtain ⟨letter, plain⟩ := closes.letter raw
  obtain ⟨⟨ds, rest⟩, same⟩ := closes
  have same' : sameName t.name st.endName = true := by
    rw [sameName_comm]
    exact same
  have close : closeTag? st.opened st.endName = some (t.role, below) := by
    simp [closeTag?, opened, same']
  have tag : st.AtEndTag := ⟨outside, List.isPrefixOf_iff_prefix.2 ⟨ds, rest⟩, letter⟩
  obtain ⟨us, e, inner, stepped⟩ := tag.exists_step_taken (s := s) close taken
  -- The name has no colon, so it is one token.
  have tokens : st.endTokens s = s.closeTokens st.cursor := by
    have none : (s.excerpt (st.cursor.skip 2) st.endName.length).chars.findIdx? (· == ':') =
        none := by
      rw [List.findIdx?_eq_none_iff, Source.chars_excerpt, Cursor.rest_skip, ← length_endName,
        take_length_tagNameOf]
      intro x hx
      exact beq_eq_false_iff_ne.2 fun colon => plain (colon ▸ hx)
    rw [endTokens, nameTokens, none, Source.closeTokens, length_endName]
  refine .closed ⟨⟨ds, rest⟩, same⟩ ((moves_of_step stepped).trans (List.nil_append _).symm) ?_
    inner.kind_closing (List.forall_mem_nil _) rfl rfl
  rw [List.nil_append, List.flatMap_singleton, tokens, List.append_assoc]
  rfl

/-- In the body of a script or style sheet the lexer emits the tokens of the body and nothing else,
up to its closing tag. -/
theorem exists_rawBody (inside : st.raw = some t.name) (opened : st.opened = t :: below)
    (taken : t.role ≠ .literal) (raw : isRawTextElement t.name = true) :
    ∃ body d, RawBody s t.name st.text st.cursor body d ∧
      BodyEnds s t.name st.opened below (st.moves s) body d := by
  fun_induction moves s st with
  | case1 st ts h =>
    have outside := (eq_gathered_of_step h).1
    cases inside.symm.trans outside
  | case2 st ts next h ih =>
    cases goes_of_step h with
    | text outside _ => cases inside.symm.trans outside
    | literalTag tag _ => cases inside.symm.trans tag.outside
    | literalEnd tag _ => cases inside.symm.trans tag.outside
    | taken outside _ => cases inside.symm.trans outside
    | rawEnd inside' plain =>
      obtain rfl := Option.some.inj (inside.symm.trans inside')
      rcases closesRaw_rawReach plain with atEnd | closes
      · refine ⟨_, _, .of_reach raw (Nat.le_refl _) (.ends (.inl atEnd)), ?_⟩
        have last : step s { st.addText (rawReach s t.name st.cursor) with raw := none } =
            (gathered s { st.addText (rawReach s t.name st.cursor) with raw := none }, none) := by
          simp only [step]
          rw [cursor_addText, if_pos atEnd]
        rw [moves_of_last last]
        exact .cons (.cut atEnd (by rw [List.flatMap_singleton]; rfl)
          (List.forall_mem_singleton.2 rfl)) rfl
      · rw [closesRaw_iff raw] at closes
        refine ⟨_, _, .of_reach raw (Nat.le_refl _) (.ends (.inr closes)), ?_⟩
        have ends : BodyEnds s t.name st.opened below _ _ _ :=
          @bodyEnds_of_closes s { st.addText (rawReach s t.name st.cursor) with raw := none } t below
            rfl opened taken raw closes
        exact ends.cons rfl
    | @rawConstruct tag us d inside' inner =>
      obtain rfl := Option.some.inj (inside.symm.trans inside')
      obtain ⟨body, e, walk, ends⟩ := ih inside opened
      refine ⟨_, e, .of_reach raw (Nat.le_refl _) (.construct inner walk), ?_⟩
      exact .cons ends rfl

end LexerState

/-- **The body of a script or style sheet is opaque.**  Behind the start tag the lexer emits texts
and the tokens of constructs, up to the first `</` outside the constructs with the name of the tag
behind it.  There it takes the closing tag apart, and just the tags below are left open.  If there
is no such place, the rest of the source is body. -/
theorem rawBody_of_startTag {file text : String} {ms ns : List Move} {m : Move}
    {before ts : List Token} {t name : Token} (run : movesOf file text = ms ++ m :: ns)
    (tokens : m.tokens = before ++ t :: name :: ts) (opens : t.kind = .tagOpen)
    (named : name.kind = .elementName) (raw : isRawTextElement name.text.value = true)
    (ended : lexedEnding (name :: ts) = .opened) :
    ∃ role body d, role ≠ .literal ∧
      m.after.opened = ⟨name.text.value, role⟩ :: m.before.opened ∧
      RawBody (.of file text) name.text.value m.after.cursor m.after.cursor body d ∧
      (∀ u ∈ body, u.kind = .text ∨ u.kind.isInner = true) ∧
      BodyEnds (.of file text) name.text.value m.after.opened m.before.opened ns body d := by
  obtain ⟨on, ⟨goes, rfl⟩ | ⟨last, rfl⟩⟩ := goes_of_moves (on_start (.of file text)) run
  · rw [tokens] at goes
    obtain ⟨ending, inside, inner, hts, emptied, tag, -, opened, -⟩ := goes.opensTag opens
    obtain rfl : ending = .opened := by rw [← ended, hts, lexedEnding_eq inner]
    -- The name has no prefix: its first token would be that.
    have value : name.text.value = m.before.startName := by
      rw [← ofList_take_startName m.before]
      unfold nameTokens at hts
      split at hts
      · rw [(List.cons.inj hts).1] at named
        cases named
      · rw [(List.cons.inj hts).1]
        rfl
    rw [value] at raw ⊢
    obtain ⟨role, taken, pushed, body⟩ := opened rfl (isVoidTag_of_isRawTextElement raw)
    rw [if_pos raw] at body
    obtain ⟨content, d, walk, ends⟩ := exists_rawBody (s := .of file text)
      (t := ⟨m.before.startName, role⟩) body pushed taken raw
    rw [emptied] at walk
    exact ⟨role, content, d, taken, pushed, walk, walk.kind, ends⟩
  · have ht : t ∈ m.before.gathered (.of file text) := by
      rw [← last.tokens_eq, tokens]
      simp
    simp [kind_gathered ht] at opens

/-- A tag and a closing tag in a construct belong to the body of a script, whose own closing tag may
be shouted. -/
theorem rawBody_shouted : ∃ m ns role body d,
    movesOf "page.aspx" "<Script>a</b><%=</script>%></SCRIPT>c" = m :: ns ∧ role ≠ TagRole.literal ∧
      RawBody (.of "page.aspx" "<Script>a</b><%=</script>%></SCRIPT>c") "Script" m.after.cursor
        m.after.cursor body d ∧
      BodyEnds (.of "page.aspx" "<Script>a</b><%=</script>%></SCRIPT>c") "Script" [⟨"Script", role⟩]
        [] ns body d := by
  obtain ⟨m, hm, facts⟩ := Option.map_eq_some_iff.1
    (show ((movesOf "page.aspx" "<Script>a</b><%=</script>%></SCRIPT>c").head?.map fun m =>
        (m.tokens.map fun t => (t.kind, t.text.value), m.before.opened)) =
      some ([(.tagOpen, "<"), (.elementName, "Script"), (.tagClose, ">")], []) by decide +kernel)
  obtain ⟨ns, run⟩ := List.head?_eq_some_iff.1 hm
  obtain ⟨contents, opened⟩ := Prod.mk.inj facts
  obtain ⟨t, _, tokens, mark, contents⟩ := List.map_eq_cons_iff.1 contents
  obtain ⟨name, _, rfl, named, contents⟩ := List.map_eq_cons_iff.1 contents
  obtain ⟨close, rfl, closed⟩ := List.map_eq_singleton_iff.1 contents
  have value : name.text.value = "Script" := (Prod.mk.inj named).2
  have ended : lexedEnding [name, close] = .opened :=
    congrArg (fun k => TagEnd.ofKind (some k)) (Prod.mk.inj closed).1
  obtain ⟨role, body, d, taken, pushed, walk, -, ends⟩ :=
    @rawBody_of_startTag _ _ [] ns m [] [close] t name run tokens (Prod.mk.inj mark).1
      (Prod.mk.inj named).1 (by rw [value]; decide +kernel) ended
  rw [pushed, opened] at ends
  rw [value] at walk ends
  exact ⟨m, ns, role, body, d, run, taken, walk, ends⟩

end ServerMarkup
