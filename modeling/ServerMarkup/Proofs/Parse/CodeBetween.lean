/-
# Code between the attributes of a tag

A code block that stands between two attributes of a start tag has nowhere to go.  The parser tells
it from a block in a value by the kinds of the tokens alone, and these are the same: it takes each
block behind an attribute for a part of that attribute's value.

`attributes_codeBetween` says what becomes of a tag when code blocks are put into it, set apart by a
blank, behind a stretch of it.  The names of its attributes are the same.  Their values are the same
exactly if the stretch has no attribute, or if it has a server comment, at which the parser has
stopped reading the tag; else the last attribute of the stretch has the blocks for further parts of
its value.
-/

import ServerMarkup.Proofs.Lexer.Openings
import ServerMarkup.Proofs.Lexer.Stretches
import ServerMarkup.Proofs.Parse.Gathering
import ServerMarkup.Proofs.Parse.TagEndings

namespace ServerMarkup

/-! ### The name of the tag -/

/-- A name that ends at a place still ends there with something put in that begins with a blank. -/
theorem tagNameOf_insert {name w ins after : List Char}
    (named : tagNameOf (name ++ (w ++ after)) = name) (apart : ins.head?.any isBlank = true) :
    tagNameOf (name ++ (w ++ (ins ++ after))) = name := by
  rw [tagNameOf_append_iff] at named ⊢
  refine ⟨named.1, ?_⟩
  cases w with
  | nil =>
    cases ins with
    | nil => cases apart
    | cons x ins => exact not_isTagNameChar_of_isBlank apart
  | cons x w => exact named.2

/-! ### The tag -/

variable {file text : String} {before name cs : List Char} {t : Token} {ts rest : List Token}

/-- In the text `before ++ tag`, the lexer takes the start tag apart that begins behind `before`: `t`
is its first token and `ts` are the others, and `rest` are the tokens after it. -/
def LexesTagBehind (file : String) (before tag : List Char) (t : Token) (ts rest : List Token) :
    Prop :=
  ∃ stop, LexesTag file (.ofList (before ++ tag)) t ts rest stop ∧ t.start = before.length

/-- The start tag that the tokens begin with. -/
def StartTag.of? : List Token → Option StartTag
  | t :: ts =>
    match (Item.read t ts).1 with
    | .startTag tag => some tag
    | _ => none
  | [] => none

theorem StartTag.of?_tagOpen (hk : t.kind = .tagOpen) (e : Excerpt) (ts : List Token) :
    ∃ span, StartTag.of? (t :: (nameTokens e ++ ts)) =
      some ⟨.ofExcerpt e, (Item.tagAttributes ts).1, (Item.tagAttributes ts).2.1, span⟩ := by
  rw [of?, Item.read_tagOpen hk]
  exact ⟨_, rfl⟩

/-- What the parser makes of a start tag: it gathers the tokens of its body, which is read from the
end of its name on. -/
theorem LexesTagBehind.read (h : LexesTagBehind file before ('<' :: (name ++ cs)) t ts rest)
    (named : tagNameOf (name ++ cs) = name) : ∃ tag e c d body,
      StartTag.of? (t :: (ts ++ rest)) = some tag ∧
      Reads (.of file (.ofList (before ++ '<' :: (name ++ cs)))) (.body e) c body d ∧
      c.On (.of file (.ofList (before ++ '<' :: (name ++ cs)))) ∧ c.rest = cs ∧
      tag.attributes.map Attribute.content =
        (Gathered.of (body.map Token.content)).attributes := by
  obtain ⟨stop, ⟨ms, m, ns, us, hm, htokens, hk, rfl, rfl⟩, start⟩ := h
  obtain ⟨on, ⟨goes, rfl⟩ | ⟨last, rfl⟩⟩ := LexerState.goes_of_moves (LexerState.on_start _) hm
  · rw [htokens] at goes
    obtain ⟨ending, body, inner, hts, emptied, -, -, -, place⟩ := goes.opensTag hk
    have cut : ending = .cut →
        (m.after.moves (.of file (.ofList (before ++ '<' :: (name ++ cs))))).flatMap Move.tokens =
          [] := by
      rintro rfl
      rw [← LexerState.tokens_eq_flatMap_moves]
      exact LexerState.tokens_eq_nil inner.rest_of_cut emptied
    have tag : m.before.cursor.rest = '<' :: (name ++ cs) := by
      rw [on.cursor.rest_eq, ← place, start]
      simp [Source.of]
    have size : m.before.startName = .ofList name := by
      rw [LexerState.startName, tag, List.drop_succ_cons, List.drop_zero, named]
    obtain ⟨us, last, hbody, -, -, led, -⟩ := inner.shape
    obtain ⟨span, read⟩ := StartTag.of?_tagOpen hk
      ((Source.of file (.ofList (before ++ '<' :: (name ++ cs)))).excerpt
        (m.before.cursor.skip 1) m.before.startName.length)
      (body ++ (m.after.moves (.of file (.ofList (before ++ '<' :: (name ++ cs))))).flatMap
        Move.tokens)
    rw [← List.append_assoc, ← hts] at read
    refine ⟨_, _, _, _, body, read, inner, on.cursor.skip _, ?_, ?_⟩
    · rw [Cursor.rest_skip, tag, size, String.length_ofList, List.drop_succ_cons, List.drop_left]
    · rw [Item.tagAttributes_body inner cut]
      exact Item.contents_tagAttributes led
  · have ht : t ∈ m.before.gathered (.of file (.ofList (before ++ '<' :: (name ++ cs)))) := by
      rw [← last.tokens_eq, htokens]
      simp
    simp [LexerState.kind_gathered ht] at hk

/-! ### The tokens of code put into it -/

namespace Gathered

variable {us ks vs : List (TokenKind × String)} (kinds : ∀ u ∈ us, u.1.InStretch)
  (code : ∀ k ∈ ks, ∃ kind text, k = (.code kind, text))
include kinds code

/-- Code blocks behind a stretch change nothing if no attribute is before them, or if a server
comment is. -/
theorem attributes_insert
    (free : (∀ u ∈ us, u.1 ≠ .attribute) ∨ ∃ u ∈ us, u.1 = .serverComment) :
    (of (us ++ (ks ++ vs))).attributes = (of (us ++ vs)).attributes := by
  have values : ∀ k ∈ ks, k.1.isPlain = true ∧ k.1 ≠ .attribute := by
    intro k mem
    obtain ⟨kind, text, rfl⟩ := code k mem
    exact ⟨rfl, TokenKind.noConfusion⟩
  simp only [of, List.foldr_append]
  by_cases cut : ∃ u ∈ us, u.1 = .serverComment
  · obtain ⟨u, mem, comment⟩ := cut
    have notPlain : u.1.isPlain = false := by rw [comment]; rfl
    exact congrArg attributes (foldr_of_notPlain ⟨u, mem, notPlain⟩ _ _)
  · have other := free.resolve_right cut
    have plain : ∀ u ∈ us, u.1.isPlain = true := fun u mem =>
      (kinds u mem).resolve_right fun comment => cut ⟨u, mem, comment⟩
    rw [foldr_of_value plain other, foldr_of_value plain other,
      foldr_of_value (fun k mem => (values k mem).1) fun k mem => (values k mem).2]

/-- Else they become parts of the value of the last attribute before them. -/
theorem attributes_insert_taken (vs : List (TokenKind × String)) (named : ∃ u ∈ us, u.1 = .attribute)
    (uncut : ∀ u ∈ us, u.1 ≠ .serverComment) : ∃ as name parts more bs,
      (of (us ++ vs)).attributes = as ++ (name, parts ++ more) :: bs ∧
      (of (us ++ (ks ++ vs))).attributes = as ++ (name, parts ++ (ks ++ more)) :: bs := by
  have plain : ∀ u ∈ us, u.1.isPlain = true := fun u mem =>
    (kinds u mem).resolve_right (uncut u mem)
  have values : ∀ k ∈ ks, k.1.isPlain = true ∧ k.1 ≠ .attribute := by
    intro k mem
    obtain ⟨kind, text, rfl⟩ := code k mem
    exact ⟨rfl, TokenKind.noConfusion⟩
  obtain ⟨held, as, name, parts, does⟩ := foldr_of_attribute plain named
  refine ⟨as, name, parts, (of vs).held, (of vs).attributes, ?_, ?_⟩
  · rw [of, List.foldr_append, does]
    rfl
  · rw [of, List.foldr_append, List.foldr_append, does,
      foldr_of_value (fun k mem => (values k mem).1) fun k mem => (values k mem).2]
    rfl

end Gathered

/-- The parser gathers what the stretch before the blocks and the text behind them say, the second
time with the blocks in between. -/
theorem LexesTagBehind.gathered_insert {w ins after : List Char} {t' : Token}
    {ts' rest' : List Token} {us ks : List (TokenKind × String)}
    (tag : LexesTagBehind file before ('<' :: (name ++ (w ++ after))) t ts rest)
    (tag' : LexesTagBehind file before ('<' :: (name ++ (w ++ (ins ++ after)))) t' ts' rest')
    (named : tagNameOf (name ++ (w ++ after)) = name) (place : Stretch after w us)
    (code : CodeText ins ks) (filled : ks ≠ []) (apart : ins.head?.any isBlank = true) :
    ∃ x x' vs, StartTag.of? (t :: (ts ++ rest)) = some x ∧
      StartTag.of? (t' :: (ts' ++ rest')) = some x' ∧
      x.attributes.map Attribute.content = (Gathered.of (us ++ vs)).attributes ∧
      x'.attributes.map Attribute.content = (Gathered.of (us ++ (ks ++ vs))).attributes := by
  obtain ⟨x, e, c, d, body, read, inner, on, text, gathered⟩ := tag.read named
  obtain ⟨x', e', c', d', body', read', inner', on', text', gathered'⟩ :=
    tag'.read (tagNameOf_insert named apart)
  have honest := Source.honest_of file (.ofList (before ++ '<' :: (name ++ (w ++ after))))
  have honest' := Source.honest_of file (.ofList (before ++ '<' :: (name ++ (w ++ (ins ++ after)))))
  -- Both tags are read up to the place, the second one over the blocks as well; the texts behind
  -- are the same.
  obtain ⟨us₁, vs₁, b, rfl, front, more, onMore, left⟩ := inner.stretch place honest on text
  obtain ⟨us₂, bs₂, b', rfl, front', blocks, onBlocks, atBlocks⟩ :=
    inner'.stretch (place.before_blocks code filled apart) honest' on' text'
  obtain ⟨ks₂, vs₂, b'', rfl, codes, more', onMore', left'⟩ :=
    blocks.stretch code.stretch honest' onBlocks atBlocks
  have tail := (more.alike honest honest' more' trivial onMore onMore' (left'.trans left.symm)).1
  rw [List.map_append, front] at gathered
  rw [List.map_append, List.map_append, front', codes, tail] at gathered'
  exact ⟨x, x', _, read, read', gathered, gathered'⟩

/-- **A code block behind an attribute becomes a part of its value**, though it stands outside of it.
When code blocks are put into a start tag, the names of its attributes stay; the values stay exactly
if no attribute is before the blocks or a server comment is, and else the last attribute before them
has them for further parts of its value. -/
theorem attributes_codeBetween {w ins after : List Char} {t' : Token} {ts' rest' : List Token}
    {us ks : List (TokenKind × String)}
    (tag : LexesTagBehind file before ('<' :: (name ++ (w ++ after))) t ts rest)
    (tag' : LexesTagBehind file before ('<' :: (name ++ (w ++ (ins ++ after)))) t' ts' rest')
    (named : tagNameOf (name ++ (w ++ after)) = name) (place : Stretch after w us)
    (code : CodeText ins ks) (filled : ks ≠ []) (apart : ins.head?.any isBlank = true) :
    ∃ x x', StartTag.of? (t :: (ts ++ rest)) = some x ∧
      StartTag.of? (t' :: (ts' ++ rest')) = some x' ∧
      x'.attributes.map (·.name.value) = x.attributes.map (·.name.value) ∧
      (x'.attributes.map Attribute.content = x.attributes.map Attribute.content ↔
        (∀ u ∈ us, u.1 ≠ .attribute) ∨ ∃ u ∈ us, u.1 = .serverComment) ∧
      ((∃ u ∈ us, u.1 = .attribute) → (∀ u ∈ us, u.1 ≠ .serverComment) →
        ∃ as name parts more bs,
          x.attributes.map Attribute.content = as ++ (name, parts ++ more) :: bs ∧
          x'.attributes.map Attribute.content = as ++ (name, parts ++ (ks ++ more)) :: bs) := by
  obtain ⟨x, x', vs, read, read', gathered, gathered'⟩ :=
    tag.gathered_insert tag' named place code filled apart
  have names (y : StartTag) :
      y.attributes.map (·.name.value) = (y.attributes.map Attribute.content).map Prod.fst := by
    rw [List.map_map]
    rfl
  refine ⟨x, x', read, read', ?_⟩
  rw [names, names, gathered, gathered']
  by_cases free : (∀ u ∈ us, u.1 ≠ .attribute) ∨ ∃ u ∈ us, u.1 = .serverComment
  · rw [Gathered.attributes_insert place.inStretch code.isCode free]
    refine ⟨rfl, iff_of_true rfl free, fun ⟨u, mem, name⟩ uncut => ?_⟩
    rcases free with none | ⟨v, mem', comment⟩
    · exact absurd name (none u mem)
    · exact absurd comment (uncut v mem')
  · have uncut : ∀ u ∈ us, u.1 ≠ .serverComment := fun u mem comment =>
      free (.inr ⟨u, mem, comment⟩)
    have named : ∃ u ∈ us, u.1 = .attribute := by
      by_contra none
      exact free (.inl fun u mem name => none ⟨u, mem, name⟩)
    obtain ⟨as, name, parts, more, bs, without, taken⟩ :=
      Gathered.attributes_insert_taken place.inStretch code.isCode vs named uncut
    rw [without, taken]
    refine ⟨by simp, iff_of_false (fun same => ?_) free, fun _ _ => ⟨_, _, _, _, _, rfl, rfl⟩⟩
    have added : ks ++ more = more := by simpa using same
    exact filled (List.append_left_eq_self.1 added)

/-- A text that begins with a start tag. -/
theorem lexesTagBehind_of_head (file : String) (tag : List Char)
    (h : (((LexerState.start (.of file (.ofList tag))).moves (.of file (.ofList tag))).head?.bind
      fun m => m.tokens.head?.map fun t => (t.kind, t.start)) = some (.tagOpen, 0)) :
    ∃ t ts rest, LexesTagBehind file [] tag t ts rest ∧
      tokenize file (.ofList tag) = t :: (ts ++ rest) := by
  obtain ⟨m, first, head⟩ := Option.bind_eq_some_iff.1 h
  obtain ⟨t, ht, opens⟩ := Option.map_eq_some_iff.1 head
  obtain ⟨hk, start⟩ := Prod.mk.inj opens
  obtain ⟨ns, hms⟩ := List.head?_eq_some_iff.1 first
  obtain ⟨ts, htokens⟩ := List.head?_eq_some_iff.1 ht
  refine ⟨t, ts, _, ⟨_, ⟨[], m, ns, [], hms, htokens, hk, rfl, rfl⟩, start⟩, ?_⟩
  rw [tokenize, Source.tokens, LexerState.tokens_eq_flatMap_moves, hms, List.flatMap_cons, htokens,
    List.cons_append]

/-- The names stay and the values do not, with a code block behind the value of `a`. -/
theorem attributes_codeBetween_panel : ∃ t ts rest t' ts' rest',
    LexesTagBehind "page.aspx" [] "<Panel a=\"b\">".toList t ts rest ∧
    LexesTagBehind "page.aspx" [] "<Panel a=\"b\" <%=x%>>".toList t' ts' rest' ∧
      ∃ x x', StartTag.of? (t :: (ts ++ rest)) = some x ∧
        StartTag.of? (t' :: (ts' ++ rest')) = some x' ∧
        x'.attributes.map (·.name.value) = x.attributes.map (·.name.value) ∧
        x'.attributes.map Attribute.content ≠ x.attributes.map Attribute.content := by
  obtain ⟨t, ts, rest, tag, -⟩ :=
    lexesTagBehind_of_head "page.aspx" "<Panel a=\"b\">".toList (by decide +kernel)
  obtain ⟨t', ts', rest', tag', -⟩ :=
    lexesTagBehind_of_head "page.aspx" "<Panel a=\"b\" <%=x%>>".toList (by decide +kernel)
  have value : ValueText '"' true ['b'] (fragmentContent true ['b']) :=
    .last ⟨by decide, fun opens => absurd (opens.subset List.mem_cons_self) (by decide)⟩
  have place : Stretch ['>'] (' ' :: (['a'] ++ ([] ++ '=' :: ([] ++ '"' :: (['b'] ++ '"' :: [])))))
      ((.attribute, "a") :: (fragmentContent true ['b'] ++ [])) :=
    .blank (by decide) (.quoted (List.cons_ne_nil _ _) (List.all_eq_true.1 rfl) (by simp) (.inl rfl)
      value .nil)
  have closed : ¬ ['%', '>'] <:+: ['=', 'x'] := fun ends =>
    absurd (ends.subset List.mem_cons_self) (by decide)
  obtain ⟨kind, code, block⟩ := exists_code closed (by decide) (by decide)
  have blocks : CodeText (' ' :: ('<' :: '%' :: (['=', 'x'] ++ ['%', '>']) ++ []))
      [(.code kind, code)] := .blank (by decide) (.block block .nil)
  have text : "<Panel a=\"b\">".toList = '<' :: (['P', 'a', 'n', 'e', 'l'] ++
      (' ' :: (['a'] ++ ([] ++ '=' :: ([] ++ '"' :: (['b'] ++ '"' :: [])))) ++ ['>'])) := by
    decide +kernel
  have text' : "<Panel a=\"b\" <%=x%>>".toList = '<' :: (['P', 'a', 'n', 'e', 'l'] ++
      (' ' :: (['a'] ++ ([] ++ '=' :: ([] ++ '"' :: (['b'] ++ '"' :: [])))) ++
        (' ' :: ('<' :: '%' :: (['=', 'x'] ++ ['%', '>']) ++ []) ++ ['>']))) := by
    decide +kernel
  obtain ⟨x, x', read, read', names, values, -⟩ :=
    attributes_codeBetween (text ▸ tag) (text' ▸ tag') (by decide +kernel) place blocks
      (List.cons_ne_nil _ _) (by decide)
  refine ⟨t, ts, rest, t', ts', rest', tag, tag', x, x', read, read', names, fun same => ?_⟩
  have uncut : ∀ u ∈ ((.attribute, "a") :: (fragmentContent true ['b'] ++ []) :
      List (TokenKind × String)), u.1 ≠ .serverComment := by simp [fragmentContent]
  rcases values.1 same with none | ⟨u, mem, comment⟩
  · exact none _ List.mem_cons_self rfl
  · exact uncut u mem comment

/-- Behind the value of `a`, a code block joins it. -/
theorem code_joins_value : ¬ ∀ t ts rest t' ts' rest',
    LexesTagBehind "page.aspx" [] "<Panel a=\"b\">".toList t ts rest →
    LexesTagBehind "page.aspx" [] "<Panel a=\"b\" <%=x%>>".toList t' ts' rest' →
      ∃ x x', StartTag.of? (t :: (ts ++ rest)) = some x ∧
        StartTag.of? (t' :: (ts' ++ rest')) = some x' ∧
        x'.attributes.map Attribute.content = x.attributes.map Attribute.content := by
  intro kept
  obtain ⟨t, ts, rest, tag, tokens⟩ :=
    lexesTagBehind_of_head "page.aspx" "<Panel a=\"b\">".toList (by decide +kernel)
  obtain ⟨t', ts', rest', tag', tokens'⟩ :=
    lexesTagBehind_of_head "page.aspx" "<Panel a=\"b\" <%=x%>>".toList (by decide +kernel)
  obtain ⟨x, x', read, read', same⟩ := kept t ts rest t' ts' rest' tag tag'
  rw [← tokens] at read
  rw [← tokens'] at read'
  have apart : (StartTag.of? (tokenize "page.aspx" (.ofList "<Panel a=\"b\" <%=x%>>".toList))).map
      (·.attributes.map Attribute.content) ≠
        (StartTag.of? (tokenize "page.aspx" (.ofList "<Panel a=\"b\">".toList))).map
          (·.attributes.map Attribute.content) := by
    decide +kernel
  rw [read, read', Option.map_some, Option.map_some, same] at apart
  exact apart rfl

end ServerMarkup
