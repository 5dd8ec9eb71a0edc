/-
# How the pieces of a tag are read

The readers of a tag are run here over a known text, one piece at a time: a block (`Reads.block`), a
quoted value with its fragments and blocks (`Reads.valueText`), and an attribute in each of its
three forms.  Each lemma says where the reader comes to and what its tokens are, but for their
places (`Token.content`).

A cursor over a known text goes on by the length of the piece, so what follows a piece is left as it
is.
-/

import Mathlib.Data.List.Basic
import Mathlib.Data.List.TakeWhile
import ServerMarkup.Proofs.Lexer.Determined
import ServerMarkup.Proofs.Lexer.Inspection
import ServerMarkup.Proofs.Source.Excerpts

namespace ServerMarkup

/-- The token is an attribute name, and it is `runat` in any letter case. -/
def Token.isRunat (t : Token) : Bool :=
  t.kind == .attribute && sameName t.text.value "runat"

/-- What a token is, but for its place. -/
def Token.content (t : Token) : TokenKind × String :=
  (t.kind, t.text.value)

/-- The place of a token does not matter for its name. -/
theorem any_isRunat {ts : List Token} {us : List (TokenKind × String)}
    (h : ts.map Token.content = us) :
    ts.any Token.isRunat = us.any fun u => u.1 == .attribute && sameName u.2 "runat" := by
  rw [← h, List.any_map]
  rfl

/-! ### Cursors over a known text -/

namespace Cursor

variable {c : Cursor} {xs cs : List Char}

theorem rest_skip_of_append (rest : c.rest = xs ++ cs) : (c.skip xs.length).rest = cs := by
  rw [rest_skip, rest, List.drop_left]

/-- The blanks that follow are skipped, and no more. -/
theorem skipBlanks_of_append (rest : c.rest = xs ++ cs) (blank : ∀ x ∈ xs, isBlank x = true)
    (led : cs.head?.any isBlank = false) : c.skipBlanks = c.skip xs.length := by
  have none : cs.takeWhile isBlank = [] := by
    cases cs with
    | nil => rfl
    | cons x cs => exact List.takeWhile_cons_of_neg (by simpa using led)
  rw [skipBlanks, rest, List.takeWhile_append_of_pos blank, none, List.append_nil]

theorem skipBlanks_of_led (led : c.rest.head?.any isBlank = false) : c.skipBlanks = c := by
  have same := @skipBlanks_of_append c [] c.rest rfl (by simp) led
  rwa [List.length_nil, skip_zero] at same

/-- Blanks are skipped from any place among them. -/
theorem skipBlanks_skip_one {x : Char} (rest : c.rest = x :: cs) (blank : isBlank x = true) :
    (c.skip 1).skipBlanks = c.skipBlanks := by
  have after : (c.skip 1).rest = cs := by rw [rest_skip, rest, List.drop_succ_cons, List.drop_zero]
  rw [skipBlanks, skipBlanks, after, rest, List.takeWhile_cons_of_pos blank, List.length_cons,
    skip_skip, Nat.add_comm]

theorem rest_skipBlanks (c : Cursor) : c.skipBlanks.rest = c.rest.dropWhile isBlank :=
  rest_skip_of_append List.takeWhile_append_dropWhile.symm

theorem skipBlanks_skipBlanks (c : Cursor) : c.skipBlanks.skipBlanks = c.skipBlanks := by
  refine skipBlanks_of_led ?_
  have first := List.head?_dropWhile_not isBlank c.rest
  rw [rest_skipBlanks]
  cases head : (c.rest.dropWhile isBlank).head? with
  | none => rfl
  | some x => simpa [head] using first

end Cursor

theorem not_endsName_of_isNameChar {x : Char} {cs : List Char} (h : isNameChar x = true) :
    endsName .tag (x :: cs) = false := by
  obtain ⟨led, other⟩ := isNameChar_iff.1 h
  simp only [List.mem_cons, List.not_mem_nil, or_false, not_or] at other
  simp [endsName, led, other, isPrefixOf_eq_false_of_ne]

theorem endsName_append {cs ds : List Char} (ends : endsName .tag cs = true) (filled : cs ≠ []) :
    endsName .tag (cs ++ ds) = true := by
  obtain ⟨x, xs, rfl⟩ := List.exists_cons_of_ne_nil filled
  simp only [endsName, List.cons_append, Bool.or_eq_true] at ends ⊢
  rcases ends with (mark | opens) | directive
  · exact .inl (.inl mark)
  · refine .inl (.inr (List.isPrefixOf_iff_prefix.2 ?_))
    exact (List.isPrefixOf_iff_prefix.1 opens).trans (List.prefix_append (x :: xs) ds)
  · cases directive

/-- A name of an attribute is read up to its end. -/
theorem nameReach_of_append {name cs : List Char} {c : Cursor}
    (plain : ∀ x ∈ name, isNameChar x = true) (ends : endsName .tag cs = true)
    (text : c.rest = name ++ cs) : nameReach .tag c = name.length := by
  rw [nameReach, text]
  refine reach_append ?_ (.inr ends)
  intro j hj
  rw [List.drop_append_of_le_length (Nat.le_of_lt hj), List.drop_eq_getElem_cons hj]
  exact not_endsName_of_isNameChar (plain _ (List.getElem_mem hj))

theorem NameText.nameReach_eq {b : Bool} {name rest : List Char} (named : NameText b name rest)
    {c : Cursor} {after : List Char} (closed : rest ≠ [])
    (text : c.rest = name ++ (rest ++ after)) : nameReach .tag c = name.length :=
  nameReach_of_append named.plain (endsName_append named.ends closed) text

/-! ### Blocks -/

/-- What a code block does is told by the character behind its `<%`. -/
theorem exists_of?_code {cs : List Char} (statement : cs.head? ≠ some '@')
    (plain : ¬ ['-', '-'] <+: cs) :
    ∃ kind n, (∀ after, Opening.of? ('<' :: '%' :: (cs ++ '%' :: after)) = some (.code kind)) ∧
      (Opening.code kind).width = n + 2 ∧ n ≤ cs.length := by
  cases cs with
  | nil => exact ⟨.statement, 0, fun _ => rfl, rfl, Nat.le_refl 0⟩
  | cons x xs =>
    by_cases dash : x = '-'
    · subst dash
      cases xs with
      | nil => exact ⟨.statement, 0, fun _ => rfl, rfl, Nat.zero_le _⟩
      | cons y ys =>
        have other : y ≠ '-' := by
          rintro rfl
          exact plain ⟨ys, rfl⟩
        refine ⟨.statement, 0, fun after => ?_, rfl, Nat.zero_le _⟩
        simp [Opening.of?, other]
    · have first : x ≠ '@' := by simpa using statement
      by_cases output : x = '='
      · subst output
        exact ⟨.output, 1, fun _ => rfl, rfl, by simp⟩
      by_cases encoded : x = ':'
      · subst encoded
        exact ⟨.encoded, 1, fun _ => rfl, rfl, by simp⟩
      by_cases binding : x = '#'
      · subst binding
        exact ⟨.binding, 1, fun _ => rfl, rfl, by simp⟩
      refine ⟨.statement, 0, fun after => ?_, rfl, Nat.zero_le _⟩
      simp [Opening.of?, dash, first, output, encoded, binding]

/-- The end mark of a server comment is found at its end. -/
theorem distance?_comment {cs after : List Char}
    (closed : ¬ ['%', '>'] <:+: '-' :: '-' :: (cs ++ ['-', '-'])) :
    distance? ['-', '-', '%', '>'] (cs ++ (['-', '-', '%', '>'] ++ after)) = some cs.length := by
  refine distance?_append (List.cons_ne_nil _ _) ?_
  rintro j hj ⟨ys, hy⟩
  have inside : j + 4 < ('-' :: '-' :: (cs ++ ['-', '-'])).length := by simpa using hj
  refine @not_prefix_drop_of_closed _ after closed _ inside ⟨ys, ?_⟩
  have two := congrArg (List.drop 2) hy
  rw [List.drop_drop] at two
  simpa [Nat.add_comm] using two

/-- The construct that the text begins with. -/
def constructOf? (cs : List Char) : Option (Opening × Nat) := do
  let o ← Opening.of? cs
  let n ← distance? o.endMark.chars (cs.drop o.width)
  return (o, n)

/-- `Block k t`: the text `k` is one whole code block or server comment, whatever follows it, and
`t` is its token. -/
inductive Block (k : List Char) : TokenKind × String → Prop where
  | code {kind n} (found : ∀ cs, constructOf? (k ++ cs) = some (.code kind, n))
      (whole : (Opening.code kind).width + n + 2 = k.length) :
      Block k (.code kind, trimmed (.ofList ((k.drop (Opening.code kind).width).take n)))
  | comment {n} (found : ∀ cs, constructOf? (k ++ cs) = some (.comment, n))
      (whole : n + 8 = k.length) : Block k (.serverComment, .ofList ((k.drop 4).take n))

variable {s : Source} {c d : Cursor} {t : TokenKind × String} {ts : List Token} {k cs : List Char}

theorem constructOf?_eq_none (plain : ¬ ['<', '%'] <+: cs) : constructOf? cs = none := by
  rw [constructOf?, Opening.of?_eq_none plain]
  rfl

/-- A construct is told by the text that begins with it. -/
theorem construct?_eq_constructOf? (honest : s.Honest) (on : c.On s) :
    s.construct? c.offset c.rest = constructOf? c.rest := by
  rw [on.rest_eq, Source.construct?, constructOf?]
  cases Opening.of? (s.text.drop c.offset) with
  | none => rfl
  | some opening =>
    simp only [Option.bind_eq_bind, Option.bind_some, List.drop_drop, honest.ahead?_eq]

/-- Each text from a `<%` to the first `%>` behind it is a code block, unless it opens a comment or
a directive. -/
theorem exists_code {inner : List Char} (closed : ¬ ['%', '>'] <:+: inner)
    (statement : inner.head? ≠ some '@') (plain : ¬ ['-', '-'] <+: inner) :
    ∃ kind code, Block ('<' :: '%' :: (inner ++ ['%', '>'])) (.code kind, code) := by
  obtain ⟨kind, w, opening, width, le⟩ := exists_of?_code statement plain
  refine ⟨kind, _, @Block.code _ kind (inner.length - w) (fun cs => ?_) ?_⟩
  · have later : ¬ ['%', '>'] <:+: inner.drop w := fun h =>
      closed (h.trans (List.drop_suffix w inner).isInfix)
    have found : distance? ['%', '>'] (inner.drop w ++ (['%', '>'] ++ cs)) =
        some (inner.drop w).length :=
      distance?_append (List.cons_ne_nil _ _) fun j hj => not_prefix_drop_of_closed later hj
    have behind : ('<' :: '%' :: (inner ++ ['%', '>']) ++ cs).drop (w + 2) =
        inner.drop w ++ (['%', '>'] ++ cs) := by
      rw [List.cons_append, List.cons_append, List.drop_succ_cons, List.drop_succ_cons,
        List.append_assoc, List.drop_append_of_le_length le]
    have same : Opening.of? ('<' :: '%' :: (inner ++ ['%', '>']) ++ cs) = some (.code kind) := by
      rw [← opening ('>' :: cs)]
      simp
    rw [← behind, List.length_drop] at found
    simp only [constructOf?, same, Option.bind_eq_bind, Option.bind_some, width, Opening.endMark,
      EndMark.chars, found]
    rfl
  · simp only [width, List.length_cons, List.length_append, List.length_nil]
    omega

theorem IsBlock.exists_block (block : IsBlock k) : ∃ t, Block k t ∧ t.1 ≠ .attribute := by
  cases block with
  | @comment inner closed =>
    refine ⟨_, @Block.comment _ inner.length (fun cs => ?_) (by simp), TokenKind.noConfusion⟩
    have found := @distance?_comment inner cs closed
    have opening : Opening.of? ('<' :: '%' :: '-' :: '-' :: (inner ++ ['-', '-', '%', '>'] ++ cs)) =
        some .comment := rfl
    simp only [List.append_assoc, List.cons_append, List.nil_append] at found opening ⊢
    simp [constructOf?, opening, Opening.width, Opening.endMark, EndMark.chars, found]
  | code closed statement plain =>
    obtain ⟨kind, code, block⟩ := exists_code closed statement plain
    exact ⟨_, block, TokenKind.noConfusion⟩

namespace Block

variable (block : Block k t)
include block

/-- A block has a token in any text. -/
theorem constructOf?_ne_none (cs : List Char) : constructOf? (k ++ cs) ≠ none := by
  cases block with
  | code found | comment found => exact found cs ▸ Option.some_ne_none _

/-- A block begins with `<%`. -/
theorem exists_inner : ∃ inner, k = '<' :: '%' :: inner := by
  have found := block.constructOf?_ne_none []
  rw [List.append_nil] at found
  by_cases opens : ['<', '%'] <+: k
  · obtain ⟨inner, rfl⟩ := opens
    exact ⟨inner, rfl⟩
  · exact absurd (constructOf?_eq_none opens) found

theorem construct?_ne_none (honest : s.Honest) (on : c.On s) (text : c.rest = k ++ cs) :
    s.construct? c.offset c.rest ≠ none := by
  rw [construct?_eq_constructOf? honest on, text]
  exact block.constructOf?_ne_none cs

end Block

/-- A block is read as a whole. -/
theorem Reads.block (h : Reads s .construct c ts d) (block : Block k t) (honest : s.Honest)
    (on : c.On s) (text : c.rest = k ++ cs) :
    ts.map Token.content = [t] ∧ d = c.skip k.length := by
  have told := construct?_eq_constructOf? honest on
  cases block with
  | @comment n found whole =>
    rw [text, found] at told
    rw [← text] at told
    cases h with
    | comment found' =>
      obtain rfl := (Prod.mk.inj (Option.some.inj (told.symm.trans found'))).2
      refine ⟨?_, by rw [whole]⟩
      change [(TokenKind.serverComment, String.ofList ((c.rest.drop 4).take _))] = _
      rw [text, List.drop_append_of_le_length (by omega),
        List.take_append_of_le_length (by rw [List.length_drop]; omega)]
    | code found' | directive found' => cases told.symm.trans found'
  | @code kind n found whole =>
    rw [text, found] at told
    rw [← text] at told
    cases h with
    | @code _ kind' n' found' =>
      obtain ⟨same, rfl⟩ := Prod.mk.inj (Option.some.inj (told.symm.trans found'))
      obtain rfl := Opening.code.inj same
      refine ⟨?_, by rw [whole]⟩
      rw [Source.codeToken, List.map_singleton, Token.content]
      dsimp only
      rw [Excerpt.value_trim, Source.excerpt, Cursor.rest_skip, text,
        List.drop_append_of_le_length (by omega),
        List.take_append_of_le_length (by rw [List.length_drop]; omega)]
    | comment found' | directive found' => cases told.symm.trans found'

/-! ### Attributes -/

/-- A fragment is read up to the quote or the block behind it. -/
theorem IsFragment.fragmentReach_eq {q : Char} {frag : List Char} (fragment : IsFragment q frag)
    (text : c.rest = frag ++ cs) (next : cs.head? ≠ some '%')
    (stops : cs.head? = some q ∨ s.construct? (c.skip frag.length).offset cs ≠ none) :
    fragmentReach s q c = frag.length := by
  rw [fragmentReach, text]
  refine reach_append ?_ (.inr ?_)
  · intro j hj
    rw [List.drop_append_of_le_length (Nat.le_of_lt hj), List.drop_eq_getElem_cons hj]
    have other : frag[j] ≠ q := fun h => fragment.within (h ▸ List.getElem_mem hj)
    have left : IsFragment q (frag[j] :: frag.drop (j + 1)) := by
      rw [← List.drop_eq_getElem_cons hj]
      exact fragment.of_suffix (List.drop_suffix j frag)
    rw [List.cons_append, construct?_eq_none (left.not_opens next)]
    simp [other]
  · have place : (c.skip frag.length).offset = c.offset + frag.length := by
      rw [Cursor.offset_skip, Nat.min_eq_left (by simp [text])]
    rw [place] at stops
    rcases stops with quote | block
    · simp [quote]
    · simp [Option.isSome_iff_ne_none.2 block]

/-- The token of a fragment, or none if the value has other parts and it is empty. -/
def fragmentContent (alone : Bool) (frag : List Char) : List (TokenKind × String) :=
  if frag.length = 0 && !alone then [] else [(.attributeValue, .ofList frag)]

/-- `ValueText q alone v us`: the text `v` in the quotes `q` is a value, or what is left of one unless
`alone`, and `us` are its tokens. -/
inductive ValueText (q : Char) : Bool → List Char → List (TokenKind × String) → Prop where
  | last {alone frag} (fragment : IsFragment q frag) :
      ValueText q alone frag (fragmentContent alone frag)
  | block {alone frag k t w us} (fragment : IsFragment q frag) (block : Block k t)
      (more : ValueText q false w us) :
      ValueText q alone (frag ++ (k ++ w)) (fragmentContent false frag ++ t :: us)

theorem ne_attribute_of_fragmentContent {alone : Bool} {frag : List Char}
    (h : t ∈ fragmentContent alone frag) : t.1 ≠ .attribute := by
  unfold fragmentContent at h
  split at h
  · cases h
  · rw [List.mem_singleton.1 h]
    exact TokenKind.noConfusion

theorem QuotedText.exists_valueText {q : Char} {v : List Char} (value : QuotedText q v)
    (alone : Bool) : ∃ us, ValueText q alone v us ∧ ∀ u ∈ us, u.1 ≠ .attribute := by
  induction value generalizing alone with
  | last fragment => exact ⟨_, .last fragment, fun u => ne_attribute_of_fragmentContent⟩
  | block fragment block more ih =>
    obtain ⟨t, block, other⟩ := block.exists_block
    obtain ⟨us, value, others⟩ := ih false
    refine ⟨_, .block fragment block value, List.forall_mem_append.2 ⟨fun u => ?_, ?_⟩⟩
    · exact ne_attribute_of_fragmentContent
    · exact List.forall_mem_cons.2 ⟨other, others⟩

theorem content_fragment_of_append {q : Char} {alone : Bool} {frag : List Char}
    (reach : fragmentReach s q c = frag.length) (text : c.rest = frag ++ cs) :
    (s.fragment q alone c).map Token.content = fragmentContent alone frag := by
  rw [Source.fragment, fragmentContent, reach]
  split
  · rfl
  · change [(TokenKind.attributeValue, String.ofList (c.rest.take frag.length))] = _
    rw [text, List.take_left]

/-- A quoted value is read as a whole, with its closing quote. -/
theorem Reads.valueText {q : Char} {alone : Bool} {v : List Char} {us : List (TokenKind × String)}
    (h : Reads s (.quoted q alone) c ts d) (value : ValueText q alone v us)
    (quote : q = '"' ∨ q = '\x27') (honest : s.Honest) (on : c.On s) (text : c.rest = v ++ q :: cs) :
    ts.map Token.content = us ∧ d = c.skip (v.length + 1) := by
  induction value generalizing c ts with
  | last fragment =>
    have next : (q :: cs).head? ≠ some '%' := by rcases quote with rfl | rfl <;> simp
    have reach := fragment.fragmentReach_eq (s := s) text next (.inl rfl)
    have plain : ¬ ['<', '%'] <+: q :: cs := by rcases quote with rfl | rfl <;> simp
    cases h with
    | quotedConstruct first _ =>
      have found := first.construct?_ne_none
      rw [reach, Cursor.rest_skip_of_append text] at found
      exact absurd (construct?_eq_none plain _) found
    | quotedEnd _ =>
      exact ⟨content_fragment_of_append reach text, by rw [reach, Cursor.skip_skip]⟩
  | @block alone frag k t w us fragment block more ih =>
    rw [List.append_assoc, List.append_assoc] at text
    have next : (k ++ (w ++ q :: cs)).head? ≠ some '%' := by
      obtain ⟨inner, rfl⟩ := block.exists_inner
      simp
    have atBlock := Cursor.rest_skip_of_append text
    have found : s.construct? (c.skip frag.length).offset (k ++ (w ++ q :: cs)) ≠ none := by
      rw [← atBlock]
      exact block.construct?_ne_none honest (on.skip _) atBlock
    have reach := fragment.fragmentReach_eq (s := s) text next (.inr found)
    cases h with
    | quotedConstruct first rest =>
      rw [reach] at first
      obtain ⟨token, rfl⟩ := first.block block honest (on.skip _) atBlock
      obtain ⟨tokens, rfl⟩ := ih rest ((on.skip _).skip _) (Cursor.rest_skip_of_append atBlock)
      refine ⟨?_, ?_⟩
      · rw [List.map_append, List.map_append, content_fragment_of_append reach text, token, tokens,
          List.append_assoc, List.singleton_append]
      · rw [Cursor.skip_skip, Cursor.skip_skip, List.length_append, List.length_append]
        congr 1
    | quotedEnd plain =>
      rw [reach, atBlock] at plain
      exact absurd plain found

theorem not_endsValue_of_isValueChar {x : Char} (h : isValueChar x = true) :
    endsValue .tag (x :: cs) = false := by
  obtain ⟨led, other⟩ := isValueChar_iff.1 h
  simp only [List.mem_cons, List.not_mem_nil, or_false, not_or] at other
  simp [endsValue, led, other]

theorem endsValue_append {ds : List Char} (ends : endsValue .tag cs = true) (filled : cs ≠ []) :
    endsValue .tag (cs ++ ds) = true := by
  obtain ⟨x, xs, rfl⟩ := List.exists_cons_of_ne_nil filled
  exact ends

/-- A value without quotes does not begin with one. -/
theorem quote?_eq_none {value : List Char} (plain : ∀ x ∈ value, isValueChar x = true)
    (ends : endsValue .tag cs = true) : quote? (value ++ cs) = none := by
  have other {q : Char} {xs : List Char} (quote : q = '"' ∨ q = '\x27')
      (h : value ++ cs = q :: xs) : False := by
    cases value with
    | nil =>
      rw [← List.nil_append cs, h] at ends
      rcases quote with rfl | rfl <;> exact Bool.false_ne_true ends
    | cons x value =>
      have first := plain x List.mem_cons_self
      rw [(List.cons.inj h).1] at first
      rcases quote with rfl | rfl <;> exact absurd first (by decide)
  unfold quote?
  split
  · next h => exact (other (.inl rfl) h).elim
  · next h => exact (other (.inr rfl) h).elim
  · rfl

section Attribute

variable {name before behind : List Char}

theorem content_nameToken_of_append (reach : nameReach .tag c = name.length)
    (text : c.rest = name ++ cs) :
    (s.nameToken .tag c).content = (.attribute, .ofList name) := by
  change (TokenKind.attribute, String.ofList (c.rest.take (nameReach .tag c))) = _
  rw [reach, text, List.take_left]

/-- The reader of an attribute comes to its equals sign. -/
theorem afterName_eq (reach : nameReach .tag c = name.length)
    (text : c.rest = name ++ (before ++ '=' :: cs)) (blank : ∀ x ∈ before, isBlank x = true) :
    afterName .tag c = c.skip (name.length + before.length) ∧
      (afterName .tag c).rest = '=' :: cs := by
  have behindName := Cursor.rest_skip_of_append text
  have skipped := Cursor.skipBlanks_of_append behindName blank (show isBlank '=' = false by decide)
  rw [afterName, reach, skipped]
  exact ⟨Cursor.skip_skip .., Cursor.rest_skip_of_append behindName⟩

/-- The reader of an attribute comes from its equals sign to its value. -/
theorem afterEquals_eq (text : c.rest = '=' :: (behind ++ cs))
    (blank : ∀ x ∈ behind, isBlank x = true) (led : cs.head?.any isBlank = false) :
    afterEquals c = c.skip (1 + behind.length) ∧ (afterEquals c).rest = cs := by
  have behindSign : (c.skip 1).rest = behind ++ cs := by
    rw [Cursor.rest_skip, text, List.drop_succ_cons, List.drop_zero]
  rw [afterEquals, Cursor.skipBlanks_of_append behindSign blank led]
  exact ⟨Cursor.skip_skip .., Cursor.rest_skip_of_append behindSign⟩

/-- An attribute without a value is read with the blanks behind it. -/
theorem Reads.bareText (h : Reads s (.attribute .tag) c ts d)
    (reach : nameReach .tag c = name.length) (text : c.rest = name ++ cs)
    (valueless : (cs.dropWhile isBlank).head? ≠ some '=') :
    ts.map Token.content = [(.attribute, .ofList name)] ∧
      d = (c.skip name.length).skipBlanks := by
  have rest : (afterName .tag c).rest = cs.dropWhile isBlank := by
    rw [afterName, reach, Cursor.rest_skipBlanks, Cursor.rest_skip_of_append text]
  cases h with
  | bare _ _ =>
    rw [List.map_singleton, content_nameToken_of_append reach text, afterName, reach]
    exact ⟨rfl, rfl⟩
  | unquoted _ valued _ | quoted _ valued _ _ =>
    rw [rest] at valued
    exact absurd valued valueless

/-- An attribute with a value without quotes is read up to the end of the value. -/
theorem Reads.unquotedText {value : List Char} (h : Reads s (.attribute .tag) c ts d)
    (reach : nameReach .tag c = name.length)
    (text : c.rest = name ++ (before ++ '=' :: (behind ++ (value ++ cs))))
    (blank : ∀ x ∈ before ++ behind, isBlank x = true)
    (plain : ∀ x ∈ value, endsValue .tag [x] = false) (ends : endsValue .tag cs = true)
    (unquoted : quote? (value ++ cs) = none) (led : (value ++ cs).head?.any isBlank = false) :
    ts.map Token.content = [(.attribute, .ofList name), (.attributeValue, .ofList value)] ∧
      d = c.skip (name ++ (before ++ '=' :: (behind ++ value))).length := by
  rw [List.forall_mem_append] at blank
  obtain ⟨toSign, atSign⟩ := afterName_eq reach text blank.1
  obtain ⟨toValue, atValue⟩ := afterEquals_eq atSign blank.2 led
  have size : valueReach .tag (afterEquals (afterName .tag c)) = value.length := by
    rw [valueReach, atValue]
    refine reach_append ?_ (.inr ends)
    intro j hj
    rw [List.drop_append_of_le_length (Nat.le_of_lt hj), List.drop_eq_getElem_cons hj]
    exact plain _ (List.getElem_mem hj)
  cases h with
  | bare _ valueless => exact absurd (by rw [atSign]; rfl) valueless
  | unquoted _ _ _ =>
    refine ⟨?_, ?_⟩
    · rw [List.map_cons, List.map_singleton, content_nameToken_of_append reach text]
      change [_, (TokenKind.attributeValue, String.ofList (List.take (valueReach .tag _) _))] = _
      rw [size, atValue, List.take_left]
    · rw [size, toValue, toSign, Cursor.skip_skip, Cursor.skip_skip]
      congr 1
      simp only [List.length_append, List.length_cons]
      omega
  | quoted _ _ opened _ =>
    rw [atValue, unquoted] at opened
    cases opened

/-- An attribute with a quoted value is read up to and with the closing quote. -/
theorem Reads.quotedText {q : Char} {value : List Char} {us : List (TokenKind × String)}
    (h : Reads s (.attribute .tag) c ts d) (reach : nameReach .tag c = name.length)
    (text : c.rest = name ++ (before ++ '=' :: (behind ++ q :: (value ++ q :: cs))))
    (blank : ∀ x ∈ before ++ behind, isBlank x = true) (quote : q = '"' ∨ q = '\x27')
    (inner : ValueText q true value us) (honest : s.Honest) (on : c.On s) :
    ts.map Token.content = (.attribute, .ofList name) :: us ∧
      d = c.skip (name ++ (before ++ '=' :: (behind ++ q :: (value ++ [q])))).length := by
  rw [List.forall_mem_append] at blank
  have led : (q :: (value ++ q :: cs)).head?.any isBlank = false := by
    rcases quote with rfl | rfl <;> exact show isBlank _ = false by decide
  obtain ⟨toSign, atSign⟩ := afterName_eq reach text blank.1
  obtain ⟨toValue, atValue⟩ := afterEquals_eq atSign blank.2 led
  have opening : quote? (q :: (value ++ q :: cs)) = some q := by
    rcases quote with rfl | rfl <;> rfl
  cases h with
  | bare _ valueless => exact absurd (by rw [atSign]; rfl) valueless
  | unquoted _ _ unquoted =>
    rw [atValue, opening] at unquoted
    cases unquoted
  | quoted _ _ opened within =>
    rw [atValue, opening] at opened
    obtain rfl := Option.some.inj opened
    have inside : ((afterEquals (afterName .tag c)).skip 1).rest = value ++ q :: cs := by
      rw [Cursor.rest_skip, atValue, List.drop_succ_cons, List.drop_zero]
    obtain ⟨tokens, rfl⟩ :=
      within.valueText inner quote honest (on.afterName.afterEquals.skip 1) inside
    refine ⟨?_, ?_⟩
    · rw [List.map_cons, content_nameToken_of_append reach text, tokens]
    · rw [toValue, toSign, Cursor.skip_skip, Cursor.skip_skip, Cursor.skip_skip]
      congr 1
      simp only [List.length_append, List.length_cons, List.length_nil]
      omega

end Attribute

end ServerMarkup
