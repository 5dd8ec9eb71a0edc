/-
# Stretches of a tag

A stretch of a tag reaches from behind its name, or behind one of its parts, to the beginning of
another part: `Stretch after w us` says that the text `w` is one if `after` follows, and which tokens
it has.  Whatever it stands in, a stretch is read as these tokens, and what is behind it is read next
(`Reads.stretch`).

What follows a stretch matters for its last part only, which has to end there.  So a stretch is still
one if blanks and code blocks are put behind it (`Stretch.before_blocks`).
-/

import ServerMarkup.Proofs.Lexer.Alike
import ServerMarkup.Proofs.Lexer.Runat
import ServerMarkup.Proofs.Lexer.Shapes

namespace ServerMarkup

/-- `Stretch after w us`: in front of `after`, the text `w` is a stretch of a tag, from one of its
parts to another, and `us` are its tokens. -/
inductive Stretch (after : List Char) : List Char → List (TokenKind × String) → Prop where
  | nil : Stretch after [] []
  | blank {x w us} (blank : isBlank x = true) (more : Stretch after w us) : Stretch after (x :: w) us
  | block {k t w us} (block : Block k t) (more : Stretch after w us) :
      Stretch after (k ++ w) (t :: us)
  | stray {x w us} (stray : x ∈ ['\x00', '"', '\x27', '/', '='])
      (going : x = '/' → (w ++ after).head? ≠ some '>') (more : Stretch after w us) :
      Stretch after (x :: w) us
  | bare {name w us} (filled : name ≠ []) (plain : ∀ x ∈ name, isNameChar x = true)
      (ends : endsName .tag w = true) (last : w = [] → endsName .tag after = true)
      (valueless : ((w ++ after).dropWhile isBlank).head? ≠ some '=') (more : Stretch after w us) :
      Stretch after (name ++ w) ((.attribute, .ofList name) :: us)
  | unquoted {name before behind value w us} (filled : name ≠ [])
      (plain : ∀ x ∈ name, isNameChar x = true)
      (blank : ∀ x ∈ before ++ behind, isBlank x = true)
      (going : ∀ x ∈ value, endsValue .tag [x] = false) (ends : endsValue .tag w = true)
      (last : w = [] → endsValue .tag after = true) (some : value ++ w ≠ [])
      (unquoted : quote? (value ++ w) = none) (led : (value ++ w).head?.any isBlank = false)
      (more : Stretch after w us) :
      Stretch after (name ++ (before ++ '=' :: (behind ++ (value ++ w))))
        ((.attribute, .ofList name) :: (.attributeValue, .ofList value) :: us)
  | quoted {name before behind q value w vs us} (filled : name ≠ [])
      (plain : ∀ x ∈ name, isNameChar x = true)
      (blank : ∀ x ∈ before ++ behind, isBlank x = true) (quote : q = '"' ∨ q = '\x27')
      (inner : ValueText q true value vs) (more : Stretch after w us) :
      Stretch after (name ++ (before ++ '=' :: (behind ++ q :: (value ++ q :: w))))
        ((.attribute, .ofList name) :: (vs ++ us))

/-- Blanks and code blocks, and the tokens of the blocks. -/
inductive CodeText : List Char → List (TokenKind × String) → Prop where
  | nil : CodeText [] []
  | blank {x w ks} (blank : isBlank x = true) (more : CodeText w ks) : CodeText (x :: w) ks
  | block {k kind code w ks} (block : Block k (.code kind, code)) (more : CodeText w ks) :
      CodeText (k ++ w) ((.code kind, code) :: ks)

namespace CodeText

variable {ins after : List Char} {ks : List (TokenKind × String)}

theorem stretch (h : CodeText ins ks) : Stretch after ins ks := by
  induction h with
  | nil => exact .nil
  | blank blank _ ih => exact .blank blank ih
  | block block _ ih => exact .block block ih

theorem isCode (h : CodeText ins ks) : ∀ k ∈ ks, ∃ kind code, k = (.code kind, code) := by
  induction h with
  | nil => simp
  | blank _ _ ih => exact ih
  | block _ _ ih => exact List.forall_mem_cons.2 ⟨⟨_, _, rfl⟩, ih⟩

/-- Behind the blanks the first block begins. -/
theorem head?_dropWhile (h : CodeText ins ks) (filled : ks ≠ []) :
    ((ins ++ after).dropWhile isBlank).head? = some '<' := by
  induction h with
  | nil => exact absurd rfl filled
  | blank blank _ ih =>
    rw [List.cons_append, List.dropWhile_cons_of_pos blank]
    exact ih filled
  | block block _ _ =>
    obtain ⟨inner, rfl⟩ := block.exists_inner
    rfl

end CodeText

/-! ### The tokens of a stretch -/

/-- A token of an attribute, a code block or a server comment. -/
def TokenKind.InStretch (k : TokenKind) : Prop :=
  k.isPlain = true ∨ k = .serverComment

theorem Block.inStretch {k : List Char} {t : TokenKind × String} (h : Block k t) :
    t.1.InStretch := by
  cases h with
  | code => exact .inl rfl
  | comment => exact .inr rfl

theorem ValueText.inStretch {q : Char} {alone : Bool} {v : List Char}
    {us : List (TokenKind × String)} (h : ValueText q alone v us) : ∀ u ∈ us, u.1.InStretch := by
  have fragment {alone : Bool} {frag : List Char} : ∀ u ∈ fragmentContent alone frag,
      u.1.InStretch := by
    unfold fragmentContent
    split
    · simp
    · exact List.forall_mem_singleton.2 (.inl rfl)
  induction h with
  | last => exact fragment
  | block _ block _ ih =>
    exact List.forall_mem_append.2 ⟨fragment, List.forall_mem_cons.2 ⟨block.inStretch, ih⟩⟩

theorem Stretch.inStretch {after w : List Char} {us : List (TokenKind × String)}
    (h : Stretch after w us) : ∀ u ∈ us, u.1.InStretch := by
  induction h with
  | nil => simp
  | blank _ _ ih | stray _ _ _ ih => exact ih
  | block block _ ih => exact List.forall_mem_cons.2 ⟨block.inStretch, ih⟩
  | bare _ _ _ _ _ _ ih => exact List.forall_mem_cons.2 ⟨.inl rfl, ih⟩
  | unquoted _ _ _ _ _ _ _ _ _ _ ih =>
    exact List.forall_mem_cons.2 ⟨.inl rfl, List.forall_mem_cons.2 ⟨.inl rfl, ih⟩⟩
  | quoted _ _ _ _ inner _ ih =>
    exact List.forall_mem_cons.2 ⟨.inl rfl, List.forall_mem_append.2 ⟨inner.inStretch, ih⟩⟩

/-! ### Blocks behind a stretch -/

/-- A stretch in front of blanks and code blocks instead. -/
theorem Stretch.before_blocks {after w ins after' : List Char} {us ks : List (TokenKind × String)}
    (h : Stretch after w us) (code : CodeText ins ks) (filled : ks ≠ [])
    (apart : ins.head?.any isBlank = true) : Stretch (ins ++ after') w us := by
  have next := @CodeText.head?_dropWhile _ after' _ code filled
  obtain ⟨x, xs, rfl⟩ : ∃ x xs, ins = x :: xs := by
    cases ins with
    | nil => cases apart
    | cons x xs => exact ⟨x, xs, rfl⟩
  have blank : isBlank x = true := apart
  induction h with
  | nil => exact .nil
  | blank blank _ ih => exact .blank blank ih
  | block block _ ih => exact .block block ih
  | @stray y w us stray going _ ih =>
    refine .stray stray (fun slash => ?_) ih
    cases w with
    | nil =>
      intro close
      obtain rfl := Option.some.inj close
      exact absurd blank (by decide)
    | cons z w => exact going slash
  | @bare name w us named plain ends last valueless _ ih =>
    refine .bare named plain ends (fun _ => ?_) ?_ ih
    · simp [endsName, blank]
    · by_cases all : ∃ y ∈ w, isBlank y = false
      · rw [head?_dropWhile_append all] at valueless ⊢
        exact valueless
      · rw [List.dropWhile_append_of_pos (by simpa using all), next]
        decide
  | unquoted named plain blanks going ends last some unquoted led _ ih =>
    refine .unquoted named plain blanks going ends (fun _ => ?_) some unquoted led ih
    simp [endsValue, blank]
  | quoted named plain blanks quote inner _ ih => exact .quoted named plain blanks quote inner ih

section
variable {s : Source} {e : TagEnd} {c d : Cursor} {ts : List Token} {after w : List Char}
  {us : List (TokenKind × String)}

theorem endsName_append_of_last (ends : endsName .tag w = true)
    (last : w = [] → endsName .tag after = true) : endsName .tag (w ++ after) = true := by
  by_cases empty : w = []
  · rw [empty]
    exact last empty
  · exact endsName_append ends empty

theorem endsValue_append_of_last (ends : endsValue .tag w = true)
    (last : w = [] → endsValue .tag after = true) : endsValue .tag (w ++ after) = true := by
  by_cases empty : w = []
  · rw [empty]
    exact last empty
  · exact endsValue_append ends empty

/-- A text begins with a quote or not, whatever follows it. -/
theorem quote?_append {cs ds : List Char} (filled : cs ≠ []) : quote? (cs ++ ds) = quote? cs := by
  obtain ⟨x, xs, rfl⟩ := List.exists_cons_of_ne_nil filled
  by_cases double : x = '"'
  · rw [double]
    rfl
  by_cases single : x = '\x27'
  · rw [single]
    rfl
  simp [quote?, double, single]

/-- A name ends in front of an equals sign and the blanks before it. -/
theorem endsName_of_equals {before cs : List Char} (blank : ∀ x ∈ before, isBlank x = true) :
    endsName .tag (before ++ '=' :: cs) = true := by
  cases before with
  | nil => rfl
  | cons x xs => simp [endsName, blank x List.mem_cons_self]

/-- An attribute is read at its name. -/
theorem Reads.ofNameChars {name cs : List Char} (h : Reads s (.body e) c ts d)
    (filled : name ≠ []) (plain : ∀ x ∈ name, isNameChar x = true) (text : c.rest = name ++ cs) :
    ∃ us b vs, Reads s (.attribute .tag) c us b ∧ Reads s (.body e) b vs d ∧ ts = us ++ vs := by
  obtain ⟨x, xs, rfl⟩ := List.exists_cons_of_ne_nil filled
  exact h.ofName text (plain x List.mem_cons_self)

/-- The tokens `ts` of a tag are first those of a stretch, `us`, and then those of what is read from
the text `after`. -/
def ReadsOn (s : Source) (e : TagEnd) (after : List Char) (us : List (TokenKind × String))
    (ts : List Token) (d : Cursor) : Prop :=
  ∃ xs ys b, ts = xs ++ ys ∧ xs.map Token.content = us ∧ Reads s (.body e) b ys d ∧ b.On s ∧
    b.rest = after

theorem ReadsOn.cons {xs : List Token} {vs : List (TokenKind × String)}
    (h : ReadsOn s e after us ts d) (tokens : xs.map Token.content = vs) :
    ReadsOn s e after (vs ++ us) (xs ++ ts) d := by
  obtain ⟨xs', ys, b, rfl, tokens', more, left⟩ := h
  exact ⟨xs ++ xs', ys, b, (List.append_assoc ..).symm, by rw [List.map_append, tokens, tokens'],
    more, left⟩

/-- **A stretch of a tag is read as its tokens**, and then what follows it. -/
theorem Reads.stretch (h : Reads s (.body e) c ts d) (written : Stretch after w us)
    (honest : s.Honest) (on : c.On s) (text : c.rest = w ++ after) :
    ReadsOn s e after us ts d := by
  induction written generalizing c ts with
  | nil => exact ⟨[], ts, c, rfl, rfl, h, on, text⟩
  | blank blank _ ih =>
    have behind := h.body_congr (Cursor.skipBlanks_skip_one text blank)
    exact ih behind (on.skip 1) (by rw [Cursor.rest_skip, text]; rfl)
  | @block k t w us block _ ih =>
    rw [List.append_assoc] at text
    have found : constructOf? c.rest ≠ none := text ▸ block.constructOf?_ne_none (w ++ after)
    have led : c.rest.head?.any isBlank = false := by
      obtain ⟨inner, rfl⟩ := block.exists_inner
      rw [text]
      exact show isBlank '<' = false by decide
    have goes := h.bodyGoes honest on
    rw [Cursor.skipBlanks_of_led led, Going.tag_construct found] at goes
    obtain ⟨xs, vs, b, first, more, rfl⟩ := goes
    obtain ⟨token, rfl⟩ := first.block block honest on text
    exact (ih more (on.skip _) (Cursor.rest_skip_of_append text)).cons token
  | @stray x w us stray going _ ih =>
    have told : isBlank x = false ∧ x ≠ '<' ∧ x ≠ '>' ∧ endsName .tag (x :: (w ++ after)) = true := by
      simp only [List.mem_cons, List.not_mem_nil, or_false] at stray
      rcases stray with rfl | rfl | rfl | rfl | rfl <;> exact ⟨by decide, by decide, by decide, rfl⟩
    obtain ⟨solid, noBlock, noClose, ends⟩ := told
    have unclosed : ['>'].isPrefixOf (x :: (w ++ after)) = false := by
      refine Bool.eq_false_iff.2 fun closed => ?_
      obtain ⟨ys, hy⟩ := List.isPrefixOf_iff_prefix.1 closed
      exact noClose (List.cons.inj hy).1.symm
    have open' : ['/', '>'].isPrefixOf (x :: (w ++ after)) = false := by
      refine Bool.eq_false_iff.2 fun closed => ?_
      obtain ⟨ys, hy⟩ := List.isPrefixOf_iff_prefix.1 closed
      obtain ⟨slash, next⟩ := List.cons.inj hy
      exact going slash.symm (by rw [← next]; rfl)
    have plain : constructOf? (x :: (w ++ after)) = none := by
      refine constructOf?_eq_none fun opens => ?_
      obtain ⟨ys, hy⟩ := opens
      exact noBlock (List.cons.inj hy).1.symm
    have led : c.rest.head?.any isBlank = false := by rwa [text]
    have goes := h.bodyGoes honest on
    rw [Cursor.skipBlanks_of_led led, text, List.cons_append,
      Going.tag_stray (List.cons_ne_nil _ _) unclosed open' plain ends] at goes
    exact ih goes (on.skip 1) (by rw [Cursor.rest_skip, text]; rfl)
  | @bare name w us named plain ends last valueless _ ih =>
    rw [List.append_assoc] at text
    obtain ⟨xs, b, vs, first, more, rfl⟩ := h.ofNameChars named plain text
    have reach := nameReach_of_append plain (endsName_append_of_last ends last) text
    obtain ⟨token, rfl⟩ := first.bareText reach text valueless
    exact (ih (more.body_congr (Cursor.skipBlanks_skipBlanks _).symm) (on.skip _)
      (Cursor.rest_skip_of_append text)).cons token
  | @unquoted name before behind value w us named plain blanks going ends last some unquoted led _
      ih =>
    have filled : value ++ (w ++ after) = (value ++ w) ++ after := (List.append_assoc ..).symm
    have unquoted' : quote? (value ++ (w ++ after)) = none := by
      rw [filled, quote?_append some, unquoted]
    have led' : (value ++ (w ++ after)).head?.any isBlank = false := by
      rwa [filled, List.head?_append_of_ne_nil _ some]
    have sign : endsName .tag (before ++ '=' :: (behind ++ (value ++ (w ++ after)))) = true :=
      endsName_of_equals fun y mem => blanks y (List.mem_append_left _ mem)
    have text' : c.rest = name ++ (before ++ '=' :: (behind ++ (value ++ (w ++ after)))) := by
      simpa using text
    obtain ⟨xs, b, vs, first, more, rfl⟩ := h.ofNameChars named plain text'
    obtain ⟨tokens, rfl⟩ := first.unquotedText (nameReach_of_append plain sign text') text' blanks
      going (endsValue_append_of_last ends last) unquoted' led'
    exact (ih more (on.skip _) (Cursor.rest_skip_of_append (by simpa using text'))).cons tokens
  | @quoted name before behind q value w vs us named plain blanks quote inner _ ih =>
    have sign : endsName .tag (before ++ '=' :: (behind ++ q :: (value ++ q :: (w ++ after)))) =
        true := endsName_of_equals fun y mem => blanks y (List.mem_append_left _ mem)
    have text' : c.rest =
        name ++ (before ++ '=' :: (behind ++ q :: (value ++ q :: (w ++ after)))) := by
      simpa using text
    obtain ⟨xs, b, vs, first, more, rfl⟩ := h.ofNameChars named plain text'
    obtain ⟨tokens, rfl⟩ := first.quotedText (nameReach_of_append plain sign text') text' blanks
      quote inner honest on
    exact (ih more (on.skip _) (Cursor.rest_skip_of_append (by simpa using text'))).cons tokens

end

end ServerMarkup
