/-
# The body of a script

While the parser has a server script open, it takes the first closing tag for that of the script,
whatever its name.  The lexer makes sure that this is right: it reads the body of a script up to a
closing tag of its name, so there is no tag before that one, and then it takes that one apart
(`LexerState.InScript.step`).
-/

import ServerMarkup.Proofs.Lexer.Openings
import ServerMarkup.Proofs.Nesting.Turns

namespace ServerMarkup

/-! ### The names of scripts and style sheets -/

/-- There are two such names. -/
theorem isRawTextElement_iff {name : String} :
    isRawTextElement name = true ↔ small name = small "script" ∨ small name = small "style" := by
  simp only [isRawTextElement, nameIn, rawTextElements, List.any_cons, List.any_nil, Bool.or_false,
    Bool.or_eq_true, sameName_comm _ name, sameName_iff_small]

/-- Such a name begins with a letter. -/
theorem head?_of_isRawTextElement {cs : List Char}
    (raw : isRawTextElement (.ofList (tagNameOf cs)) = true) : cs.head?.any isLetter = true := by
  have spelled := isRawTextElement_iff.1 raw
  rw [small, String.toList_ofList] at spelled
  cases cs with
  | nil => rcases spelled with none | none <;> cases none
  | cons c cs =>
    rw [tagNameOf, List.takeWhile_cons] at spelled
    split at spelled
    · have first : c.toLower = 's' := by
        rcases spelled with script | style
        · exact (List.cons.inj script).1
        · exact (List.cons.inj style).1
      change isLetter c = true
      rw [← isLetter_toLower, first]
      rfl
    · rcases spelled with none | none <;> cases none

theorem isRawTextElement_of_script {name : String} (h : sameName name "script" = true) :
    isRawTextElement name = true := by
  rw [isRawTextElement, nameIn_eq_of_sameName h]
  decide +kernel

/-- A start tag that opens a script can have content. -/
theorem Builder.OpensScript.hasContent {t : StartTag} (h : OpensScript t) :
    Builder.hasContent t = true := by
  have filled : isVoidElement t.tag.localName = false := by
    rw [isVoidElement, nameIn_eq_of_sameName h.script]
    decide +kernel
  simp [Builder.hasContent, h.opened, filled]

namespace LexerState

/-- The body of the script `t` is being read, or it has been read: its closing tag comes next, or
the end of the source. -/
structure InScript (st : LexerState) (t : OpenTag) : Prop where
  innermost : st.opened.head? = some t
  taken : t.role ≠ .literal
  script : sameName t.name "script" = true
  place : st.raw = some t.name ∨
    st.raw = none ∧ (st.cursor.rest = [] ∨ closesRaw t.name st.cursor.rest = true)

variable {s : Source} {st next : LexerState} {t : OpenTag} {ts : List Token}

/-- Behind a start tag that opens a script. -/
theorem inScript_of_opensScript {t : StartTag} {role : TagRole} (script : Builder.OpensScript t)
    (name : ∃ e : Excerpt, t.tag = .ofExcerpt e ∧ e.value = st.startName)
    (taken : role ≠ .literal) (opened : next.opened = ⟨st.startName, role⟩ :: st.opened)
    (raw : next.raw = if isRawTextElement st.startName then some st.startName else none) :
    next.InScript ⟨st.startName, role⟩ := by
  obtain ⟨e, tag, value⟩ := name
  have plain := script.plain
  rw [tag] at plain
  have isScript : sameName st.startName "script" = true := by
    rw [← value, ← TagName.localName_ofExcerpt plain, ← tag]
    exact script.script
  rw [isRawTextElement_of_script isScript] at raw
  exact ⟨by rw [opened]; rfl, taken, isScript, .inl raw⟩

theorem exists_of_closesRaw {tag : String} {cs : List Char} (h : closesRaw tag cs = true) :
    ∃ ds, cs = '<' :: '/' :: ds ∧ sameName (.ofList (tagNameOf ds)) tag = true := by
  unfold closesRaw at h
  split at h
  · next ds =>
    rw [Bool.and_eq_true] at h
    exact ⟨ds, rfl, h.2⟩
  · cases h

/-- At the closing tag of a script, the lexer takes it apart. -/
theorem InScript.marked (h : st.InScript t) (outside : st.raw = none)
    (closes : closesRaw t.name st.cursor.rest = true) (hs : st.step s = (ts, some next)) :
    sameName t.name st.endName = true ∧ ∃ us, ts = st.gathered s ++ (st.endTokens s ++ us) := by
  obtain ⟨ds, hr, same⟩ := exists_of_closesRaw closes
  have raw := isRawTextElement_of_script (sameName_trans same h.script)
  have tag : st.AtEndTag :=
    ⟨outside, by simp [Cursor.sees, hr], by rw [hr]; exact head?_of_isRawTextElement raw⟩
  have name : st.endName = .ofList (tagNameOf ds) := by rw [endName, hr]; rfl
  have same' : sameName t.name st.endName = true := by
    rw [name, sameName_comm]
    exact same
  obtain ⟨below, opened⟩ := List.head?_eq_some_iff.1 h.innermost
  have close : closeTag? st.opened st.endName = some (t.role, below) := by
    simp [closeTag?, opened, same']
  obtain ⟨us, d, -, emitted⟩ := tag.exists_step_taken (s := s) close h.taken
  obtain ⟨rfl, -⟩ := Prod.mk.inj (emitted.symm.trans hs)
  exact ⟨same', us, rfl⟩

/-- The closing tag that a step takes apart is among its tokens. -/
theorem mem_endTokens (us : List Token) : Token.whole .tagOpenSlash (s.excerpt st.cursor 2) ∈
    st.gathered s ++ (st.endTokens s ++ us) := by
  simp [endTokens]

/-- **In the body of a script there is no tag, and then the closing tag of the script.** -/
theorem InScript.step (h : st.InScript t) (hs : st.step s = (ts, some next)) :
    (∀ i ∈ itemsOf ts, i.form.isStill = true) ∧
        (∀ u ∈ ts, u.kind = .text ∨ u.kind.isInner = true) ∧ next.InScript t ∧
        next.structured = st.structured ∨
      sameName t.name st.endName = true ∧ ∃ us, ts = st.gathered s ++ (st.endTokens s ++ us) := by
  rcases h.place with inside | ⟨outside, atEnd | closes⟩
  · -- In the body the lexer looks for constructs and the closing tag, and for no other tag.
    left
    have none : st.raw ≠ none := by simp [inside]
    cases goes_of_step hs with
    | text outside _ => exact absurd outside none
    | literalTag tag _ => exact absurd tag.outside none
    | literalEnd tag _ => exact absurd tag.outside none
    | taken outside _ => exact absurd outside none
    | rawEnd inside' plain =>
      obtain rfl := Option.some.inj (inside.symm.trans inside')
      exact ⟨by simp [itemsOf], by simp,
        ⟨h.innermost, h.taken, h.script, .inr ⟨rfl, closesRaw_rawReach plain⟩⟩, rfl⟩
    | rawConstruct _ inner =>
      exact ⟨isStill_construct inner, List.forall_mem_append.2
          ⟨fun u hu => .inl (kind_gathered hu), fun u hu => .inr (inner.inner trivial u hu)⟩,
        ⟨h.innermost, h.taken, h.script, .inl inside⟩, rfl⟩
  · have last : st.step s = (st.gathered s, none) := by simp [LexerState.step, outside, atEnd]
    cases congrArg Prod.snd (last.symm.trans hs)
  · exact .inr (h.marked outside closes hs)

end LexerState
end ServerMarkup
