/-
# The kinds of the tokens that are read

A start tag is read over attributes and code, the *plain* tokens.  What is read in a tag may hold
others, when a server comment or a directive stands there; but then the first token that is not
plain belongs to one of these and *interrupts* the tag (`Tame`).  The text of an attribute value
never comes before an attribute (`Led`).

`Reads.shape` puts this together for the body of a start tag: tame tokens, led, and then the token
that ends the tag, or none if the source ends first.
-/

import ServerMarkup.Proofs.Lexer.Coverage

namespace ServerMarkup

namespace TokenKind

/-- Attributes and code. -/
def isPlain : TokenKind → Bool
  | .attribute | .attributeValue | .code _ => true
  | _ => false

/-- Server comments and directives. -/
def interrupts : TokenKind → Bool
  | .serverComment | .startDirective => true
  | _ => false

/-- The kinds of the tokens of constructs and attributes. -/
def isInner (k : TokenKind) : Bool :=
  k.isPlain || k.interrupts || k == .endDirective

theorem isPlain_of_isCode {k : TokenKind} (h : k.isCode = true) : k.isPlain = true := by
  unfold isCode at h
  split at h
  · rfl
  · simp at h

theorem not_isPlain_of_interrupts {k : TokenKind} (h : k.interrupts = true) :
    k.isPlain = false := by
  unfold interrupts at h
  split at h
  · rfl
  · rfl
  · simp at h

theorem ne_of_isInner {k k' : TokenKind} (h : k.isInner = true) (h' : k'.isInner = false) :
    k ≠ k' := by
  rintro rfl
  simp [h] at h'

end TokenKind

/-- The kinds of the tokens that end a tag. -/
def TagEnd.kinds : TagEnd → List TokenKind
  | .opened => [.tagClose]
  | .selfClosed => [.tagSlashClose]
  | .cut => []

/-- The parts that may stand in a tag. -/
def Part.InTag : Part → Prop
  | .construct | .attribute _ | .quoted _ _ => True
  | _ => False

/-- The first token that is not plain, if there is one, interrupts. -/
def Tame (ts : List Token) : Prop :=
  ∀ t, ts.find? (! ·.kind.isPlain) = some t → t.kind.interrupts = true

/-- No attribute value comes first, whatever code is before it. -/
def Led (ts : List Token) : Prop :=
  ∀ t, ts.find? (! ·.isCode) = some t → t.kind ≠ .attributeValue

variable {s : Source} {part : Part} {c d : Cursor} {t : Token} {ts us : List Token}

/-! ### Tame and led tokens -/

theorem tame_of_plain (h : ∀ t ∈ ts, t.kind.isPlain = true) : Tame ts := by
  intro t ht
  have other := List.find?_some ht
  simp [h t (List.mem_of_find?_eq_some ht)] at other

theorem tame_of_interrupts (h : t.kind.interrupts = true) : Tame (t :: ts) := by
  intro u hu
  simp only [List.find?_cons, TokenKind.not_isPlain_of_interrupts h, Bool.not_false] at hu
  exact Option.some.inj hu ▸ h

theorem Tame.append (h : Tame ts) (h' : Tame us) : Tame (ts ++ us) := by
  intro t ht
  rw [List.find?_append, Option.or_eq_some_iff] at ht
  rcases ht with ht | ⟨_, ht⟩
  · exact h t ht
  · exact h' t ht

theorem Tame.cons (ht : t.kind.isPlain = true) (h : Tame ts) : Tame (t :: ts) :=
  Tame.append (tame_of_plain (List.forall_mem_singleton.2 ht)) h

theorem led_cons (ht : t.kind ≠ .attributeValue) (h : t.isCode = true → Led ts) :
    Led (t :: ts) := by
  intro u hu
  rw [List.find?_cons] at hu
  split at hu
  · exact Option.some.inj hu ▸ ht
  · next code => exact h (by simpa using code) u hu

/-! ### What is read -/

namespace Reads

/-- Constructs and attributes have tokens of their own kinds. -/
theorem inner (h : Reads s part c ts d) (hp : part.EndsLoose) :
    ∀ t ∈ ts, t.kind.isInner = true := by
  have fragment {q : Char} {alone : Bool} {c : Cursor} :
      ∀ t ∈ s.fragment q alone c, t.kind.isInner = true := by
    unfold Source.fragment
    split
    · simp
    · exact List.forall_mem_singleton.2 rfl
  induction h with
  | comment | code | directiveEnd | bare => exact List.forall_mem_singleton.2 rfl
  | unquoted => exact List.forall_mem_cons.2 ⟨rfl, List.forall_mem_singleton.2 rfl⟩
  | directive _ _ ih => exact List.forall_mem_cons.2 ⟨rfl, ih trivial⟩
  | directiveCut => simp
  | directiveAttribute _ _ ih₁ ih₂ => exact List.forall_mem_append.2 ⟨ih₁ trivial, ih₂ trivial⟩
  | directiveStray _ _ _ _ ih => exact ih trivial
  | quoted _ _ _ _ ih => exact List.forall_mem_cons.2 ⟨rfl, ih trivial⟩
  | quotedConstruct _ _ ih₁ ih₂ =>
    exact List.forall_mem_append.2
      ⟨List.forall_mem_append.2 ⟨fragment, ih₁ trivial⟩, ih₂ trivial⟩
  | quotedEnd => exact fragment
  | bodyCut | bodyOpened | bodySelfClosed | bodyConstruct | bodyAttribute | bodyStray
  | closingEnd | closingBare => exact hp.elim

/-- What stands in a tag is tame. -/
theorem tame (h : Reads s part c ts d) (hp : part.InTag) : Tame ts := by
  have fragment {q : Char} {alone : Bool} {c : Cursor} : Tame (s.fragment q alone c) := by
    unfold Source.fragment
    split
    · exact tame_of_plain (by simp)
    · exact tame_of_plain (List.forall_mem_singleton.2 rfl)
  induction h with
  | comment | directive => exact tame_of_interrupts rfl
  | code | bare => exact tame_of_plain (List.forall_mem_singleton.2 rfl)
  | unquoted =>
    exact tame_of_plain (List.forall_mem_cons.2 ⟨rfl, List.forall_mem_singleton.2 rfl⟩)
  | quoted _ _ _ _ ih => exact (ih trivial).cons rfl
  | quotedConstruct _ _ ih₁ ih₂ => exact (fragment.append (ih₁ trivial)).append (ih₂ trivial)
  | quotedEnd => exact fragment
  | directiveCut | directiveEnd | directiveAttribute | directiveStray | bodyCut | bodyOpened
  | bodySelfClosed | bodyConstruct | bodyAttribute | bodyStray | closingEnd | closingBare =>
    exact hp.elim

/-- A construct is code, or begins with a token that interrupts. -/
theorem head_of_construct (h : Reads s .construct c ts d) :
    ∃ t us, ts = t :: us ∧ (t.isCode = true ∧ us = [] ∨ t.kind.interrupts = true) := by
  cases h with
  | comment => exact ⟨_, _, rfl, .inr rfl⟩
  | code => exact ⟨_, _, rfl, .inl ⟨rfl, rfl⟩⟩
  | directive => exact ⟨_, _, rfl, .inr rfl⟩

/-- An attribute begins with its name. -/
theorem head_of_attribute {place : Place} (h : Reads s (.attribute place) c ts d) :
    ∃ t us, ts = t :: us ∧ t.kind = .attribute := by
  cases h with
  | bare => exact ⟨_, _, rfl, rfl⟩
  | unquoted => exact ⟨_, _, rfl, rfl⟩
  | quoted => exact ⟨_, _, rfl, rfl⟩

/-- The body of a start tag: what stands in it, and the token that ends it. -/
theorem shape {ending : TagEnd} (h : Reads s (.body ending) c ts d) :
    ∃ us last, ts = us ++ last ∧ last.map Token.kind = ending.kinds ∧ Tame us ∧ Led ts ∧
      ∀ t ∈ us, t.kind.isInner = true := by
  generalize hp : Part.body ending = p at h
  have none : Tame [] := tame_of_plain (by simp)
  induction h with
  | bodyCut =>
    obtain rfl := Part.body.inj hp
    exact ⟨[], [], rfl, rfl, none, by simp [Led], by simp⟩
  | bodyOpened | bodySelfClosed =>
    obtain rfl := Part.body.inj hp
    exact ⟨[], _, rfl, rfl, none, led_cons TokenKind.noConfusion fun code => Bool.noConfusion code,
      by simp⟩
  | bodyConstruct first _ _ ih =>
    obtain ⟨us, last, rfl, kinds, tame, led, inner⟩ := ih hp
    refine ⟨_ ++ us, last, (List.append_assoc ..).symm, kinds, (first.tame trivial).append tame, ?_,
      List.forall_mem_append.2 ⟨first.inner trivial, inner⟩⟩
    obtain ⟨t, vs, rfl, ⟨code, rfl⟩ | interrupts⟩ := first.head_of_construct
    · refine led_cons (fun hk => ?_) fun _ => led
      simp [Token.isCode, hk, TokenKind.isCode] at code
    · have plain := TokenKind.not_isPlain_of_interrupts interrupts
      refine led_cons (fun hk => ?_) fun code => ?_
      · simp [hk, TokenKind.isPlain] at plain
      · simp [TokenKind.isPlain_of_isCode code] at plain
  | bodyAttribute _ first _ _ ih =>
    obtain ⟨us, last, rfl, kinds, tame, led, inner⟩ := ih hp
    refine ⟨_ ++ us, last, (List.append_assoc ..).symm, kinds, (first.tame trivial).append tame, ?_,
      List.forall_mem_append.2 ⟨first.inner trivial, inner⟩⟩
    obtain ⟨t, vs, rfl, name⟩ := first.head_of_attribute
    refine led_cons (by simp [name]) ?_
    intro code
    simp [Token.isCode, name, TokenKind.isCode] at code
  | bodyStray _ _ _ _ _ _ ih => exact ih hp
  | _ => simp at hp

/-- The tokens of the body of a tag are none of a tag's beginning. -/
theorem kind_body {ending : TagEnd} (h : Reads s (.body ending) c ts d) :
    ∀ t ∈ ts, t.kind.isInner = true ∨ t.kind = .tagClose ∨ t.kind = .tagSlashClose := by
  obtain ⟨us, last, rfl, kinds, -, -, inner⟩ := h.shape
  refine List.forall_mem_append.2 ⟨fun t ht => .inl (inner t ht), fun t ht => .inr ?_⟩
  have hk : t.kind ∈ ending.kinds := kinds ▸ List.mem_map_of_mem ht
  cases ending <;> simp_all [TagEnd.kinds]

theorem kind_closing (h : Reads s .closing c ts d) : ∀ t ∈ ts, t.kind = .tagClose := by
  cases h with
  | closingEnd => exact List.forall_mem_singleton.2 rfl
  | closingBare => simp

end Reads

/-! ### What a step emits -/

theorem kind_nameTokens {e : Excerpt} (h : t ∈ nameTokens e) :
    t.kind = .elementNamespace ∨ t.kind = .elementName := by
  unfold nameTokens at h
  split at h
  · rcases List.mem_cons.1 h with rfl | h
    · exact .inl rfl
    · obtain rfl := List.mem_singleton.1 h
      exact .inr rfl
  · obtain rfl := List.mem_singleton.1 h
    exact .inr rfl

theorem LexerState.kind_gathered {st : LexerState} (h : t ∈ st.gathered s) : t.kind = .text := by
  unfold gathered at h
  split at h
  · obtain rfl := List.mem_singleton.1 h
    rfl
  · simp at h

end ServerMarkup
