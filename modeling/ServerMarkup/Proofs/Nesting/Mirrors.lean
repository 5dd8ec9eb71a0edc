/-
# The parser follows the lexer

`Mirrors` says that the open tags of the parser are the structured tags of the lexer: one frame for
each, in the same order, opened by the same start tag; only an open server script is no frame.  A step
of the lexer preserves it once the parser has built the items of the step (`Mirrors.step`), whichever
turn the step takes.
-/

import ServerMarkup.Proofs.Nesting.Scripts

namespace ServerMarkup

/-- The start tag that has opened a structured tag, as the parser has read it. -/
def Entry.Heads (e : Entry) (h : Heading) : Prop :=
  h.start = e.mark.span.start ∧ ∃ x : Excerpt, h.tag = .ofExcerpt x ∧ x.value = e.name

/-- One start tag for each structured tag, in the same order. -/
def Headed : List Heading → List Entry → Prop
  | [], [] => True
  | h :: hs, e :: es => e.Heads h ∧ Headed hs es
  | _, _ => False

/-- The open tags of the parser are the structured tags of the lexer; that of an open server script,
the innermost one, has no frame. -/
structure Mirrors (st : LexerState) (es : List Entry) (o : Outline) : Prop where
  named : Named es st
  frames : o.script = none → Headed o.frames es
  script : ∀ start, o.script = some start → (∃ t, st.InScript t) ∧
    ∃ e rest, es = e :: rest ∧ start = e.mark.span.start ∧ Headed o.frames rest

section
variable (p : Project) (parsing : List String) (nested : Nested) {b : Builder} {items : List Item}

theorem gives_buildItem_still {item : Item} (still : item.form.isStill = true) :
    Gives (buildItem p parsing nested b item) fun b' => b'.outline = b.outline := by
  cases h : b.script with
  | none => exact gives_buildItem_of_still p parsing nested h still
  | some script =>
    refine (gives_buildItem_of_script p parsing nested h).mono ?_
    intro b' hb
    rw [hb, ItemForm.isEndTag_of_isStill still]
    rfl

/-- Items that are no tags leave the open tags as they are. -/
theorem gives_foldlM_still (still : ∀ i ∈ items, i.form.isStill = true) :
    Gives (items.foldlM (buildItem p parsing nested) b) fun b' => b'.outline = b.outline := by
  induction items generalizing b with
  | nil => exact .pure rfl
  | cons i is ih =>
    obtain ⟨first, rest⟩ := List.forall_mem_cons.1 still
    rw [List.foldlM_cons]
    refine (gives_buildItem_still p parsing nested first).bind ?_
    intro b₁ h₁
    exact (ih rest).mono fun b₂ h₂ => h₂.trans h₁

/-- Items of which only the last one may be a tag. -/
theorem gives_foldlM_last {item : Item} {Q : Builder → Prop}
    (still : ∀ i ∈ items, i.form.isStill = true)
    (last : ∀ b₁, b₁.outline = b.outline → Gives (buildItem p parsing nested b₁ item) Q) :
    Gives ((items ++ [item]).foldlM (buildItem p parsing nested) b) Q := by
  rw [List.foldlM_append]
  refine (gives_foldlM_still p parsing nested still).bind ?_
  intro b₁ h₁
  rw [List.foldlM_cons]
  exact (last b₁ h₁).bind fun b₂ h₂ => .pure h₂

end

namespace Mirrors

variable {s : Source} {st next : LexerState} {ts : List Token} {es : List Entry} {o : Outline}

/-- A server script is open only where the lexer reads its body or is about to close it. -/
theorem script_none (h : Mirrors st es o) (hs : st.step s = (ts, some next))
    (tag : ¬ ∀ i ∈ itemsOf ts, i.form.isStill = true)
    (unmarked : ∀ t ∈ ts, t.kind ≠ .tagOpenSlash) : o.script = none := by
  cases ho : o.script with
  | none => rfl
  | some start =>
    obtain ⟨⟨t, inside⟩, -⟩ := h.script start ho
    rcases inside.step hs with ⟨still, -⟩ | ⟨-, us, rfl⟩
    · exact absurd still tag
    · exact absurd rfl (unmarked _ (LexerState.mem_endTokens us))

theorem still (h : Mirrors st es o) (hs : st.step s = (ts, some next))
    (unmarked : ∀ t ∈ ts, t.kind ≠ .tagOpenSlash) (same : next.structured = st.structured) :
    Mirrors next (Move.entries es ⟨st, ts, next⟩) o := by
  obtain ⟨entries, named⟩ := @Named.same es ⟨st, ts, next⟩ h.named same
  rw [entries]
  refine ⟨named, h.frames, ?_⟩
  intro start ho
  obtain ⟨⟨t, inside⟩, rest⟩ := h.script start ho
  rcases inside.step hs with ⟨-, -, inside', -⟩ | ⟨-, us, rfl⟩
  · exact ⟨⟨t, inside'⟩, rest⟩
  · exact absurd rfl (unmarked _ (LexerState.mem_endTokens us))

/-- A start tag opens a frame or a script for the new structured tag, or nothing. -/
theorem startTag {b b' : Builder} {t : StartTag} {mark : Token} (h : Mirrors st es b.outline)
    (outside : b.outline.script = none) (opened : b.Opens t b')
    (found : ts.find? (·.kind == .tagOpen) = some mark) (start : t.span.start = mark.span.start)
    (name : ∃ e : Excerpt, t.tag = .ofExcerpt e ∧ e.value = st.startName)
    (opens : st.Enters next (Builder.hasContent t)) :
    Mirrors next (Move.entries es ⟨st, ts, next⟩) b'.outline := by
  have headed := h.frames outside
  cases hc : Builder.hasContent t with
  | true =>
    rw [hc] at opens
    obtain ⟨role, taken, push, raw⟩ := opens
    obtain ⟨entries, named⟩ := @Named.push es ⟨st, ts, next⟩ _ _ _ h.named taken push found
    rw [entries]
    rcases opened with frame | ⟨script, inside⟩
    · rw [frame, if_pos hc]
      refine ⟨named, fun _ => ⟨⟨start, name⟩, headed⟩, ?_⟩
      intro place hs
      simp [Outline.push, outside] at hs
    · rw [inside]
      refine ⟨named, by simp, ?_⟩
      intro place hs
      obtain rfl := Option.some.inj hs
      exact ⟨⟨_, LexerState.inScript_of_opensScript script name taken push raw⟩, _, _, rfl, start,
        headed⟩
  | false =>
    rw [hc] at opens
    have same : next.structured = st.structured := congrArg (List.filter _) opens
    obtain ⟨entries, named⟩ := @Named.same es ⟨st, ts, next⟩ h.named same
    rw [entries]
    rcases opened with frame | ⟨script, -⟩
    · rw [frame, hc]
      refine ⟨named, h.frames, ?_⟩
      intro place hs
      simp [outside] at hs
    · simp [script.hasContent] at hc

/-- A closing tag is for the innermost structured tag; in a script it has the name of that tag. -/
theorem closing {t : OpenTag} (h : Mirrors st es o) (hs : st.step s = (ts, some next))
    (tag : ¬ ∀ i ∈ itemsOf ts, i.form.isStill = true)
    (closes : st.structured = t :: next.structured) :
    ∃ e, es = e :: Move.entries es ⟨st, ts, next⟩ ∧
      (o.script ≠ none → sameName e.name st.endName = true) := by
  obtain ⟨e, split, name, -⟩ := @Named.pop es ⟨st, ts, next⟩ t h.named closes
  refine ⟨e, split, ?_⟩
  intro open'
  obtain ⟨start, ho⟩ := Option.ne_none_iff_exists'.1 open'
  obtain ⟨⟨u, inside⟩, -⟩ := h.script start ho
  rcases inside.step hs with ⟨still, -⟩ | ⟨same, -⟩
  · exact absurd still tag
  · obtain ⟨below, opened⟩ := List.head?_eq_some_iff.1 inside.innermost
    have first : st.structured = u :: below.filter OpenTag.isStructured := by
      rw [LexerState.structured, opened]
      exact List.filter_cons_of_pos (by simpa [OpenTag.isStructured] using inside.taken)
    obtain ⟨rfl, -⟩ := List.cons.inj (first.symm.trans closes)
    rw [name]
    exact same

/-- A closing tag takes the innermost frame away, or closes the script. -/
theorem endTag {t : OpenTag} (h : Mirrors st es o) (closes : st.structured = t :: next.structured) :
    Mirrors next (Move.entries es ⟨st, ts, next⟩)
      (if o.script = none then o.pop else { o with script := none }) := by
  obtain ⟨e, split, -, named⟩ := @Named.pop es ⟨st, ts, next⟩ t h.named closes
  cases ho : o.script with
  | none =>
    have headed := h.frames ho
    rw [split] at headed
    cases hf : o.frames with
    | nil => rw [hf] at headed; exact headed.elim
    | cons top below =>
      rw [hf] at headed
      rw [if_pos rfl]
      refine ⟨named, fun _ => ?_, fun start hs => by simp [Outline.pop, ho] at hs⟩
      rw [Outline.pop, hf]
      exact headed.2
  | some start =>
    obtain ⟨-, e', rest, split', -, headed⟩ := h.script start ho
    obtain ⟨-, rfl⟩ := List.cons.inj (split.symm.trans split')
    exact ⟨named, fun _ => headed, fun start hs => by simp at hs⟩

/-- **A step of the lexer, and the items of its tokens, preserve that the parser mirrors it.** -/
theorem step (p : Project) (parsing : List String) (nested : Nested) {b : Builder}
    (h : Mirrors st es b.outline) (hs : st.step s = (ts, some next)) (turn : Turn st ts next) :
    Gives ((itemsOf ts).foldlM (buildItem p parsing nested) b) fun b' =>
      Mirrors next (Move.entries es ⟨st, ts, next⟩) b'.outline := by
  cases turn with
  | still items unmarked same =>
    exact (gives_foldlM_still p parsing nested items).mono fun b' hb =>
      hb ▸ h.still hs unmarked same
  | startTag items still unmarked found start name opens =>
    -- No script is open, since there is no start tag in its body.
    have outside : b.outline.script = none := by
      refine h.script_none hs (fun all => ?_) unmarked
      have := all _ (items ▸ List.mem_append_right _ List.mem_cons_self)
      simp [ItemForm.isStill] at this
    rw [items]
    refine gives_foldlM_last p parsing nested still ?_
    intro b₁ h₁
    have outside₁ : b₁.outline.script = none := by rw [h₁, outside]
    refine (gives_buildItem_of_startTag p parsing nested (Option.map_eq_none_iff.1 outside₁)
      rfl).mono fun b' opened => ?_
    rw [← h₁] at h
    exact h.startTag outside₁ opened found start name opens
  | endTag items still marked unmarked name closes =>
    obtain ⟨t, closes⟩ := closes
    rw [items]
    refine gives_foldlM_last p parsing nested still ?_
    intro b₁ h₁
    rw [← h₁] at h
    have closed : Mirrors next (Move.entries es ⟨st, ts, next⟩) _ := h.endTag closes
    -- The tag closes the innermost frame, or the script if one is open.
    cases hb : b₁.script with
    | none =>
      refine (gives_buildItem_of_endTag p parsing nested hb rfl).mono ?_
      intro b' hb'
      rwa [hb', ← if_pos (t := b₁.outline.pop) (Option.map_eq_none_iff.2 hb)]
    | some script =>
      refine (gives_buildItem_of_script p parsing nested hb).mono ?_
      intro b' hb'
      rw [if_neg (by simp [Builder.outline, hb])] at closed
      rw [hb']
      exact closed

end Mirrors
end ServerMarkup
