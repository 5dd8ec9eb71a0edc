/-
# Lexer and parser along a run

While the items of a page are built, the parser may have come to the middle of a move of the lexer: it
has built some of its items, and the move may end with a tag.  `Agrees` says what holds then: the
parser mirrors the lexer before that move, and if the next item is a closing tag it is the last of the
move and for the innermost structured tag.  `agrees_of_run` proves it for all numbers of items, by
induction on the moves: a move is passed by `Mirrors.step` or reached into by `Mirrors.within`.
-/

import ServerMarkup.Proofs.Nesting.Mirrors

namespace ServerMarkup

theorem tokens_ne_nil_of_mem_itemsOf {ts : List Token} {i : Item} (h : i ∈ itemsOf ts) :
    i.tokens ≠ [] := by
  fun_induction itemsOf ts with
  | case1 => simp at h
  | case2 t ts form n hr ih =>
    rcases List.mem_cons.1 h with rfl | h
    · simp
    · exact ih h

/-- What the lexer knows of the next item: `es` are the structured tags that are open before it, and
`rest` those after it. -/
structure Fits (es rest : List Entry) (o : Outline) (item : Item) : Prop where
  marked : item.Marked
  closes : ∀ tag, item.form = .endTag tag → ∃ e x, es = e :: rest ∧ tag = .ofExcerpt x ∧
    (o.script ≠ none → sameName e.name x.value = true)

/-- The parser agrees with the lexer when the items `done` have been built and `rest` comes next, if
`es` were the open structured tags before the moves `ms` that emit their tokens. -/
structure Agrees (es : List Entry) (ms : List Move) (done rest : List Item) (o : Outline) :
    Prop where
  mirrored : ∃ st, Mirrors st (entriesFrom es ms (done.flatMap Item.tokens).length) o
  next : ∀ item more, rest = item :: more →
    Fits (entriesFrom es ms (done.flatMap Item.tokens).length)
      (entriesFrom es ms ((done.flatMap Item.tokens).length + item.tokens.length)) o item

section
variable {s : Source} {st next : LexerState} {ts : List Token} {es : List Entry} {m : Move}
  {ms : List Move} {o : Outline} {done more rest : List Item} {item : Item}

/-- After the items of a move, the parser agrees with the lexer after the move. -/
theorem Agrees.past (h : Agrees (m.entries es) ms done rest o)
    (silent : m.tokens = [] → m.entries es = es) :
    Agrees es (m :: ms) (itemsOf m.tokens ++ done) rest o := by
  have size : ((itemsOf m.tokens ++ done).flatMap Item.tokens).length =
      m.tokens.length + (done.flatMap Item.tokens).length := by
    rw [List.flatMap_append, flatMap_tokens_itemsOf, List.length_append]
  constructor
  · rw [size, entriesFrom_add silent]
    exact h.mirrored
  · intro item more hr
    rw [size, Nat.add_assoc, entriesFrom_add silent, entriesFrom_add silent]
    exact h.next item more hr

/-- Before the last item of a move is built, the parser agrees with the lexer before the move. -/
theorem Mirrors.within (h : Mirrors st es o) (hs : st.step s = (ts, some next))
    (turn : Turn st ts next) (items : itemsOf ts = done ++ item :: more) :
    Agrees es (⟨st, ts, next⟩ :: ms) done (item :: rest) o := by
  have size : ts.length = (done.flatMap Item.tokens).length + (item.tokens.length +
      (more.flatMap Item.tokens).length) := by
    rw [← flatMap_tokens_itemsOf ts, items, List.flatMap_append, List.flatMap_cons,
      List.length_append, List.length_append]
  have here : item ∈ itemsOf ts := by simp [items]
  have filled := List.length_pos_iff.2 (tokens_ne_nil_of_mem_itemsOf here)
  have before : entriesFrom es (⟨st, ts, next⟩ :: ms) (done.flatMap Item.tokens).length = es :=
    entriesFrom_of_lt (by dsimp only; omega)
  refine ⟨⟨st, by rwa [before]⟩, ?_⟩
  intro item' more' hi
  obtain ⟨rfl, -⟩ := List.cons.inj hi
  rw [before]
  refine ⟨turn.marked item here, ?_⟩
  intro tag hf
  obtain ⟨rfl, ⟨x, rfl, value⟩, t, closes⟩ := turn.of_endTag items hf
  obtain ⟨e, split, same⟩ := h.closing hs (fun all => by
    simpa [hf, ItemForm.isStill] using all item here) closes
  have after : entriesFrom es (⟨st, ts, next⟩ :: ms)
      ((done.flatMap Item.tokens).length + item.tokens.length) =
        Move.entries es ⟨st, ts, next⟩ := by
    have whole : (done.flatMap Item.tokens).length + item.tokens.length = ts.length := by
      rw [List.flatMap_nil, List.length_nil] at size
      omega
    rw [whole]
    exact entriesFrom_length fun none => by
      simp [show ts = [] from none, itemsOf] at here
  exact ⟨e, x, by rw [after]; exact split, rfl, by rw [value]; exact same⟩

/-- The text at the end of the source changes nothing. -/
theorem Mirrors.last (h : Mirrors st es o) (hs : st.step s = (ts, none))
    (items : itemsOf ts = done ++ rest) : Agrees es [⟨st, ts, st⟩] done rest o := by
  obtain ⟨-, -, rfl⟩ := LexerState.eq_gathered_of_step hs
  have turn : Turn st (st.gathered s) st :=
    .still LexerState.isStill_gathered LexerState.unmarked_gathered rfl
  have same := entriesFrom_singleton (@Named.same es ⟨st, st.gathered s, st⟩ h.named rfl).1
  refine ⟨⟨st, by rwa [same]⟩, ?_⟩
  intro item more hr
  have here : item ∈ itemsOf (st.gathered s) := by simp [items, hr]
  refine ⟨turn.marked item here, ?_⟩
  intro tag hf
  have still := LexerState.isStill_gathered item here
  simp [hf, ItemForm.isStill] at still

end

/-! ### The items of a run -/

section
variable {p : Project} {parsing : List String} {nested : Nested} {s : Source} {st : LexerState}
  {es : List Entry} {b b' : Builder} {done rest : List Item} {session session' : Session}

/-- Some items are built and then others. -/
theorem run_append {done' : List Item}
    (run : ((done ++ done').foldlM (buildItem p parsing nested) b).run.run session =
      (.ok b', session')) :
    ∃ b₁ s₁, (done.foldlM (buildItem p parsing nested) b).run.run session = (.ok b₁, s₁) ∧
      (done'.foldlM (buildItem p parsing nested) b₁).run.run s₁ = (.ok b', session') := by
  rw [List.foldlM_append, run_bind] at run
  rcases hd : (done.foldlM (buildItem p parsing nested) b).run.run session with ⟨_ | b₁, s₁⟩
  · rw [hd] at run
    cases run
  · rw [hd] at run
    exact ⟨b₁, s₁, rfl, run⟩

/-- **The parser agrees with the lexer after each item of a run.** -/
theorem agrees_of_run (clean : ∀ m ∈ st.moves s, CleanTags m.tokens)
    (h : Mirrors st es b.outline) (items : itemsOf (st.tokens s) = done ++ rest)
    (run : (done.foldlM (buildItem p parsing nested) b).run.run session = (.ok b', session')) :
    Agrees es (st.moves s) done rest b'.outline := by
  fun_induction LexerState.moves s st generalizing es b done session with
  | case1 st ts hs =>
    have tokens : st.tokens s = ts := by
      rw [LexerState.tokens_of_step hs]
      exact List.append_nil ts
    rw [tokens] at items
    have still : ∀ i ∈ done, i.form.isStill = true := fun i hi => by
      obtain ⟨-, -, rfl⟩ := LexerState.eq_gathered_of_step hs
      exact LexerState.isStill_gathered i (items ▸ List.mem_append_left _ hi)
    rw [gives_foldlM_still p parsing nested still session b' session' run]
    exact h.last hs items
  | case2 st ts next hs ih =>
    obtain ⟨first, later⟩ := List.forall_mem_cons.1 clean
    have goes := LexerState.goes_of_step hs
    have turn := goes.turn first
    have tokens : st.tokens s = ts ++ next.tokens s := LexerState.tokens_of_step hs
    rw [tokens, goes.itemsOf_append first] at items
    have past {done' : List Item} (hd : done = itemsOf ts ++ done')
        (hr : itemsOf (next.tokens s) = done' ++ rest) :
        Agrees es (⟨st, ts, next⟩ :: next.moves s) done rest b'.outline := by
      rw [hd] at run ⊢
      obtain ⟨b₁, s₁, run₁, run₂⟩ := run_append run
      refine (ih later (h.step p parsing nested hs turn session b₁ s₁ run₁) hr run₂).past ?_
      rintro rfl
      exact (@Named.same es ⟨st, [], next⟩ h.named turn.silent).1
    -- The items that have been built go past this move, or end among those of the move.
    rcases List.append_eq_append_iff.1 items with ⟨done', hd, hr⟩ | ⟨left, hd, hr⟩
    · exact past hd hr
    · cases left with
      | nil => exact past (by rw [hd, List.append_nil, List.append_nil]) (by simpa using hr.symm)
      | cons item more =>
        have still := turn.still_before hd
        have same := gives_foldlM_still p parsing nested still session b' session' run
        rw [hr, same]
        exact h.within hs turn hd

end

/-! ### The names of the entries -/

theorem Turn.named {st next : LexerState} {ts : List Token} {es : List Entry}
    (turn : Turn st ts next) (h : Named es st) : Named (Move.entries es ⟨st, ts, next⟩) next := by
  have same (hs : next.structured = st.structured) : Named (Move.entries es ⟨st, ts, next⟩) next := by
    obtain ⟨entries, named⟩ := @Named.same es ⟨st, ts, next⟩ h hs
    rwa [entries]
  cases turn with
  | still _ _ hs => exact same hs
  | startTag _ _ _ found _ _ opens =>
    unfold LexerState.Enters at opens
    split at opens
    · obtain ⟨role, taken, push, -⟩ := opens
      obtain ⟨entries, named⟩ := @Named.push es ⟨st, ts, next⟩ _ _ _ h taken push found
      rwa [entries]
    · exact same (congrArg (List.filter _) opens)
  | endTag _ _ _ _ _ closes =>
    obtain ⟨t, closes⟩ := closes
    obtain ⟨e, -, -, named⟩ := @Named.pop es ⟨st, ts, next⟩ t h closes
    exact named

/-- After some moves of a run, the entries have the names of the structured tags that are open. -/
theorem named_of_isPrefix {s : Source} {st : LexerState} {es : List Entry} {ms : List Move}
    (clean : ∀ m ∈ st.moves s, CleanTags m.tokens) (h : Named es st) (hm : ms <+: st.moves s) :
    Named (ms.foldl Move.entries es) ((ms.getLast?.map Move.after).getD st) := by
  fun_induction LexerState.moves s st generalizing es ms with
  | case1 st ts hs =>
    cases ms with
    | nil => exact h
    | cons m ms =>
      obtain ⟨rfl, none⟩ := List.cons_prefix_cons.1 hm
      obtain rfl := List.prefix_nil.1 none
      obtain ⟨entries, -⟩ := @Named.same es ⟨st, ts, st⟩ h rfl
      simpa [entries] using h
  | case2 st ts next hs ih =>
    cases ms with
    | nil => exact h
    | cons m ms =>
      obtain ⟨rfl, others⟩ := List.cons_prefix_cons.1 hm
      obtain ⟨first, later⟩ := List.forall_mem_cons.1 clean
      have turn := (LexerState.goes_of_step hs).turn first
      have rest := ih later (turn.named h) others
      rw [List.foldl_cons, List.getLast?_cons]
      cases hl : ms.getLast? <;> simpa [hl] using rest

end ServerMarkup
