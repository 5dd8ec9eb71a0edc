/-
# Literal tags that are open

A literal tag is kept open only where a structured tag of its name is open, for the sake of that
one: without it the closing tag of the literal tag would close the structured one.  Closing tags
take open tags away from the inside, so a literal tag never outlives the structured tag that it is
kept for (`Backed`).

Hence a name that belongs to no open structured tag belongs to no open tag at all, and a closing tag
of that name closes nothing, unless it is capitalised (`Backed.closeTag?_eq_none`).
-/

import ServerMarkup.Proofs.Nesting.Entries

namespace ServerMarkup

/-- Whether a structured tag of the name is open. -/
def structuredOpen (opened : List OpenTag) (name : String) : Bool :=
  opened.any fun t => t.isStructured && sameName t.name name

/-- For each literal tag that is open there is a structured one of its name further out. -/
def Backed : List OpenTag → Prop
  | [] => True
  | t :: below => (t.role = .literal → structuredOpen below t.name = true) ∧ Backed below

variable {opened rest : List OpenTag} {name : String} {role : TagRole}

theorem structuredOpen_eq_of_sameName {other : String} (same : sameName name other = true) :
    structuredOpen opened name = structuredOpen opened other := by
  unfold structuredOpen
  refine congrArg opened.any (funext fun t => ?_)
  rw [sameName, sameName, sameName_iff.1 same]

theorem Backed.of_suffix (h : Backed opened) (suffix : rest <:+ opened) : Backed rest := by
  induction opened with
  | nil => rwa [List.suffix_nil.1 suffix]
  | cons t below ih =>
    rcases List.suffix_cons_iff.1 suffix with rfl | suffix
    · exact h
    · exact ih h.2 suffix

/-- The open tags behind a literal start tag that has content: it is kept open where a structured
tag of its name is open. -/
def keepOpen (opened : List OpenTag) (name : String) : List OpenTag :=
  if structuredOpen opened name then ⟨name, .literal⟩ :: opened else opened

theorem keepOpen_of_nested (nested : structuredOpen opened name = true) :
    keepOpen opened name = ⟨name, .literal⟩ :: opened :=
  if_pos nested

theorem keepOpen_of_alone (alone : structuredOpen opened name = false) :
    keepOpen opened name = opened :=
  if_neg (by simp [alone])

/-- Where a structured tag of its name is open behind a literal tag, the literal one is kept. -/
theorem exists_keepOpen_eq (nested : structuredOpen (keepOpen opened name) name = true) :
    ∃ below, keepOpen opened name = ⟨name, .literal⟩ :: below := by
  by_cases within : structuredOpen opened name = true
  · exact ⟨opened, keepOpen_of_nested within⟩
  · rw [keepOpen_of_alone (by simpa using within)] at nested
    exact absurd nested within

theorem Backed.kept (h : Backed opened) : Backed (keepOpen opened name) := by
  unfold keepOpen
  split
  · next nested => exact ⟨fun _ => nested, h⟩
  · exact h

/-- A closing tag takes open tags away from the inside. -/
theorem suffix_of_closeTag? (h : closeTag? opened name = some (role, rest)) : rest <:+ opened := by
  unfold closeTag? at h
  dsimp only at h
  split at h
  · obtain ⟨t, -, ht⟩ := Option.map_eq_some_iff.1 h
    rw [← (Prod.mk.inj ht).2]
    exact List.tail_suffix opened
  split at h
  · split at h
    · cases h
    · next t ts ht =>
      obtain ⟨-, rfl⟩ := Prod.mk.inj (Option.some.inj h)
      exact (List.suffix_cons t ts).trans (ht ▸ List.dropWhile_suffix _)
  · cases h

/-- Where no structured tag of a name is open, no tag of that name is the innermost. -/
theorem Backed.head? (h : Backed opened) (alone : structuredOpen opened name = false) :
    opened.head?.any (sameName ·.name name) = false := by
  cases opened with
  | nil => rfl
  | cons t below =>
    refine Bool.eq_false_iff.2 fun same => ?_
    change sameName t.name name = true at same
    have apart : ∀ u ∈ t :: below, ¬ (u.isStructured && sameName u.name name) = true :=
      List.any_eq_false.1 alone
    have literal : t.role = .literal := by
      have unstructured := apart t List.mem_cons_self
      rw [same, Bool.and_true] at unstructured
      simpa [OpenTag.isStructured] using unstructured
    have backed := h.1 literal
    rw [structuredOpen_eq_of_sameName same] at backed
    obtain ⟨u, mem, hu⟩ := List.any_eq_true.1 backed
    exact apart u (List.mem_cons_of_mem t mem) hu

/-- A closing tag for which no structured tag is open is no tag, unless it is capitalised. -/
theorem Backed.closeTag?_eq_none (h : Backed opened) (alone : structuredOpen opened name = false)
    (plain : looksLikeServerTag name = false) : closeTag? opened name = none := by
  have server : (opened.any fun t => t.role == .server && sameName t.name name) = false := by
    refine List.any_eq_false.2 fun t mem found => List.any_eq_false.1 alone t mem ?_
    simp only [Bool.and_eq_true, beq_iff_eq] at found
    simp [OpenTag.isStructured, found.1, found.2]
  simp [closeTag?, h.head? alone, plain, server]

/-- A capitalised closing tag for which no tag is open closes the innermost structured tag. -/
theorem Backed.exists_closeTag? (h : Backed opened) (alone : structuredOpen opened name = false)
    (capital : looksLikeServerTag name = true)
    (inner : opened.filter OpenTag.isStructured ≠ []) :
    ∃ role rest, closeTag? opened name = some (role, rest) ∧ role ≠ .literal := by
  have below : opened.dropWhile (! ·.isStructured) ≠ [] := by
    intro none
    rw [← structured_dropWhile, none] at inner
    exact inner rfl
  obtain ⟨t, rest, split⟩ := List.exists_cons_of_ne_nil below
  have first := List.head?_dropWhile_not (! ·.isStructured) opened
  rw [split] at first
  refine ⟨t.role, rest, ?_, by simpa [OpenTag.isStructured] using first⟩
  simp [closeTag?, h.head? alone, capital, split]

namespace LexerState

variable {s : Source} {st next : LexerState} {ts : List Token} {ms ns : List Move} {m : Move}

/-- A literal start tag is not kept open if it has no content or no structured tag has its name. -/
theorem afterLiteralTag_of_unkept {name : String} {shape : TagShape} {void : Bool} {n : Nat}
    (h : shape.selfClosing = true ∨ void = true ∨ structuredOpen st.opened name = false) :
    st.afterLiteralTag name shape void n = st.addText n := by
  have unkept : (!shape.selfClosing && !void && structuredOpen st.opened name) = false := by
    rcases h with h | h | h <;> simp [h]
  rw [structuredOpen] at unkept
  simp only [afterLiteralTag, unkept, Bool.false_eq_true, if_false]
  rfl

theorem afterLiteralTag_of_content {name : String} {shape : TagShape} {n : Nat}
    (content : shape.selfClosing = false) : st.afterLiteralTag name shape false n =
      { st.addText n with opened := keepOpen st.opened name } := by
  rw [afterLiteralTag, content]
  rfl

theorem Takes.backed (h : Takes s st ts next) (backed : Backed st.opened) : Backed next.opened := by
  cases h with
  | whole | construct | loneTag => exact backed
  | openingTag _ role _ _ => exact ⟨fun literal => absurd literal role, backed⟩
  | closingTag _ closes _ _ => exact backed.of_suffix (suffix_of_closeTag? closes)

/-- A step keeps a structured tag for each literal one. -/
theorem Goes.backed (h : Goes s st ts next) (backed : Backed st.opened) : Backed next.opened := by
  cases h with
  | text | rawEnd | rawConstruct => exact backed
  | literalTag _ _ =>
    unfold afterLiteralTag
    dsimp only
    split
    · next kept =>
      rw [Bool.and_eq_true] at kept
      exact ⟨fun _ => kept.2, backed⟩
    · exact backed
  | literalEnd _ closes => exact backed.of_suffix (suffix_of_closeTag? closes)
  | taken _ takes => exact takes.backed backed

theorem backed_of_moves (backed : Backed st.opened) (run : st.moves s = ms ++ m :: ns) :
    Backed m.before.opened := by
  induction ms generalizing st with
  | nil =>
    rw [moves, List.nil_append] at run
    split at run <;> exact (List.cons.inj run).1 ▸ backed
  | cons n ms ih =>
    rw [moves, List.cons_append] at run
    split at run
    · have := (List.cons.inj run).2
      simp at this
    · next ts next hs => exact ih ((goes_of_step hs).backed backed) (List.cons.inj run).2

end LexerState
end ServerMarkup
