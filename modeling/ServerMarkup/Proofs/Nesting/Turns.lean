/-
# What a step of the lexer is to the parser

The parser reads items from the tokens of a page, and no item has tokens of two steps
(`LexerState.Goes.itemsOf_append`).  So the items of a page are those of the steps, one step after the
other, and each step takes one of three turns (`Turn`):

| turn | items of the step | structured tags |
| --- | --- | --- |
| `still` | no tags | as before |
| `startTag` | a start tag comes last | one more, if the tag can have content |
| `endTag` | a closing tag comes last | the innermost is gone |

This holds where no server comment or directive stands in a start tag (`CleanTags`); the parser would
take the rest of such a tag for other items.
-/

import ServerMarkup.Proofs.Nesting.Entries
import ServerMarkup.Proofs.Parse.Frames

namespace ServerMarkup

namespace TokenKind

/-- Whether tokens of the kind stand in tags only, behind the mark that begins one. -/
def isTagPart : TokenKind → Bool
  | .elementNamespace | .elementName | .tagClose | .tagSlashClose => true
  | _ => false

theorem not_isTagPart_of_isInner {k : TokenKind} (h : k.isInner = true) : k.isTagPart = false := by
  cases k <;> simp_all [isInner, isPlain, interrupts, isTagPart]

end TokenKind

/-- Of the tokens of a step, that no server comment or directive stands in a start tag. -/
def CleanTags (ts : List Token) : Prop :=
  (∃ t ∈ ts, t.kind = .tagOpen) → ∀ t ∈ ts, t.kind.interrupts = false

instance (ts : List Token) : Decidable (CleanTags ts) :=
  inferInstanceAs (Decidable (_ → _))

/-- The closing tags are the items that hold the beginning of one. -/
def Item.Marked (i : Item) : Prop :=
  i.tokens.countP (·.kind == .tagOpenSlash) = if i.form.isEndTag then 1 else 0

/-- What the start tag at the cursor does to the open tags: it is the innermost one if it is `filled`,
that is, if it can have content. -/
def LexerState.Enters (st next : LexerState) : (filled : Bool) → Prop
  | true => ∃ role, role ≠ .literal ∧ next.opened = ⟨st.startName, role⟩ :: st.opened ∧
    next.raw = if isRawTextElement st.startName then some st.startName else none
  | false => next.opened = st.opened

/-- What a step from `st` to `next` with the tokens `ts` is to the parser. -/
inductive Turn (st : LexerState) (ts : List Token) (next : LexerState) : Prop where
  | still (items : ∀ i ∈ itemsOf ts, i.form.isStill = true)
      (unmarked : ∀ t ∈ ts, t.kind ≠ .tagOpenSlash) (same : next.structured = st.structured)
  | startTag {before t mark us} (items : itemsOf ts = before ++ [⟨.startTag t, mark :: us⟩])
      (still : ∀ i ∈ before, i.form.isStill = true)
      (unmarked : ∀ t ∈ ts, t.kind ≠ .tagOpenSlash)
      (found : ts.find? (·.kind == .tagOpen) = some mark) (start : t.span.start = mark.span.start)
      (name : ∃ e : Excerpt, t.tag = .ofExcerpt e ∧ e.value = st.startName)
      (opens : st.Enters next (Builder.hasContent t))
  | endTag {before tag mark us} (items : itemsOf ts = before ++ [⟨.endTag tag, mark :: us⟩])
      (still : ∀ i ∈ before, i.form.isStill = true) (marked : mark.kind = .tagOpenSlash)
      (unmarked : ∀ t ∈ before.flatMap Item.tokens ++ us, t.kind ≠ .tagOpenSlash)
      (name : ∃ e : Excerpt, tag = .ofExcerpt e ∧ e.value = st.endName)
      (closes : ∃ t, st.structured = t :: next.structured)

namespace LexerState

variable {s : Source} {st next : LexerState} {t : Token} {ts us : List Token}

/-! ### Gathered text -/

theorem itemsOf_gathered_append (us : List Token) :
    itemsOf (st.gathered s ++ us) = itemsOf (st.gathered s) ++ itemsOf us := by
  unfold gathered
  split
  · rw [List.singleton_append, itemsOf_cons_of_text (.inl rfl), itemsOf_cons_of_text (.inl rfl)]
    simp [itemsOf]
  · simp [itemsOf]

theorem isStill_gathered : ∀ i ∈ itemsOf (st.gathered s), i.form.isStill = true := by
  unfold gathered
  split
  · rw [itemsOf_cons_of_text (.inl rfl), itemsOf]
    exact List.forall_mem_singleton.2 rfl
  · simp [itemsOf]

theorem find?_gathered_append (hk : t.kind = .tagOpen) :
    (st.gathered s ++ t :: us).find? (·.kind == .tagOpen) = some t := by
  have none : (st.gathered s).find? (·.kind == .tagOpen) = none :=
    List.find?_eq_none.2 fun u hu => by simp [kind_gathered hu]
  simp [List.find?_append, none, hk]

/-! ### What comes after a step -/

/-- A step begins with text or with the beginning of what is taken apart. -/
theorem Goes.head? (h : Goes s st ts next) (ht : ts.head? = some t) :
    t.kind.isTagPart = false := by
  have gathered {st : LexerState} {us : List Token}
      (hu : us.head? = some t → t.kind.isTagPart = false)
      (ht : (st.gathered s ++ us).head? = some t) : t.kind.isTagPart = false := by
    rw [List.head?_append, Option.or_eq_some_iff] at ht
    rcases ht with ht | ⟨-, ht⟩
    · rw [kind_gathered (List.mem_of_head? ht)]
      rfl
    · exact hu ht
  have construct {c d : Cursor} {us : List Token} (inner : Reads s .construct c us d)
      (hu : us.head? = some t) : t.kind.isTagPart = false :=
    TokenKind.not_isTagPart_of_isInner (inner.inner trivial t (List.mem_of_head? hu))
  cases h with
  | text | literalTag | literalEnd | rawEnd => simp at ht
  | rawConstruct _ inner => exact gathered (construct inner) ht
  | taken _ takes =>
    refine gathered (fun hu => ?_) ht
    cases takes with
    | whole isWhole _ _ =>
      obtain rfl := Option.some.inj hu
      rcases isWhole with rfl | rfl <;> rfl
    | construct inner => exact construct inner hu
    | openingTag | loneTag | closingTag =>
      obtain rfl := Option.some.inj hu
      rfl

/-- What stands in a tag never comes first. -/
theorem head?_tokens (ht : (st.tokens s).head? = some t) : t.kind.isTagPart = false := by
  fun_induction tokens s st with
  | case1 st ts h =>
    obtain ⟨-, -, rfl⟩ := eq_gathered_of_step h
    rw [kind_gathered (List.mem_of_head? ht)]
    rfl
  | case2 st ts next h ih =>
    rw [List.head?_append, Option.or_eq_some_iff] at ht
    rcases ht with ht | ⟨-, ht⟩
    · exact (goes_of_step h).head? ht
    · exact ih ht

/-! ### The items of a step -/

/-- The item of the start tag at the cursor. -/
def startItem (s : Source) (st : LexerState) (body : List Token) (ending : TagEnd) : Item :=
  ⟨.startTag (startTagOf (.whole .tagOpen (s.excerpt st.cursor 1))
    (s.excerpt (st.cursor.skip 1) st.startName.length) body ending), st.startTokens s ++ body⟩

/-- The item of the closing tag at the cursor. -/
def endItem (s : Source) (st : LexerState) (ts : List Token) : Item :=
  ⟨.endTag (.ofExcerpt (s.excerpt (st.cursor.skip 2) st.endName.length)), st.endTokens s ++ ts⟩

theorem cleanTags_of_append (h : CleanTags (ts ++ us)) : CleanTags us := by
  rintro ⟨t, ht, hk⟩ u hu
  exact h ⟨t, List.mem_append_right _ ht, hk⟩ u (List.mem_append_right _ hu)

theorem itemsOf_startTokens {ending : TagEnd} {c d : Cursor} (inner : Reads s (.body ending) c ts d)
    (clean : CleanTags (st.startTokens s ++ ts)) (cut : ending = .cut → us = []) :
    itemsOf (st.startTokens s ++ ts ++ us) = st.startItem s ts ending :: itemsOf us := by
  have pure : ∀ t ∈ ts, t.kind.interrupts = false :=
    fun t ht => clean ⟨_, List.mem_cons_self, rfl⟩ t (List.mem_append_right _ ht)
  exact itemsOf_startTag inner pure rfl _ cut

theorem itemsOf_startTokens_alone {ending : TagEnd} {c d : Cursor}
    (inner : Reads s (.body ending) c ts d) (clean : CleanTags (st.startTokens s ++ ts)) :
    itemsOf (st.startTokens s ++ ts) = [st.startItem s ts ending] := by
  rw [← List.append_nil (_ ++ _), itemsOf_startTokens inner clean fun _ => rfl, itemsOf]

theorem itemsOf_endTokens {c d : Cursor} (inner : Reads s .closing c ts d)
    (next : ∀ u, us.head? = some u → u.kind ≠ .tagClose) :
    itemsOf (st.endTokens s ++ ts ++ us) = st.endItem s ts :: itemsOf us :=
  itemsOf_endTag inner rfl _ next

theorem itemsOf_endTokens_alone {c d : Cursor} (inner : Reads s .closing c ts d) :
    itemsOf (st.endTokens s ++ ts) = [st.endItem s ts] := by
  rw [← List.append_nil (_ ++ _), itemsOf_endTokens inner (by simp), itemsOf]

theorem Takes.itemsOf_append (h : Takes s st ts next) (clean : CleanTags ts) :
    itemsOf (ts ++ next.tokens s) = itemsOf ts ++ itemsOf (next.tokens s) := by
  cases h with
  | whole isWhole _ _ =>
    rw [List.singleton_append, itemsOf_cons_of_text (.inr isWhole),
      itemsOf_cons_of_text (.inr isWhole)]
    simp [itemsOf]
  | construct inner => exact inner.itemsOf_append fun atEnd => tokens_eq_nil atEnd rfl
  | openingTag _ _ _ inner =>
    rw [itemsOf_startTokens inner clean (by simp), itemsOf_startTokens_alone inner clean]
    rfl
  | @loneTag ending us d _ _ _ inner =>
    have cut : ending = .cut → (st.moved d).tokens s = [] := by
      rintro rfl
      exact tokens_eq_nil inner.rest_of_cut rfl
    rw [itemsOf_startTokens inner clean cut, itemsOf_startTokens_alone inner clean]
    rfl
  | closingTag _ _ _ inner =>
    have other {st : LexerState} (u : Token) (hu : (st.tokens s).head? = some u) :
        u.kind ≠ .tagClose := by
      intro hk
      simpa [hk, TokenKind.isTagPart] using head?_tokens hu
    rw [itemsOf_endTokens inner other, itemsOf_endTokens_alone inner]
    rfl

/-- **No item has tokens of two steps.** -/
theorem Goes.itemsOf_append (h : Goes s st ts next) (clean : CleanTags ts) :
    itemsOf (ts ++ next.tokens s) = itemsOf ts ++ itemsOf (next.tokens s) := by
  cases h with
  | text | literalTag | literalEnd | rawEnd => simp [itemsOf]
  | rawConstruct _ inner =>
    rw [List.append_assoc, itemsOf_gathered_append, itemsOf_gathered_append,
      inner.itemsOf_append fun atEnd => tokens_eq_nil atEnd rfl, List.append_assoc]
  | taken _ takes =>
    rw [List.append_assoc, itemsOf_gathered_append, itemsOf_gathered_append,
      takes.itemsOf_append (cleanTags_of_append clean), List.append_assoc]

/-! ### The turn of a step -/

theorem hasContent_startTagOf (t : Token) (e : Excerpt) (body : List Token) (ending : TagEnd) :
    Builder.hasContent (startTagOf t e body ending) = (ending == .opened && !isVoidTag e.value) := by
  rw [Builder.hasContent, startTagOf, TagName.isVoid_ofExcerpt]

theorem start_startTagOf (t : Token) (e : Excerpt) (body : List Token) (ending : TagEnd) :
    (startTagOf t e body ending).span.start = t.span.start := rfl

theorem tag_startTagOf (t : Token) (e : Excerpt) (body : List Token) (ending : TagEnd) :
    (startTagOf t e body ending).tag = .ofExcerpt e := rfl

theorem unmarked_gathered : ∀ t ∈ st.gathered s, t.kind ≠ .tagOpenSlash :=
  fun t ht => by simp [kind_gathered ht]

theorem unmarked_nameTokens (e : Excerpt) : ∀ t ∈ nameTokens e, t.kind ≠ .tagOpenSlash := by
  intro t ht
  rcases kind_nameTokens ht with hk | hk <;> simp [hk]

theorem unmarked_startTokens {ending : TagEnd} {c d : Cursor}
    (inner : Reads s (.body ending) c ts d) :
    ∀ t ∈ st.startTokens s ++ ts, t.kind ≠ .tagOpenSlash := by
  refine List.forall_mem_append.2
    ⟨List.forall_mem_cons.2 ⟨by simp [Token.whole], unmarked_nameTokens _⟩, fun t ht => ?_⟩
  rcases inner.kind_body t ht with hi | hk | hk
  · exact TokenKind.ne_of_isInner hi rfl
  · simp [hk]
  · simp [hk]

/-- A construct is no tag. -/
theorem isStill_construct {c d : Cursor} (inner : Reads s .construct c ts d) :
    ∀ i ∈ itemsOf (st.gathered s ++ ts), i.form.isStill = true := by
  rw [itemsOf_gathered_append]
  exact List.forall_mem_append.2 ⟨isStill_gathered, isStill_itemsOf (inner.inner trivial)⟩

theorem turn_construct {st' : LexerState} {c d : Cursor} (inner : Reads s .construct c ts d)
    (same : next.structured = st.structured) : Turn st (st'.gathered s ++ ts) next := by
  refine .still (isStill_construct inner) ?_ same
  exact List.forall_mem_append.2 ⟨unmarked_gathered,
    fun t ht => TokenKind.ne_of_isInner (inner.inner trivial t ht) rfl⟩

/-- What a start tag that is taken apart is to the parser. -/
theorem turn_startTag {ending : TagEnd} {c d : Cursor} (inner : Reads s (.body ending) c ts d)
    (clean : CleanTags (st.startTokens s ++ ts))
    (opens : st.Enters next (ending == .opened && !isVoidTag st.startName)) :
    Turn st (st.gathered s ++ (st.startTokens s ++ ts)) next := by
  have name : (s.excerpt (st.cursor.skip 1) st.startName.length).value = st.startName :=
    st.ofList_take_startName
  have items : itemsOf (st.gathered s ++ (st.startTokens s ++ ts)) =
      itemsOf (st.gathered s) ++ [st.startItem s ts ending] := by
    rw [itemsOf_gathered_append, itemsOf_startTokens_alone inner clean]
  refine .startTag items isStill_gathered
    (List.forall_mem_append.2 ⟨unmarked_gathered, unmarked_startTokens inner⟩)
    (find?_gathered_append rfl) (start_startTagOf ..) ⟨_, tag_startTagOf .., name⟩ ?_
  rw [hasContent_startTagOf, name]
  exact opens

/-- What a closing tag that is taken apart is to the parser. -/
theorem turn_endTag {c d : Cursor} (inner : Reads s .closing c ts d)
    (closes : ∃ t, st.structured = t :: next.structured) :
    Turn st (st.gathered s ++ (st.endTokens s ++ ts)) next := by
  have items : itemsOf (st.gathered s ++ (st.endTokens s ++ ts)) =
      itemsOf (st.gathered s) ++ [st.endItem s ts] := by
    rw [itemsOf_gathered_append, itemsOf_endTokens_alone inner]
  refine .endTag items isStill_gathered rfl ?_ ⟨_, rfl, value_excerpt_endName s st⟩ closes
  rw [flatMap_tokens_itemsOf]
  exact List.forall_mem_append.2 ⟨unmarked_gathered, List.forall_mem_append.2
    ⟨unmarked_nameTokens _, fun t ht => by simp [inner.kind_closing t ht]⟩⟩

theorem Takes.turn (h : Takes s st ts next) (clean : CleanTags ts) :
    Turn st (st.gathered s ++ ts) next := by
  cases h with
  | whole isWhole _ _ =>
    refine .still ?_ ?_ rfl
    · rw [itemsOf_gathered_append, itemsOf_cons_of_text (.inr isWhole), itemsOf]
      exact List.forall_mem_append.2 ⟨isStill_gathered, List.forall_mem_singleton.2 rfl⟩
    · refine List.forall_mem_append.2 ⟨unmarked_gathered, List.forall_mem_singleton.2 ?_⟩
      rcases isWhole with rfl | rfl <;> simp [Token.whole]
  | construct inner => exact turn_construct inner rfl
  | openingTag _ role filled inner =>
    refine turn_startTag inner clean ?_
    rw [show (TagEnd.opened == .opened && !isVoidTag st.startName) = true by simp [filled]]
    dsimp only [Enters, moved]
    exact ⟨_, role, rfl, rfl⟩
  | @loneTag ending _ _ _ _ empty inner =>
    refine turn_startTag inner clean ?_
    have void : (ending == .opened && !isVoidTag st.startName) = false := by
      by_cases he : ending = .opened
      · simp [empty he]
      · simp [he]
    rw [void]
    rfl
  | closingTag _ closes taken inner =>
    refine turn_endTag inner ?_
    have := structured_closeTag? closes
    rwa [if_neg taken] at this

/-- **Each step takes one of the three turns.** -/
theorem Goes.turn (h : Goes s st ts next) (clean : CleanTags ts) : Turn st ts next := by
  have silent {next : LexerState} (same : next.structured = st.structured) : Turn st [] next :=
    .still (by simp [itemsOf]) (by simp) same
  cases h with
  | text | rawEnd => exact silent rfl
  | literalTag =>
    refine silent ?_
    unfold structured afterLiteralTag
    dsimp only
    split
    · rfl
    · rfl
  | literalEnd _ closes =>
    have := structured_closeTag? closes
    exact silent (by rwa [if_pos rfl] at this)
  | rawConstruct _ inner => exact turn_construct inner rfl
  | taken _ takes => exact takes.turn (cleanTags_of_append clean)

end LexerState

/-- The closing tags among the items of a step are those that hold the beginning of one. -/
theorem Turn.marked {st next : LexerState} {ts : List Token} (h : Turn st ts next) :
    ∀ i ∈ itemsOf ts, i.Marked := by
  have unmarked {is : List Item} (still : ∀ i ∈ is, i.form.isEndTag = false)
      (h : ∀ t ∈ is.flatMap Item.tokens, t.kind ≠ .tagOpenSlash) : ∀ i ∈ is, i.Marked := by
    intro i hi
    rw [Item.Marked, still i hi, if_neg Bool.false_ne_true, List.countP_eq_zero]
    intro t ht
    simpa using h t (List.mem_flatMap.2 ⟨i, hi, ht⟩)
  have other {is : List Item} (still : ∀ i ∈ is, i.form.isStill = true) :
      ∀ i ∈ is, i.form.isEndTag = false :=
    fun i hi => ItemForm.isEndTag_of_isStill (still i hi)
  cases h with
  | still items none _ =>
    exact unmarked (other items) (by rwa [flatMap_tokens_itemsOf])
  | startTag items still none _ _ _ _ =>
    refine unmarked ?_ (by rwa [flatMap_tokens_itemsOf])
    rw [items]
    exact List.forall_mem_append.2 ⟨other still, List.forall_mem_singleton.2 rfl⟩
  | @endTag _ _ _ us items still marked none _ _ =>
    obtain ⟨before, after⟩ := List.forall_mem_append.1 none
    rw [items]
    refine List.forall_mem_append.2
      ⟨unmarked (other still) before, List.forall_mem_singleton.2 ?_⟩
    have zero : us.countP (·.kind == .tagOpenSlash) = 0 :=
      List.countP_eq_zero.2 fun t ht => by simpa using after t ht
    rw [Item.Marked, List.countP_cons, zero]
    simp [marked, ItemForm.isEndTag]

/-! ### The place of a tag among the items of a step -/

/-- An element is the last one, or stands among those before it. -/
theorem eq_or_mem_of_append_singleton {α : Type} {x y : α} {as bs xs : List α}
    (h : as ++ x :: xs = bs ++ [y]) : (as = bs ∧ x = y ∧ xs = []) ∨ ∃ ys, bs = as ++ x :: ys := by
  rcases List.append_eq_append_iff.1 h with ⟨zs, rfl, hz⟩ | ⟨zs, rfl, hz⟩
  · cases zs with
    | nil =>
      obtain ⟨rfl, rfl⟩ := List.cons.inj hz
      exact .inl (by simp)
    | cons z zs =>
      obtain ⟨rfl, -⟩ := List.cons.inj hz
      exact .inr ⟨zs, rfl⟩
  · cases zs with
    | nil =>
      obtain ⟨rfl, rfl⟩ := List.cons.inj hz
      exact .inl (by simp)
    | cons z zs => simp at hz

variable {st next : LexerState} {ts : List Token} {done more : List Item} {item : Item}

/-- No tag comes before the last item of a step. -/
theorem Turn.still_before (h : Turn st ts next) (items : itemsOf ts = done ++ item :: more) :
    ∀ i ∈ done, i.form.isStill = true := by
  have last {before : List Item} {tag : Item} (still : ∀ i ∈ before, i.form.isStill = true)
      (items' : itemsOf ts = before ++ [tag]) : ∀ i ∈ done, i.form.isStill = true := by
    rcases eq_or_mem_of_append_singleton (items.symm.trans items') with ⟨rfl, -⟩ | ⟨ys, rfl⟩
    · exact still
    · exact fun i hi => still i (List.mem_append_left _ hi)
  cases h with
  | still all _ _ => exact fun i hi => all i (items ▸ List.mem_append_left _ hi)
  | startTag items' still _ _ _ _ _ => exact last still items'
  | endTag items' still _ _ _ _ => exact last still items'

/-- A closing tag is the last item of a step, and takes the innermost structured tag away. -/
theorem Turn.of_endTag (h : Turn st ts next) (items : itemsOf ts = done ++ item :: more)
    {tag : TagName} (hf : item.form = .endTag tag) :
    more = [] ∧ (∃ e : Excerpt, tag = .ofExcerpt e ∧ e.value = st.endName) ∧
      ∃ t, st.structured = t :: next.structured := by
  have notStill : item.form.isStill ≠ true := by simp [hf, ItemForm.isStill]
  cases h with
  | still all _ _ => exact absurd (all item (items ▸ by simp)) notStill
  | startTag items' still _ _ _ _ _ =>
    rcases eq_or_mem_of_append_singleton (items.symm.trans items') with ⟨-, rfl, -⟩ | ⟨ys, rfl⟩
    · cases hf
    · exact absurd (still item (by simp)) notStill
  | endTag items' still _ _ name closes =>
    rcases eq_or_mem_of_append_singleton (items.symm.trans items') with ⟨-, rfl, last⟩ | ⟨ys, rfl⟩
    · obtain rfl := ItemForm.endTag.inj hf
      exact ⟨last, name, closes⟩
    · exact absurd (still item (by simp)) notStill

/-- A step that emits nothing is still. -/
theorem Turn.silent (h : Turn st [] next) : next.structured = st.structured := by
  cases h with
  | still _ _ same => exact same
  | startTag items _ _ _ _ _ _ => simp [itemsOf] at items
  | endTag items _ _ _ _ _ => simp [itemsOf] at items

end ServerMarkup
