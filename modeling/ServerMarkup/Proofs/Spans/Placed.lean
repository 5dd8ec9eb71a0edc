/-
# The places of items

The items of a file come one after the other, as their tokens do: what an item is lies between the
end of the item before it and its own (`ItemsPlaced`, `itemsPlaced`), and the attributes of a start
tag lie in its span, in order.  An attribute never begins where a tag does
(`start_ne_of_attribute`).
-/

import ServerMarkup.Proofs.Controls.Scan
import ServerMarkup.Proofs.Spans.Built
import ServerMarkup.Proofs.Spans.Containers
import ServerMarkup.Proofs.Spans.Values

namespace ServerMarkup

section
variable (file : String) (lo hi : Nat)

/-- The tag holds characters between two offsets, and its attributes lie in it, in order, behind its
first character. -/
structure StartTag.Placed (t : StartTag) : Prop where
  span : t.span.Between file lo hi
  attributes : InOrder file (t.span.start.offset + 1) t.span.stop.offset
    (t.attributes.map Attribute.span)

/-- What becomes of the item holds characters between two offsets. -/
def ItemForm.Placed : ItemForm → Prop
  | .text e => e.span.Between file lo hi
  | .code _ _ span => span.Between file lo hi
  | .directive _ _ span => span.Between file lo hi
  | .startTag t => t.Placed file lo hi
  | .comment _ _ | .endTag _ | .stray => True

end

/-- The items come one after the other, from the offset `lo` on and up to the offset `hi`. -/
def ItemsPlaced (file : String) (hi : Nat) : Nat → List Item → Prop
  | lo, [] => lo ≤ hi
  | lo, item :: items =>
    lo ≤ item.stop.offset ∧ item.form.Placed file lo item.stop.offset ∧
      ItemsPlaced file hi item.stop.offset items

variable {s : Source} {t : Token} {ts : List Token} {lo hi : Nat}

theorem Item.stop_spanOver (t : Token) (us : List Token) :
    (spanOver t us).stop = ((t :: us).getLast (List.cons_ne_nil t us)).span.stop := by
  cases us with
  | nil => rfl
  | cons u us => simp [spanOver, Span.join, List.getLast?_cons, List.getLast_eq_getLastD]

/-- An item ends with its last token. -/
theorem Item.stop_eq (form : ItemForm) (t : Token) (us : List Token) :
    Item.stop ⟨form, t :: us⟩ = (spanOver t us).stop := by
  rw [stop_spanOver, Item.stop, List.getLast?_eq_some_getLast (List.cons_ne_nil t us)]
  rfl

namespace Source.Holds

/-! ### Attributes -/

/-- An attribute begins with its name and ends with its name or in its value. -/
theorem span_attribute (h : s.Holds (t :: ts)) (name : t.kind = .attribute) :
    (Attribute.of t.text (Item.valueOf ts)).span.file = s.file ∧
      (Attribute.of t.text (Item.valueOf ts)).span.start = t.span.start ∧
        t.stop ≤ (Attribute.of t.text (Item.valueOf ts)).span.stop.offset ∧
          ∃ u ∈ t :: Item.valueTokens ts,
            (Attribute.of t.text (Item.valueOf ts)).span.stop.offset ≤ u.stop := by
  have whole : t.text.span = t.span := (h.sound t List.mem_cons_self).whole
    (by rw [Token.isCode, name]; rfl) (by simp [name])
  have file := h.head.span_in.file
  unfold Attribute.of
  cases hp : (Item.valueOf ts).span? with
  | none => exact ⟨whole ▸ file, congrArg Span.start whole,
      whole ▸ Nat.le_refl _, t, List.mem_cons_self, whole ▸ Nat.le_refl _⟩
  | some p =>
    obtain ⟨-, ⟨u, mem, start, stop⟩, -⟩ := h.tail.of_span? hp
    have after := h.stop_le_start ((Item.isPrefix_valueTokens ts).subset mem)
    have begins : t.text.span.start = t.span.start := congrArg Span.start whole
    exact ⟨whole ▸ file, begins, Nat.le_trans after start, u, List.mem_cons_of_mem t mem, stop⟩

/-- The attributes of a tag come in order. -/
theorem inOrder_tagAttributes (h : s.Holds ts) :
    ∀ lo, (∀ u ∈ ts, lo ≤ u.start) →
      (∀ u ∈ ts.take (Item.tagAttributes ts).2.2, u.stop ≤ hi) →
        InOrder s.file lo hi ((Item.tagAttributes ts).1.map Attribute.span) := by
  fun_induction Item.tagAttributes ts with
  | case1 => exact fun _ _ _ => .nil
  | case2 t ts kind hk as ending n hr ih =>
    intro lo below above
    rw [hr] at ih
    exact ih h.tail lo (fun u mem => below u (List.mem_cons_of_mem t mem))
      (fun u mem => above u (List.mem_cons_of_mem t mem))
  | case3 t ts hk size as ending n hr ih =>
    intro lo below above
    rw [hr] at ih
    have value : ts.take size = Item.valueTokens ts :=
      (List.prefix_iff_eq_take.1 (Item.isPrefix_valueTokens ts)).symm
    obtain ⟨file, start, filled, u, mem, stop⟩ := h.span_attribute hk
    -- The tokens of the attribute, and those of the attributes behind it.
    have split : (t :: ts).take (n + size + 1) =
        t :: Item.valueTokens ts ++ (ts.drop size).take n := by
      rw [List.take_succ_cons, Nat.add_comm n, List.take_add, value, List.cons_append]
    dsimp only at above
    rw [split] at above
    have order := h.order
    rw [← List.take_append_drop size ts, ← List.cons_append, value] at order
    have later : ∀ v ∈ ts.drop size, u.stop ≤ v.start :=
      fun v => (List.pairwise_append.1 order).2.2 u mem v
    have begins := below t List.mem_cons_self
    have whole := (h.sound t List.mem_cons_self).filled (by rw [hk]; rfl)
    have ends := Nat.le_trans stop (above u (List.mem_append_left _ mem))
    have rest := ih (h.tail.drop _) _ (fun v mem => Nat.le_trans stop (later v mem))
      fun v mem => above v (List.mem_append_right _ mem)
    refine .cons ⟨file, ?_, ?_, ends⟩ rest
    · rw [start]
      exact begins
    · rw [start]
      exact Nat.lt_of_lt_of_le whole filled
  | case4 => exact fun _ _ _ => .nil
  | case5 => exact fun _ _ _ => .nil
  | case6 => exact fun _ _ _ => .nil

/-! ### Items -/

/-- What goes on over tokens ends where the last of them does. -/
theorem stop_le_spanOver (h : s.Holds (t :: ts)) {u : Token} (mem : u ∈ t :: ts) :
    u.stop ≤ (Item.spanOver t ts).stop.offset := by
  rw [Item.stop_spanOver]
  exact h.stop_le_last (List.cons_ne_nil t ts) mem

/-- What begins with a token that is not empty holds characters. -/
theorem between_spanOver (h : s.Holds (t :: ts)) (below : lo ≤ t.start)
    (filled : t.start < t.stop) :
    (Item.spanOver t ts).Between s.file lo (Item.spanOver t ts).stop.offset :=
  ⟨h.head.span_in.file, below, Nat.lt_of_lt_of_le filled (h.stop_le_spanOver List.mem_cons_self),
    Nat.le_refl _⟩

/-- The first tokens. -/
theorem take (h : s.Holds (t :: ts)) (n : Nat) : s.Holds (t :: ts.take n) :=
  h.of_infix ((List.prefix_cons_inj t).2 (List.take_prefix n ts)).isInfix

end Source.Holds

/-- A start tag comes of the token that opens it, and of the attributes behind its name. -/
theorem Item.exists_of_startTag {tag : StartTag} (h : (read t ts).1 = .startTag tag) :
    t.kind = .tagOpen ∧ tag.span = spanOver t (ts.take (read t ts).2) ∧
      ∃ n, tag.attributes = (tagAttributes (ts.drop n)).1 ∧
        (read t ts).2 = n + (tagAttributes (ts.drop n)).2.2 := by
  unfold read at h ⊢
  split at h
  case h_7 hk =>
    split at h
    · next tag n found =>
      cases h
      exact ⟨hk, rfl, n, rfl, rfl⟩
    · cases h
  case h_8 => split at h <;> cases h
  all_goals cases h

namespace Source.Holds

/-- A start tag is placed from its first token to its last, and its attributes lie in it. -/
theorem placed_startTag (h : s.Holds (t :: ts)) (below : lo ≤ t.start) {tag : StartTag}
    (form : (Item.read t ts).1 = .startTag tag) :
    tag.Placed s.file lo (Item.spanOver t (ts.take (Item.read t ts).2)).stop.offset := by
  obtain ⟨kind, span, n, attributes, size⟩ := Item.exists_of_startTag form
  have filled := (h.sound t List.mem_cons_self).filled (by rw [kind]; rfl)
  have own := h.take (Item.read t ts).2
  refine ⟨span ▸ own.between_spanOver below filled, ?_⟩
  rw [attributes, span]
  refine (h.tail.drop n).inOrder_tagAttributes _ (fun u mem => ?_) fun u mem => ?_
  · exact Nat.lt_of_lt_of_le filled (h.stop_le_start (List.mem_of_mem_drop mem))
  · refine own.stop_le_spanOver (List.mem_cons_of_mem t ?_)
    rw [size, List.take_add]
    exact List.mem_append_right _ mem

/-- What is read of tokens is placed from the first to the last. -/
theorem placed_read (h : s.Holds (t :: ts)) (below : lo ≤ t.start) :
    (Item.read t ts).1.Placed s.file lo
      (Item.spanOver t (ts.take (Item.read t ts).2)).stop.offset := by
  by_cases opens : t.kind = .tagOpen
  · cases found : Item.tagName? ts with
    | none =>
      simp only [Item.read, opens, found]
      trivial
    | some x =>
      obtain ⟨tag, form⟩ : ∃ tag, (Item.read t ts).1 = .startTag tag := by
        simp only [Item.read, opens, found]
        exact ⟨_, rfl⟩
      rw [form]
      exact h.placed_startTag below form
  have sound := h.sound t List.mem_cons_self
  have spanning (filled : t.kind.mayBeEmpty = false) (n : Nat) :=
    (h.take n).between_spanOver below (sound.filled filled)
  have text (whole : t.kind.isCode = false) (other : t.kind ≠ .serverComment)
      (filled : t.kind.mayBeEmpty = false) :
      (ItemForm.text t.text).Placed s.file lo (Item.spanOver t (ts.take 0)).stop.offset := by
    have same : t.text.span = t.span := sound.whole whole other
    rw [ItemForm.Placed, same]
    exact spanning filled 0
  unfold Item.read
  split
  · next hk => exact text (by rw [hk]; rfl) (by simp [hk]) (by rw [hk]; rfl)
  · next hk => exact text (by rw [hk]; rfl) (by simp [hk]) (by rw [hk]; rfl)
  · next hk => exact text (by rw [hk]; rfl) (by simp [hk]) (by rw [hk]; rfl)
  · next hk => exact spanning (by rw [hk]; rfl) 0
  · trivial
  · next hk => exact spanning (by rw [hk]; rfl) _
  · next hk => exact absurd hk opens
  · split <;> trivial
  · trivial

/-- **The items of a file come one after the other.** -/
theorem itemsPlaced (h : s.Holds ts) : ∀ lo, lo ≤ hi → (∀ u ∈ ts, lo ≤ u.start ∧ u.stop ≤ hi) →
    ItemsPlaced s.file hi lo (itemsOf ts) := by
  fun_induction itemsOf ts with
  | case1 => exact fun _ le _ => le
  | case2 t ts form n hr ih =>
    intro lo _ within
    obtain ⟨begins, -⟩ := within t List.mem_cons_self
    have placed := h.placed_read begins
    rw [hr] at placed
    -- The item ends with its last token, and the other items begin behind that.
    have own := (h.take n).stop_le_spanOver List.mem_cons_self
    have last := List.getLast_mem (List.cons_ne_nil t (ts.take n))
    have order := h.order
    rw [← List.take_append_drop n ts, ← List.cons_append] at order
    have later := fun v => (List.pairwise_append.1 order).2.2 _ last v
    have whole := (within _ (List.cons_subset_cons t (List.take_subset n ts) last)).2
    have first := h.start_le_stop List.mem_cons_self
    rw [ItemsPlaced, Item.stop_eq]
    rw [Item.stop_spanOver] at own placed ⊢
    refine ⟨Nat.le_trans begins (Nat.le_trans first own), placed, ih (h.tail.drop n) _ whole ?_⟩
    intro v mem
    exact ⟨later v mem, (within v (List.mem_cons_of_mem t (List.mem_of_mem_drop mem))).2⟩

end Source.Holds

/-! ### Tags and attributes -/

section
variable {item item' : Item} {tag tag' : StartTag} {a : Attribute}

/-- A start tag begins with the token that opens it, and its attributes with their names. -/
theorem exists_of_mem_startTag (mem : item ∈ itemsOf ts) (form : item.form = .startTag tag) :
    (∃ u ∈ ts, u.kind = .tagOpen ∧ tag.span.start = u.span.start) ∧
      ∀ a ∈ tag.attributes, ∃ u us, u :: us <:+ ts ∧ u.kind = .attribute ∧
        a = .of u.text (Item.valueOf us) := by
  obtain ⟨t, us, part, rfl⟩ := exists_read_of_mem_itemsOf mem
  obtain ⟨opens, span, n, attributes, -⟩ := Item.exists_of_startTag form
  refine ⟨⟨t, part.subset List.mem_cons_self, opens, by rw [span]; rfl⟩, fun a own => ?_⟩
  rw [attributes] at own
  obtain ⟨u, vs, rest, name, same⟩ := exists_of_mem_tagAttributes own
  have behind := (List.drop_suffix n us).trans ((List.suffix_cons t us).trans part)
  exact ⟨u, vs, rest.trans behind, name, same⟩

/-- **An attribute never begins where a tag does.** -/
theorem Source.Holds.start_ne_of_attribute (h : s.Holds ts) (mem : item ∈ itemsOf ts)
    (form : item.form = .startTag tag) (mem' : item' ∈ itemsOf ts)
    (form' : item'.form = .startTag tag') (own : a ∈ tag'.attributes) :
    tag.span.start ≠ a.span.start := by
  obtain ⟨⟨u, hu, opens, start⟩, -⟩ := exists_of_mem_startTag mem form
  obtain ⟨v, vs, part, name, rfl⟩ := (exists_of_mem_startTag mem' form').2 a own
  obtain ⟨-, start', -⟩ := (h.of_suffix part).span_attribute name
  have hv := part.subset List.mem_cons_self
  have filled := (h.sound u hu).filled (by rw [opens]; rfl)
  have filled' := (h.sound v hv).filled (by rw [name]; rfl)
  have other : u ≠ v := by
    rintro rfl
    rw [opens] at name
    cases name
  intro same
  have place : u.start = v.start := by
    rw [Token.start, Token.start, ← start, ← start', same]
  obtain before | behind := h.apart hu hv other
  · omega
  · omega

end

end ServerMarkup
