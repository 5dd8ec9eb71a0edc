/-
# The marks of the items of a file

Whatever is read of the tokens of a file is a stretch of the file, and so is whatever the parser
cuts or joins of it: the parts of a name, a trimmed value, a tag up to the end of its body.  A text
that is said to stand there does, or is the value of a directive's attribute that is put together
from parts (`Mark.Known`, `itemsSound`).
-/

import ServerMarkup.Proofs.Controls.Scan
import ServerMarkup.Proofs.Spans.Built
import ServerMarkup.Proofs.Spans.Values

namespace ServerMarkup

/-- The mark is a stretch of the source, and the text that is said to stand there does, or is put
together from the parts of a directive's value. -/
def Mark.Known (s : Source) (all : List Token) (m : Mark) : Prop :=
  m.span.In s ∧ ∀ v, m.text = some v → Excerpt.Verbatim s ⟨v, m.span⟩ ∨ Composed all ⟨v, m.span⟩

section
variable {s : Source} {all : List Token}

theorem Span.In.known {p : Span} (h : p.In s) : p.mark.Known s all :=
  ⟨h, nofun⟩

theorem Excerpt.known {e : Excerpt} (h : e.span.In s) (reads : e.Verbatim s ∨ Composed all e) :
    e.mark.Known s all := by
  refine ⟨h, ?_⟩
  rintro v ⟨⟩
  exact reads

theorem Excerpt.Verbatim.known {e : Excerpt} (h : e.Verbatim s) : e.mark.Known s all :=
  Excerpt.known h.within (.inl h)

end

/-- An item ends with one of its tokens. -/
theorem exists_of_item_stop {item : Item} {ts : List Token} (mem : item ∈ itemsOf ts) :
    ∃ u ∈ ts, u.span.stop = item.stop := by
  obtain ⟨t, us, -, same⟩ := exists_read_of_mem_itemsOf mem
  have filled : item.tokens ≠ [] := by
    rw [same]
    exact List.cons_ne_nil _ _
  refine ⟨item.tokens.getLast filled, ?_, by simp [Item.stop, List.getLast?_eq_some_getLast filled]⟩
  rw [← flatMap_tokens_itemsOf ts]
  exact List.mem_flatMap.2 ⟨item, mem, List.getLast_mem filled⟩

section
variable {P : Mark → Prop} {s : Source} {all ts us : List Token} {t : Token} {ends : List Position}
  {stop : Position} (known : ∀ m : Mark, m.Known s all → P m)
include known

/-! ### Attributes -/

/-- An attribute is sound if its name and its value are read one after the other. -/
theorem Source.Holds.sound_attribute (h : s.Holds (t :: ts)) :
    (Attribute.of t.text (Item.valueOf ts)).Sound P := by
  have text := h.head.verbatim
  have closed := (h.sound t List.mem_cons_self).closed
  constructor
  case span =>
    refine known _ (Span.In.known ?_)
    unfold Attribute.of
    cases hp : (Item.valueOf ts).span? with
    | none => exact text.within
    | some p => exact h.name_join hp
  case name => exact known _ text.known
  case parts => exact fun i j => known _ (text.slice closed i j).known
  case value =>
    refine List.forall_mem_map.2 fun part mem => known _ ?_
    exact (h.tail.verbatim_of_mem_valueOf mem).known
  case trimmed => exact fun e single => known _ (h.tail.verbatim_of_single? single).2.known

/-- The attributes of a tag are sound. -/
theorem Source.Holds.sound_tagAttributes (h : s.Holds ts) :
    ∀ a ∈ (Item.tagAttributes ts).1, a.Sound P := by
  intro a mem
  obtain ⟨t, us, part, -, rfl⟩ := exists_of_mem_tagAttributes mem
  exact (h.of_suffix part).sound_attribute known

/-- The attributes of a directive are sound. -/
theorem Source.Holds.sound_directiveOf (h : s.Holds (t :: ts))
    (directive : t.kind = .startDirective) (part : t :: ts <:+ all) :
    (Item.directiveOf (Item.directiveAttributes ts).1).2.Sound P := by
  have each : ∀ a ∈ (Item.directiveAttributes ts).1,
      P a.1.span.mark ∧ P (Item.directiveValue a.1 a.2).mark ∧
        P (a.1.span.join (Item.directiveValue a.1 a.2).span).mark := by
    intro a mem
    obtain ⟨n, vs, rest, -, same⟩ := exists_of_mem_directiveAttributes mem
    have held := h.tail.of_suffix rest
    obtain ⟨within, joined, reads⟩ := held.directiveValue
    refine ⟨?_, known _ (Excerpt.known ?_ ?_), known _ (Span.In.known ?_)⟩
    · exact same ▸ known _ held.head.verbatim.within.known
    · exact same ▸ within
    · refine (reads.imp (fun verbatim => same ▸ verbatim) fun two => ?_)
      exact ⟨t, ts, part, directive, a, mem, same ▸ two, rfl⟩
    · exact same ▸ joined
  have valued : ∀ as : List (Excerpt × AttributeValue), as ⊆ (Item.directiveAttributes ts).1 →
      DirectiveAttributes.Sound P (as.map fun a => (a.1, Item.directiveValue a.1 a.2)) :=
    fun as sub => List.forall_mem_map.2 fun a mem => each a (sub mem)
  unfold Item.directiveOf
  dsimp only
  split
  · next name value rest hr =>
    split
    · exact valued _ (hr ▸ List.Subset.refl _)
    · exact valued _ (hr ▸ List.subset_cons_self _ _)
  · exact List.forall_mem_nil _

/-! ### Tags -/

/-- The marks of a tag name are known. -/
theorem Source.Holds.of_tagName? (h : s.Holds ts) {tag : TagName} {n : Nat}
    (found : Item.tagName? ts = some (tag, n)) : (∀ m ∈ tag.marks, P m) ∧ P tag.span.mark := by
  unfold Item.tagName? at found
  split at found
  · next t ts =>
    split at found
    · cases found
      have text := h.head.verbatim
      exact ⟨List.forall_mem_singleton.2 (known _ text.known), known _ text.within.known⟩
    · next u us _ =>
      split at found
      · cases found
        have first := h.head.verbatim
        have second := h.tail.head.verbatim
        refine ⟨List.forall_mem_cons.2 ⟨known _ first.known,
          List.forall_mem_singleton.2 (known _ second.known)⟩, known _ (Span.In.known ?_)⟩
        refine first.within.join second.within ?_
        change t.text.span.start.offset ≤ u.text.span.stop.offset
        have := first.within.start_le
        have := second.within.start_le
        have := h.head.le_stop
        have := h.tail.head.start_le
        have := h.stop_le_start (u := u) List.mem_cons_self
        omega
      · cases found
    · cases found
  · cases found

/-- The span over tokens, also when it is drawn out. -/
theorem Source.Holds.spanned (h : s.Holds (t :: ts))
    (further : ∀ stop ∈ ends, ∃ q : Span, q.In s ∧ q.stop = stop ∧ t.start ≤ q.stop.offset)
    (n : Nat) : Spanned P ends (Item.spanOver t (ts.take n)) := by
  have whole : (Item.spanOver t (ts.take n)).In s := by
    unfold Item.spanOver
    cases hl : (ts.take n).getLast? with
    | none => exact h.span_join List.mem_cons_self
    | some u =>
      exact h.span_join (List.mem_cons_of_mem _ (List.mem_of_mem_take (List.mem_of_getLast? hl)))
  refine ⟨known _ whole.known, fun stop mem => known _ (Span.In.known ?_)⟩
  obtain ⟨q, within, rfl, le⟩ := further stop mem
  exact whole.join within le

/-! ### Items -/

/-- What is read of a token and those after it is sound. -/
theorem Source.Holds.sound_read (h : s.Holds (t :: ts)) (part : t :: ts <:+ all)
    (further : ∀ stop ∈ ends, ∃ q : Span, q.In s ∧ q.stop = stop ∧ t.start ≤ q.stop.offset) :
    (Item.read t ts).1.Sound P ends := by
  have span := h.head.span_in
  have text := h.head.verbatim
  unfold Item.read
  split
  · exact known _ text.known
  · exact known _ text.known
  · exact known _ text.known
  · exact ⟨known _ span.known, known _ text.known⟩
  · exact known _ span.known
  · next hk =>
    exact ⟨(h.spanned known further _).here, h.sound_directiveOf known hk part⟩
  · split
    · next tag n found =>
      obtain ⟨marks, name⟩ := h.tail.of_tagName? known found
      exact ⟨h.spanned known further _, marks, name, (h.tail.drop n).sound_tagAttributes known⟩
    · trivial
  · split
    · next tag n found => exact (h.tail.of_tagName? known found).2
    · trivial
  · trivial

/-- **The items of a file are sound** for what is known of it. -/
theorem Source.Holds.itemsSound (h : s.Holds ts) (part : ts <:+ all)
    (last : ts ≠ [] → ∃ q : Span, q.In s ∧ q.stop = stop ∧ ∀ t ∈ ts, t.start ≤ q.stop.offset) :
    ItemsSound P stop (itemsOf ts) := by
  fun_induction itemsOf ts with
  | case1 => trivial
  | case2 t ts form n hr ih =>
    have later := List.drop_suffix n ts
    obtain ⟨q, within, ends, le⟩ := last (List.cons_ne_nil t ts)
    refine ⟨⟨?_, ?_⟩, ih (h.tail.of_suffix later) (later.trans ((List.suffix_cons ..).trans part))
      fun _ => ⟨q, within, ends, fun u mem => le u (List.mem_cons_of_mem _ (later.subset mem))⟩⟩
    · have form_eq : (Item.read t ts).1 = form := congrArg Prod.fst hr
      refine form_eq ▸ h.sound_read known part fun stop' mem => ?_
      obtain mem | mem := List.mem_append.1 mem
      · obtain ⟨item, among, rfl⟩ := List.mem_map.1 mem
        obtain ⟨u, after, ends⟩ := exists_of_item_stop among
        have after := later.subset after
        refine ⟨u.span, (h.tail.faithful u after).span_in, ends, ?_⟩
        have own := h.start_le_stop List.mem_cons_self
        have next := h.stop_le_start after
        have other := h.tail.start_le_stop after
        exact Nat.le_trans own (Nat.le_trans next other)
      · obtain rfl := List.mem_singleton.1 mem
        exact ⟨q, within, ends, le t List.mem_cons_self⟩
    · intro u mem
      have faithful := h.faithful u (List.cons_subset_cons t (List.take_subset n ts) mem)
      exact ⟨known _ faithful.span_in.known, known _ faithful.verbatim.known⟩

end

/-- The items of a file that is parsed are sound for what is known of it. -/
theorem Parsing.itemsSound {P : Mark → Prop} (g : Parsing)
    (known : ∀ m : Mark, m.Known (.of g.file g.text) (tokenize g.file g.text) → P m) :
    ItemsSound P g.stop (itemsOf (tokenize g.file g.text)) := by
  have held := holds_tokenize g.file g.text
  refine held.itemsSound known (List.suffix_refl _) fun filled => ?_
  refine ⟨_, (held.faithful _ (List.getLast_mem filled)).span_in, ?_,
    fun t mem => Nat.le_trans (held.start_le_stop mem) (held.stop_le_last filled mem)⟩
  rw [Parsing.stop, List.getLast?_eq_some_getLast filled]
  rfl

end ServerMarkup
