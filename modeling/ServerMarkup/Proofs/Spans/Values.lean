/-
# Where values stand

The tokens of a stretch of a file (`Source.Holds`) stand in order, and so do the parts of a value
that is read of them.  Between two neighbours there is a gap, since one of them is code and its
marks belong to neither (`gapped_texts`).  The span of a value goes from its first part to its last
and so holds more characters than its parts have together, if there are two or more.

A directive keeps a value as one excerpt.  It reads as the file does there, unless it is put
together from two or more parts (`Composed`): then it never does (`not_verbatim_of_composed`).
-/

import Mathlib.Algebra.GroupWithZero.Nat
import ServerMarkup.Proofs.Lexer.Parted
import ServerMarkup.Proofs.Lexer.Sound
import ServerMarkup.Proofs.Parse.Items

namespace ServerMarkup

variable {s : Source} {t : Token} {ts us : List Token}

/-! ### Spans in a source -/

/-- From the start of one span to the end of another one. -/
theorem Span.In.join {p q : Span} (hp : p.In s) (hq : q.In s)
    (le : p.start.offset ≤ q.stop.offset) : (p.join q).In s :=
  ⟨hp.file, hp.start_eq, hq.stop_eq, le, hq.stop_le⟩

/-- Nothing, right behind a span. -/
theorem Span.In.behind {p : Span} (hp : p.In s) : (Span.empty p.file p.stop).In s :=
  ⟨hp.file, hp.stop_eq, hp.stop_eq, Nat.le_refl _, hp.stop_le⟩

/-- Nothing is read where nothing stands. -/
theorem Excerpt.verbatim_empty {file : String} {place : Position}
    (h : (Span.empty file place).In s) : Excerpt.Verbatim s ⟨"", .empty file place⟩ := by
  refine ⟨h, ?_⟩
  rw [Source.between, Span.empty, Nat.sub_self, List.take_zero]
  rfl

/-- Tokens of a stretch of a source. -/
structure Source.Holds (s : Source) (ts : List Token) : Prop where
  order : ts.Pairwise fun t u => t.stop ≤ u.start
  faithful : ∀ t ∈ ts, t.Faithful s
  sound : ∀ t ∈ ts, t.Sound s
  parted : Parted ts

theorem holds_tokenize (file text : String) : (Source.of file text).Holds (tokenize file text) where
  order := (tokens_faithful file text).1
  faithful t mem := ((tokens_faithful file text).2 t mem).2
  sound _ := sound_of_mem_tokenize
  parted := parted_tokenize file text

namespace Source.Holds

theorem of_infix (h : s.Holds ts) (part : us <:+: ts) : s.Holds us where
  order := h.order.sublist part.sublist
  faithful t mem := h.faithful t (part.subset mem)
  sound t mem := h.sound t (part.subset mem)
  parted := h.parted.infix part

theorem of_suffix (h : s.Holds ts) (part : us <:+ ts) : s.Holds us :=
  h.of_infix part.isInfix

theorem drop (h : s.Holds ts) (n : Nat) : s.Holds (ts.drop n) :=
  h.of_suffix (List.drop_suffix n ts)

theorem head (h : s.Holds (t :: ts)) : t.Faithful s :=
  h.faithful t List.mem_cons_self

theorem tail (h : s.Holds (t :: ts)) : s.Holds ts :=
  h.of_suffix (List.suffix_cons t ts)

theorem start_le_stop (h : s.Holds ts) (mem : t ∈ ts) : t.start ≤ t.stop :=
  (h.faithful t mem).span_in.start_le

/-- No token begins before the first one ends. -/
theorem stop_le_start (h : s.Holds (t :: ts)) {u : Token} (mem : u ∈ ts) : t.stop ≤ u.start :=
  (List.pairwise_cons.1 h.order).1 u mem

/-- Of two tokens one ends before the other begins. -/
theorem apart (h : s.Holds ts) {u v : Token} (hu : u ∈ ts) (hv : v ∈ ts) (other : u ≠ v) :
    u.stop ≤ v.start ∨ v.stop ≤ u.start := by
  have : Std.Symm fun u v : Token => u.stop ≤ v.start ∨ v.stop ≤ u.start := ⟨fun _ _ => Or.symm⟩
  have either : ts.Pairwise fun u v => u.stop ≤ v.start ∨ v.stop ≤ u.start :=
    h.order.imp fun before => .inl before
  exact either.forall hu hv other

/-- No token ends behind the last one. -/
theorem stop_le_last (h : s.Holds ts) (filled : ts ≠ []) (mem : t ∈ ts) :
    t.stop ≤ (ts.getLast filled).stop := by
  have last := h.start_le_stop (List.getLast_mem filled)
  rw [← List.dropLast_append_getLast filled] at mem
  obtain before | here := List.mem_append.1 mem
  · have order := h.order
    rw [← List.dropLast_append_getLast filled] at order
    have := (List.pairwise_append.1 order).2.2 t before _ (List.mem_singleton.2 rfl)
    omega
  · rw [List.mem_singleton.1 here]

/-- The end of the tokens is that of the last one. -/
theorem stop_le_end (h : s.Holds ts) (mem : t ∈ ts) :
    t.stop ≤ ((ts.getLast?.map fun u : Token => u.span.stop).getD Position.first).offset := by
  rw [List.getLast?_eq_some_getLast (List.ne_nil_of_mem mem)]
  exact h.stop_le_last _ mem

/-- From the start of the first token to the end of any. -/
theorem span_join (h : s.Holds (t :: ts)) {u : Token} (mem : u ∈ t :: ts) :
    (t.span.join u.span).In s := by
  refine h.head.span_in.join (h.faithful u mem).span_in ?_
  have own := h.head.span_in.start_le
  obtain rfl | mem := List.mem_cons.1 mem
  · exact own
  · have after := h.stop_le_start mem
    have later := h.tail.start_le_stop mem
    unfold Token.start Token.stop at *
    omega

end Source.Holds

/-! ### Values -/

namespace Item

theorem isPrefix_valueTokens (ts : List Token) : valueTokens ts <+: ts :=
  List.takeWhile_prefix _

/-- A token of a value is literal text or code. -/
theorem kind_of_mem_valueTokens (mem : t ∈ valueTokens ts) :
    t.kind = .attributeValue ∨ t.isCode = true := by
  have part := List.all_eq_true.1 List.all_takeWhile t mem
  rw [isSome_ofToken?, Bool.or_eq_true, beq_iff_eq] at part
  exact part.symm

/-- The parts of a value hold what its tokens do. -/
theorem excerpts_valueOf (ts : List Token) :
    (valueOf ts).parts.map ValuePart.excerpt = (valueTokens ts).map Token.text := by
  have all : ∀ t ∈ valueTokens ts, (ValuePart.ofToken? t).map ValuePart.excerpt = some t.text := by
    intro t mem
    have part := List.all_eq_true.1 List.all_takeWhile t mem
    unfold ValuePart.ofToken? at part ⊢
    split at part
    · rfl
    · rfl
    · cases part
  unfold valueOf
  generalize valueTokens ts = us at all
  induction us with
  | nil => rfl
  | cons u us ih =>
    obtain ⟨first, others⟩ := List.forall_mem_cons.1 all
    obtain ⟨part, some, text⟩ := Option.map_eq_some_iff.1 first
    rw [List.filterMap_cons, some, List.map_cons, List.map_cons, text, ih others]

/-- The literal text of a value is that of a token. -/
theorem exists_of_single? {e : Excerpt} (single : (valueOf ts).single? = some e) :
    ∃ u ∈ ts, u.kind = .attributeValue ∧ u.text = e := by
  have parts : (valueTokens ts).filterMap ValuePart.ofToken? = [.text e] := by
    unfold AttributeValue.single? at single
    split at single
    · next found =>
      cases single
      exact found
    · cases single
  obtain ⟨u, mem, part⟩ := List.mem_filterMap.1 (parts ▸ List.mem_singleton.2 rfl)
  refine ⟨u, (isPrefix_valueTokens ts).subset mem, ?_⟩
  unfold ValuePart.ofToken? at part
  split at part
  · next value =>
    cases part
    exact ⟨value, rfl⟩
  · cases part
  · cases part

end Item

/-- One excerpt ends before the next begins, with something in between. -/
def Gapped (es : List Excerpt) : Prop :=
  es.IsChain fun a b => a.span.stop.offset < b.span.start.offset

/-- Excerpts with gaps between them are together shorter than the stretch that they stand in. -/
theorem Gapped.length_le {e last : Excerpt} {es : List Excerpt} (gapped : Gapped (e :: es))
    (verbatim : ∀ x ∈ e :: es, x.Verbatim s) (hl : (e :: es).getLast? = some last) :
    e.span.start.offset + ((e :: es).map Excerpt.length).sum + es.length ≤
      last.span.stop.offset := by
  induction es generalizing e with
  | nil =>
    obtain rfl : e = last := by simpa using hl
    have whole := verbatim e List.mem_cons_self
    have size := whole.length_eq
    have le := whole.within.start_le
    simp only [List.map_cons, List.map_nil, List.sum_cons, List.sum_nil, List.length_nil]
    omega
  | cons x es ih =>
    obtain ⟨gap, rest⟩ := List.isChain_cons_cons.1 gapped
    obtain ⟨whole, others⟩ := List.forall_mem_cons.1 verbatim
    rw [List.getLast?_cons_cons] at hl
    have := ih rest others hl
    have size := whole.length_eq
    have le := whole.within.start_le
    simp only [List.map_cons, List.sum_cons, List.length_cons] at this ⊢
    omega

namespace Source.Holds

/-- The texts of a value have gaps between them: one of two neighbours is code, and its marks stand
there. -/
theorem gapped_texts (h : s.Holds ts)
    (value : ∀ t ∈ ts, t.kind = .attributeValue ∨ t.isCode = true) :
    Gapped (ts.map Token.text) := by
  refine (List.isChain_map _).2 ?_
  induction ts with
  | nil => exact .nil
  | cons t ts ih =>
    obtain ⟨first, others⟩ := List.forall_mem_cons.1 value
    refine List.isChain_cons.2 ⟨fun u hu => ?_, ih h.tail others⟩
    have mem : u ∈ ts := List.mem_of_mem_head? hu
    have order := h.stop_le_start mem
    have le := h.head.le_stop
    have le' := (h.tail.faithful u mem).start_le
    by_cases code : t.isCode = true
    · have := ((h.sound t List.mem_cons_self).marked code).2
      omega
    · have literal := first.resolve_right code
      have code' := (others u mem).resolve_left ((List.isChain_cons.1 h.parted).1 u hu literal)
      have := ((h.tail.sound u mem).marked code').1
      omega

theorem verbatim_of_mem_map (h : s.Holds ts) {e : Excerpt} (mem : e ∈ ts.map Token.text) :
    e.Verbatim s := by
  obtain ⟨t, own, rfl⟩ := List.mem_map.1 mem
  exact (h.faithful t own).verbatim

/-- The tokens of a value. -/
theorem valueTokens (h : s.Holds ts) : s.Holds (Item.valueTokens ts) :=
  h.of_infix (Item.isPrefix_valueTokens ts).isInfix

theorem verbatim_of_mem_valueOf (h : s.Holds ts) {part : ValuePart}
    (mem : part ∈ (Item.valueOf ts).parts) : part.excerpt.Verbatim s := by
  refine h.valueTokens.verbatim_of_mem_map ?_
  rw [← Item.excerpts_valueOf]
  exact List.mem_map_of_mem mem

/-- The literal text of a value can be cut. -/
theorem verbatim_of_single? (h : s.Holds ts) {e : Excerpt}
    (single : (Item.valueOf ts).single? = some e) : e.Verbatim s ∧ e.trim.Verbatim s := by
  obtain ⟨u, mem, -, rfl⟩ := Item.exists_of_single? single
  have whole := (h.faithful u mem).verbatim
  exact ⟨whole, whole.trim (h.sound u mem).closed⟩

end Source.Holds

/-! ### Spans of values -/

/-- The span of a value goes from its first part to its last. -/
theorem AttributeValue.exists_of_span? {v : AttributeValue} {p : Span} (h : v.span? = some p) :
    ∃ e es last, v.parts.map ValuePart.excerpt = e :: es ∧
      (e :: es).getLast? = some last ∧ p = e.span.join last.span := by
  unfold span? at h
  split at h
  · next first last hf hl =>
    obtain ⟨rest, parts⟩ := List.head?_eq_some_iff.1 hf
    refine ⟨first.excerpt, rest.map ValuePart.excerpt, last.excerpt, by rw [parts]; rfl, ?_, ?_⟩
    · rw [← List.map_cons, ← parts, List.getLast?_map, hl]
      rfl
    · exact (Option.some.inj h).symm
  · cases h

theorem AttributeValue.eq_nil_of_span? {v : AttributeValue} (h : v.span? = Option.none) :
    v.parts = [] := by
  unfold span? at h
  cases hp : v.parts with
  | nil => rfl
  | cons first rest => simp [hp, List.getLast?_cons] at h

namespace Source.Holds

/-- The span of a value ends in one of its tokens, and holds the parts and what is between them. -/
theorem of_span? (h : s.Holds ts) {p : Span} (hp : (Item.valueOf ts).span? = some p) :
    p.In s ∧ (∃ u ∈ Item.valueTokens ts, u.start ≤ p.stop.offset ∧ p.stop.offset ≤ u.stop) ∧
      (((Item.valueOf ts).parts.map ValuePart.excerpt).map Excerpt.length).sum +
        ((Item.valueOf ts).parts.length - 1) ≤ p.stop.offset - p.start.offset := by
  obtain ⟨e, es, last, parts, hl, rfl⟩ := AttributeValue.exists_of_span? hp
  have texts := (Item.excerpts_valueOf ts).symm.trans parts
  have gapped : Gapped (e :: es) := texts ▸ h.valueTokens.gapped_texts
    fun _ => Item.kind_of_mem_valueTokens
  have verbatim : ∀ x ∈ e :: es, x.Verbatim s :=
    texts ▸ fun x => h.valueTokens.verbatim_of_mem_map
  have size := gapped.length_le verbatim hl
  have count : (Item.valueOf ts).parts.length = es.length + 1 := by
    rw [← List.length_map ValuePart.excerpt, parts, List.length_cons]
  have within := (verbatim e List.mem_cons_self).within.join
    (verbatim last (List.mem_of_getLast? hl)).within (by omega)
  refine ⟨within, ?_, ?_⟩
  · obtain ⟨u, mem, rfl⟩ := List.mem_map.1 (texts ▸ List.mem_of_getLast? hl)
    have faithful := h.valueTokens.faithful u mem
    exact ⟨u, mem, Nat.le_trans faithful.start_le faithful.verbatim.within.start_le,
      faithful.le_stop⟩
  · rw [parts, count]
    change _ ≤ last.span.stop.offset - e.span.start.offset
    omega

/-- From a name to the value that follows it. -/
theorem name_join (h : s.Holds (t :: ts)) {p : Span} (hp : (Item.valueOf ts).span? = some p) :
    (t.text.span.join p).In s := by
  obtain ⟨within, ⟨u, mem, le, -⟩, -⟩ := h.tail.of_span? hp
  refine h.head.verbatim.within.join within ?_
  have := h.stop_le_start ((Item.isPrefix_valueTokens ts).subset mem)
  have := h.head.verbatim.within.start_le
  have := h.head.le_stop
  omega

end Source.Holds

/-- An attribute of a tag is a name and the value that follows. -/
theorem exists_of_mem_tagAttributes {a : Attribute} (mem : a ∈ (Item.tagAttributes ts).1) :
    ∃ t us, t :: us <:+ ts ∧ t.kind = .attribute ∧ a = .of t.text (Item.valueOf us) := by
  fun_induction Item.tagAttributes ts with
  | case1 => cases mem
  | case2 t ts kind hk as ending n hr ih =>
    obtain ⟨u, us, part, name, same⟩ := ih (by rwa [hr])
    exact ⟨u, us, part.trans (List.suffix_cons ..), name, same⟩
  | case3 t ts hk size as ending n hr ih =>
    obtain rfl | mem := List.mem_cons.1 mem
    · exact ⟨t, ts, List.suffix_refl _, hk, rfl⟩
    · obtain ⟨u, us, part, name, same⟩ := ih (by rwa [hr])
      exact ⟨u, us, part.trans ((List.drop_suffix ..).trans (List.suffix_cons ..)), name, same⟩
  | case4 => cases mem
  | case5 => cases mem
  | case6 => cases mem

/-! ### Values of directives -/

/-- The excerpt is the value of an attribute of a directive that is put together from two or more
parts. -/
def Composed (ts : List Token) (e : Excerpt) : Prop :=
  ∃ t us, t :: us <:+ ts ∧ t.kind = .startDirective ∧ ∃ a ∈ (Item.directiveAttributes us).1,
    2 ≤ a.2.parts.length ∧ Item.directiveValue a.1 a.2 = e

/-- An attribute of a directive is its name and the value that follows. -/
theorem exists_of_mem_directiveAttributes {a : Excerpt × AttributeValue}
    (mem : a ∈ (Item.directiveAttributes ts).1) :
    ∃ t us, t :: us <:+ ts ∧ t.kind = .attribute ∧ a = (t.text, Item.valueOf us) := by
  fun_induction Item.directiveAttributes ts with
  | case1 => cases mem
  | case2 t ts hk size as n hr ih =>
    obtain rfl | mem := List.mem_cons.1 mem
    · exact ⟨t, ts, List.suffix_refl _, hk, rfl⟩
    · obtain ⟨u, us, part, name, same⟩ := ih (by rwa [hr])
      exact ⟨u, us, part.trans ((List.drop_suffix ..).trans (List.suffix_cons ..)), name, same⟩
  | case3 => cases mem
  | case4 => cases mem

/-- A value of two or more parts is all of them, one right after the other. -/
theorem Item.directiveValue_of_two_le (name : Excerpt) {v : AttributeValue}
    (two : 2 ≤ v.parts.length) : ∃ p, v.span? = some p ∧
      directiveValue name v = ⟨String.join (v.parts.map (·.excerpt.value)), p⟩ := by
  have several : v.single? = none := by
    unfold AttributeValue.single?
    split
    · next one =>
      rw [one, List.length_singleton] at two
      omega
    · rfl
  cases hp : v.span? with
  | none =>
    rw [AttributeValue.eq_nil_of_span? hp] at two
    cases two
  | some p =>
    refine ⟨p, rfl, ?_⟩
    unfold directiveValue
    rw [several, hp]

namespace Source.Holds

/-- The value of a directive's attribute stands behind its name, and reads as the source does unless
it has two or more parts. -/
theorem directiveValue (h : s.Holds (t :: ts)) :
    (Item.directiveValue t.text (Item.valueOf ts)).span.In s ∧
      (t.text.span.join (Item.directiveValue t.text (Item.valueOf ts)).span).In s ∧
        ((Item.directiveValue t.text (Item.valueOf ts)).Verbatim s ∨
          2 ≤ (Item.valueOf ts).parts.length) := by
  have name := h.head.verbatim.within
  cases hp : (Item.valueOf ts).span? with
  | none =>
    have parts := AttributeValue.eq_nil_of_span? hp
    have value : Item.directiveValue t.text (Item.valueOf ts) =
        ⟨"", .empty t.text.span.file t.text.span.stop⟩ := by
      unfold Item.directiveValue AttributeValue.single?
      rw [hp, parts]
    rw [value]
    exact ⟨name.behind, name.join name.behind name.start_le,
      .inl (Excerpt.verbatim_empty name.behind)⟩
  | some p =>
    have within := (h.tail.of_span? hp).1
    have joined := h.name_join hp
    by_cases two : 2 ≤ (Item.valueOf ts).parts.length
    · obtain ⟨p', hp', value⟩ := Item.directiveValue_of_two_le t.text two
      obtain rfl := Option.some.inj (hp.symm.trans hp')
      rw [value]
      exact ⟨within, joined, .inr two⟩
    · obtain ⟨e, es, last, parts, hl, rfl⟩ := AttributeValue.exists_of_span? hp
      obtain ⟨part, one⟩ : ∃ part, (Item.valueOf ts).parts = [part] := by
        refine List.length_eq_one_iff.1 ?_
        have := congrArg List.length parts
        rw [List.length_map, List.length_cons] at this
        omega
      have verbatim := h.tail.verbatim_of_mem_valueOf (one ▸ List.mem_singleton.2 rfl)
      rw [one] at parts
      obtain ⟨rfl, rfl⟩ := List.cons.inj parts
      obtain rfl : part.excerpt = last := by simpa using hl
      have value : Item.directiveValue t.text (Item.valueOf ts) = part.excerpt := by
        unfold Item.directiveValue
        rw [hp]
        unfold AttributeValue.single?
        rw [one]
        cases part with
        | text e => rfl
        | code kind e => simp [ValuePart.excerpt, String.join, Span.join]
      rw [value]
      exact ⟨verbatim.within, joined, .inl verbatim⟩

end Source.Holds

/-- A value that is put together from parts does not read as its file does. -/
theorem not_verbatim_of_composed {e : Excerpt} (h : s.Holds ts) (composed : Composed ts e) :
    ¬ e.Verbatim s := by
  intro verbatim
  obtain ⟨t, us, part, -, a, mem, two, rfl⟩ := composed
  obtain ⟨n, vs, rest, -, rfl⟩ := exists_of_mem_directiveAttributes mem
  have held := (h.of_suffix part).tail.of_suffix rest
  obtain ⟨p, hp, value⟩ := Item.directiveValue_of_two_le n.text two
  obtain ⟨-, -, gaps⟩ := held.tail.of_span? hp
  dsimp only at verbatim two
  rw [value] at verbatim
  have size := verbatim.length_eq
  have total : Excerpt.length ⟨String.join ((Item.valueOf vs).parts.map (·.excerpt.value)), p⟩ =
      (((Item.valueOf vs).parts.map ValuePart.excerpt).map Excerpt.length).sum := by
    simp only [Excerpt.length, Excerpt.chars, String.toList_join, List.length_flatMap, List.map_map]
    rfl
  dsimp only at size
  omega

end ServerMarkup
