/-
# Where the reports of an item stand

The reports of an item are about parts of its tokens, and stand in the order of these
(`Reported`).  A report begins behind the first character of the item, unless it is about the
whole of it, and before the next item.

There is one exception.  The last part of an attribute's name that ends in a hyphen holds no
character and stands behind the name.  A construct can touch the name, and the parser takes a server
comment or a directive there for the next item, so that the report about the last part begins where
that item does (`Report.Bare`).
-/

import ServerMarkup.Proofs.Lexer.Spacing
import ServerMarkup.Proofs.Reports.Telling
import ServerMarkup.Proofs.Spans.Values

namespace ServerMarkup

/-- The offset at which the report begins. -/
def Report.start (r : Report) : Nat :=
  r.2.start.offset

/-- The report is about nothing, right behind the name of an attribute that ends in a hyphen. -/
structure Report.Bare (all : List Token) (r : Report) : Prop where
  code : r.1 = .propertyNotFound
  empty : r.2.stop.offset = r.start
  behind : ∃ t ∈ all, t.kind = .attribute ∧ t.text.chars.getLast? = some '-' ∧ t.stop = r.start

/-- The report is about a whole server comment or directive. -/
def Report.Opens (r : Report) : Prop :=
  r.1 ∈ [.includeNotFound, .recursiveInclude, .duplicateControlRegister]

/-- The report begins behind the start of the token, or is about what begins with it. -/
def Report.From (t : Token) (r : Report) : Prop :=
  t.start < r.start ∨ t.start = r.start ∧ t.kind.interrupts = true ∧ r.Opens

/-- The report begins before the token, or where it does if nothing can be reported there; a report
about nothing may begin there anyhow. -/
def Report.Before (all : List Token) (v : Token) (r : Report) : Prop :=
  r.start < v.start ∨ r.start = v.start ∧ (v.kind.interrupts = true → r.Bare all)

/-- The reports come one after the other in the source, the first of them not before the token `t`
and the last not behind the tokens `next`. -/
structure Reported (s : Source) (all : List Token) (t : Token) (next : List Token)
    (rs : List Report) : Prop where
  order : rs.Pairwise fun r r' => r.start < r'.start
  file : ∀ r ∈ rs, r.2.file = s.file
  begun : ∀ r ∈ rs, r.From t
  ended : ∀ r ∈ rs, ∀ v ∈ next, r.Before all v

/-- Tokens of a stretch of a source, with the space that is between those of a text. -/
structure Source.Spaces (s : Source) (ts : List Token) : Prop extends s.Holds ts where
  spaced : ts.IsChain (Token.Spaced false)
  walled : Walled ts
  filled : ts.IsChain fun t u => t.kind.isTight = true → u.start < u.stop

section
variable {s : Source} {all ts us next : List Token} {t u v : Token} {r : Report} {rs : List Report}

namespace Source.Spaces

theorem of_suffix (h : s.Spaces ts) (part : us <:+ ts) : s.Spaces us where
  toHolds := h.toHolds.of_suffix part
  spaced := h.spaced.suffix part
  walled t vs within := h.walled t vs (within.trans part)
  filled := h.filled.suffix part

theorem tail (h : s.Spaces (t :: ts)) : s.Spaces ts :=
  h.of_suffix (List.suffix_cons t ts)

theorem drop (h : s.Spaces ts) (n : Nat) : s.Spaces (ts.drop n) :=
  h.of_suffix (List.drop_suffix n ts)

end Source.Spaces

/-- A token after a tight one holds a character. -/
theorem Laid.filled {k : Option TokenKind} {a b : Nat} (h : Laid s k a ts b) :
    ts.IsChain fun t u => t.kind.isTight = true → u.start < u.stop := by
  induction ts generalizing k a with
  | nil => exact .nil
  | cons t ts ih =>
    obtain ⟨-, -, -, rest⟩ := h
    refine List.isChain_cons.2 ⟨fun u next tight => ?_, ih rest⟩
    cases ts with
    | nil => cases next
    | cons v vs =>
      obtain rfl := Option.some.inj next
      exact rest.2.2.1 tight

theorem spaces_tokenize (file text : String) :
    (Source.of file text).Spaces (tokenize file text) where
  toHolds := holds_tokenize file text
  spaced := (roomy_tokenize file text).spaced
  walled := (roomy_tokenize file text).walled
  filled := (LexerState.laid_tokens (k := none) (LexerState.on_start _)).filled

/-! ### Attributes -/

/-- If nothing stands behind the last separator, the text ends with it. -/
theorem getLast?_of_pieces {sep : Char} {cs : List Char} (h : (pieces sep cs).getLast? = some [])
    (filled : cs ≠ []) : cs.getLast? = some sep := by
  induction cs with
  | nil => exact absurd rfl filled
  | cons c cs ih =>
    rw [pieces] at h
    by_cases more : cs = []
    · rw [more] at h ⊢
      split at h
      · next same => rw [same, List.getLast?_singleton]
      · cases h
    · rw [List.getLast?_cons_of_ne_nil more]
      refine ih ?_ more
      split at h
      · rwa [List.getLast?_cons_of_ne_nil (pieces_ne_nil sep cs)] at h
      · cases hp : pieces sep cs with
        | nil => exact absurd hp (pieces_ne_nil sep cs)
        | cons p ps =>
          rw [hp] at h
          cases ps with
          | nil => cases h
          | cons q qs => simpa [List.getLast?_cons] using h

/-- The last part of a name stands at its end; without characters, the name ends in a hyphen. -/
theorem exists_of_lastPart (a : Attribute) (filled : a.name.chars ≠ []) : ∃ size,
    (lastPart a).name = a.name.slice (a.name.length - size) a.name.length ∧
      (size = 0 → a.name.chars.getLast? = some '-') := by
  refine ⟨_, rfl, fun none => ?_⟩
  have last := List.getLast?_eq_some_getLast (pieces_ne_nil '-' a.name.chars)
  refine getLast?_of_pieces ?_ filled
  rw [hyphenated, List.getLast?_map, last] at none
  rw [last, Option.some.injEq]
  simpa using none

/-- The literal text of a value is that of its only token. -/
theorem exists_valueTokens_of_single? {e : Excerpt} (single : (Item.valueOf ts).single? = some e) :
    ∃ u, Item.valueTokens ts = [u] ∧ u.text = e := by
  have parts : (Item.valueOf ts).parts = [.text e] := by
    unfold AttributeValue.single? at single
    split at single
    · next found =>
      cases single
      exact found
    · cases single
  have texts := Item.excerpts_valueOf ts
  rw [parts] at texts
  obtain ⟨u, one, text⟩ := List.map_eq_singleton_iff.1 texts.symm
  exact ⟨u, one, text⟩

namespace Source.Spaces

/-- The name of an attribute holds a character. -/
theorem filled_name (h : s.Spaces (t :: ts)) (name : t.kind = .attribute) :
    t.text.span = t.span ∧ t.start < t.stop := by
  have sound := h.sound t List.mem_cons_self
  exact ⟨sound.whole (by simp [Token.isCode, TokenKind.isCode, name]) (by simp [name]),
    sound.filled (by simp [name, TokenKind.mayBeEmpty])⟩

/-- The last part of a name ends where the name does; without characters, it is nothing behind a
hyphen. -/
theorem of_lastPart (h : s.Spaces (t :: ts)) (name : t.kind = .attribute) (value : AttributeValue) :
    let e := (lastPart (Attribute.of t.text value)).name
    e.span.file = s.file ∧ t.start ≤ e.span.start.offset ∧ e.span.stop.offset = t.stop ∧
      (e.span.start.offset < t.stop ∨
        e.span.start.offset = t.stop ∧ t.text.chars.getLast? = some '-') := by
  obtain ⟨whole, filled⟩ := h.filled_name name
  have text := h.head.verbatim
  have start : t.text.span.start.offset = t.start := congrArg (·.start.offset) whole
  have stop : t.text.span.stop.offset = t.stop := congrArg (·.stop.offset) whole
  have length := text.length_eq
  rw [start, stop] at length
  obtain ⟨size, same, hyphen⟩ := exists_of_lastPart (Attribute.of t.text value)
    (List.ne_nil_of_length_pos (Nat.lt_of_lt_of_eq (Nat.sub_pos_of_lt filled) length.symm))
  change (lastPart _).name = t.text.slice (t.text.length - size) t.text.length at same
  have begins := t.text.start_slice (t.text.length - size) t.text.length
  have ends := t.text.stop_slice (t.text.length - size) t.text.length
  rw [start] at begins ends
  dsimp only
  rw [same]
  refine ⟨text.within.file, by omega, by omega, ?_⟩
  by_cases none : size = 0
  · exact .inr ⟨by omega, hyphen none⟩
  · exact .inl (by omega)

/-- A declared ID stands in the only token of the value. -/
theorem of_id (h : s.Spaces (t :: ts)) {e : Excerpt}
    (declared : (Attribute.of t.text (Item.valueOf ts)).id? = some e) :
    e.span.file = s.file ∧ t.stop ≤ e.span.start.offset ∧
      ∃ u ∈ Item.valueTokens ts, e.span.start.offset < u.stop := by
  obtain ⟨-, value, single, rfl, some⟩ := Attribute.id?_eq_some.1 declared
  obtain ⟨u, one, rfl⟩ := exists_valueTokens_of_single? single
  have within : u ∈ Item.valueTokens ts := one ▸ List.mem_singleton.2 rfl
  have after := h.stop_le_start ((Item.isPrefix_valueTokens ts).subset within)
  have inner := h.tail.faithful u ((Item.isPrefix_valueTokens ts).subset within)
  obtain ⟨verbatim, trimmed⟩ := h.tail.verbatim_of_single? single
  have size := verbatim.length_eq
  have order := verbatim.within.start_le
  have filled : u.text.trim.length ≠ 0 := fun none => by
    have empty := List.eq_nil_of_length_eq_zero none
    rw [Excerpt.chars, String.toList_eq_nil_iff] at empty
    simp [empty] at some
  rw [trimmed.length_eq] at filled
  have begins : u.text.span.start.offset ≤ u.text.trim.span.start.offset := by
    rw [Excerpt.trim, Excerpt.start_slice]
    exact Nat.le_add_right _ _
  have ends : u.text.trim.span.stop.offset ≤ u.text.span.stop.offset := by
    rw [Excerpt.trim, Excerpt.stop_slice]
    omega
  have := inner.start_le
  have := inner.le_stop
  exact ⟨trimmed.within.file, by omega, u, within, by omega⟩

/-- A report of an attribute is about its name or in its value, or about nothing behind the name. -/
theorem of_attribute_tells (h : s.Spaces (t :: ts)) (part : t :: ts <:+ all)
    (name : t.kind = .attribute) (told : (Attribute.of t.text (Item.valueOf ts)).Tells r) :
    r.2.file = s.file ∧ t.start ≤ r.start ∧
      (r.start < t.stop ∨ (∃ u ∈ Item.valueTokens ts, r.start < u.stop) ∨
        r.start = t.stop ∧ r.Bare all) := by
  cases told with
  | name =>
    obtain ⟨whole, filled⟩ := h.filled_name name
    have start : t.text.span.start.offset = t.start := congrArg (·.start.offset) whole
    exact ⟨h.head.verbatim.within.file, Nat.le_of_eq start.symm, .inl (start.trans_lt filled)⟩
  | lastPart =>
    obtain ⟨file, after, ends, filled | ⟨none, hyphen⟩⟩ := h.of_lastPart name (Item.valueOf ts)
    · exact ⟨file, after, .inl filled⟩
    · exact ⟨file, after, .inr (.inr ⟨none, rfl, ends.trans none.symm, t,
        part.subset List.mem_cons_self, name, hyphen, none.symm⟩)⟩
  | id declared =>
    obtain ⟨file, after, u, within, before⟩ := h.of_id declared
    exact ⟨file, (h.start_le_stop List.mem_cons_self).trans after, .inr (.inl ⟨u, within, before⟩)⟩

/-- What is no part of a value comes behind it. -/
theorem stop_le_of_value (h : s.Spaces (t :: ts)) (value : u ∈ Item.valueTokens ts)
    (later : v ∈ ts.drop (Item.valueTokens ts).length) : u.stop ≤ v.start := by
  have order := h.tail.order
  rw [← Item.valueTokens_append_drop ts] at order
  exact (List.pairwise_append.1 order).2.2 u value v later

/-- There is space between the name of an attribute and the next. -/
theorem stop_lt_next (h : s.Spaces (t :: ts)) (name : t.kind = .attribute)
    (next : (ts.drop (Item.valueTokens ts).length).head? = some v) (another : v.kind = .attribute) :
    t.stop < v.start := by
  obtain ⟨first, -⟩ := List.isChain_cons.1 h.spaced
  cases hv : Item.valueTokens ts with
  | nil =>
    rw [hv, List.length_nil, List.drop_zero] at next
    exact (first v next).name name (.inl another)
  | cons u us =>
    have value : u ∈ Item.valueTokens ts := hv ▸ List.mem_cons_self
    have behind := h.stop_le_of_value value (List.mem_of_mem_head? next)
    have mem := (Item.isPrefix_valueTokens ts).subset value
    have after := h.stop_le_start mem
    have order := h.tail.start_le_stop mem
    obtain literal | code := Item.kind_of_mem_valueTokens value
    · have head : ts.head? = some u := by
        obtain ⟨vs, whole⟩ := Item.isPrefix_valueTokens ts
        rw [← whole, hv]
        rfl
      have := (first u head).name name (.inr (.inl literal))
      omega
    · have := (h.tail.sound u mem).filled (by
        unfold Token.isCode TokenKind.isCode at code
        split at code <;> simp_all [TokenKind.mayBeEmpty])
      omega

/-- A report of an attribute begins before what comes behind the value. -/
theorem before_of_attribute_tells (h : s.Spaces (t :: ts)) (part : t :: ts <:+ all)
    (name : t.kind = .attribute) (told : (Attribute.of t.text (Item.valueOf ts)).Tells r)
    (later : v ∈ ts.drop (Item.valueTokens ts).length) : r.Before all v := by
  have after := h.stop_le_start ((List.drop_suffix _ ts).subset later)
  obtain ⟨-, -, inName | ⟨u, value, inValue⟩ | ⟨behind, bare⟩⟩ :=
    h.of_attribute_tells part name told
  · exact .inl (Nat.lt_of_lt_of_le inName after)
  · exact .inl (Nat.lt_of_lt_of_le inValue (h.stop_le_of_value value later))
  · obtain lt | touches := Nat.lt_or_eq_of_le after
    · exact .inl (by omega)
    · exact .inr ⟨by omega, fun _ => bare⟩

/-- A report of an attribute begins before the next attribute. -/
theorem lt_of_attribute_tells (h : s.Spaces (t :: ts)) (part : t :: ts <:+ all)
    (name : t.kind = .attribute) (told : (Attribute.of t.text (Item.valueOf ts)).Tells r)
    (next : (ts.drop (Item.valueTokens ts).length).head? = some v) (another : v.kind = .attribute) :
    r.start < v.start := by
  have later := List.mem_of_mem_head? next
  obtain lt | ⟨touches, -⟩ := h.before_of_attribute_tells part name told later
  · exact lt
  · obtain ⟨-, -, inName | ⟨u, value, inValue⟩ | ⟨behind, -⟩⟩ := h.of_attribute_tells part name told
    · have := h.stop_le_start ((List.drop_suffix _ ts).subset later)
      omega
    · have := h.stop_le_of_value value later
      omega
    · rw [behind]
      exact h.stop_lt_next name next another

end Source.Spaces

/-- What comes first behind a value is no part of one. -/
theorem isValue_next (next : (ts.drop (Item.valueTokens ts).length).head? = some v) :
    v.isCode = false ∧ v.kind ≠ .attributeValue := by
  have other := List.head?_dropWhile_not (fun t => (ValuePart.ofToken? t).isSome) ts
  rw [Item.drop_valueTokens] at next
  rw [next] at other
  change (ValuePart.ofToken? v).isSome = false at other
  rw [Item.isSome_ofToken?, Bool.or_eq_false_iff] at other
  exact ⟨other.1, by simpa using other.2⟩

theorem eq_nil_of_attributesTell (told : AttributesTell rs []) : rs = [] := by
  cases told
  rfl

/-- The attributes of a tag are reported one after the other. -/
theorem reported_attributes (h : s.Spaces ts) (part : ts <:+ all) :
    ∀ rs, AttributesTell rs (Item.tagAttributes ts).1 →
      rs.Pairwise (fun r r' => r.start < r'.start) ∧ ∀ r ∈ rs, r.2.file = s.file ∧
        (∃ v, ts.head? = some v ∧ (v.kind = .attribute ∨ v.isCode = true) ∧ v.start ≤ r.start) ∧
        ∀ v ∈ ts.drop (Item.tagAttributes ts).2.2, r.Before all v := by
  fun_induction Item.tagAttributes ts with
  | case1 | case4 | case5 | case6 =>
    intro rs told
    rw [eq_nil_of_attributesTell told]
    exact ⟨.nil, List.forall_mem_nil _⟩
  | case2 t ts kind hk as ending n hr ih =>
    intro rs told
    rw [hr] at ih
    obtain ⟨order, each⟩ := ih h.tail ((List.suffix_cons ..).trans part) rs told
    refine ⟨order, fun r mem => ?_⟩
    obtain ⟨file, ⟨v, next, -, le⟩, ended⟩ := each r mem
    have := h.stop_le_start (List.mem_of_mem_head? next)
    have := h.start_le_stop List.mem_cons_self
    refine ⟨file, ⟨t, rfl, .inr (by simp [Token.isCode, TokenKind.isCode, hk]), by omega⟩, ended⟩
  | case3 t ts hk size as ending n hr ih =>
    intro rs told
    have later := List.drop_suffix size ts
    rw [hr] at ih
    have behind : (t :: ts).drop (n + size + 1) = (ts.drop size).drop n := by
      rw [List.drop_succ_cons, List.drop_drop, Nat.add_comm]
    have rest : ∀ rs, AttributesTell rs as → rs.Pairwise (fun r r' => r.start < r'.start) ∧
        ∀ r ∈ rs, r.2.file = s.file ∧ (∃ v, (t :: ts).head? = some v ∧
          (v.kind = .attribute ∨ v.isCode = true) ∧ v.start ≤ r.start) ∧
          ∀ v ∈ (t :: ts).drop (n + size + 1), r.Before all v := by
      intro rs told
      obtain ⟨order, each⟩ := ih (h.tail.drop size)
        (later.trans ((List.suffix_cons ..).trans part)) rs told
      refine ⟨order, fun r mem => ?_⟩
      obtain ⟨file, ⟨v, next, -, le⟩, ended⟩ := each r mem
      have := h.stop_le_start (later.subset (List.mem_of_mem_head? next))
      have := h.start_le_stop List.mem_cons_self
      exact ⟨file, ⟨t, rfl, .inl hk, by omega⟩, behind ▸ ended⟩
    rcases told with _ | ⟨own, others⟩ | others
    · exact ⟨.nil, List.forall_mem_nil _⟩
    · obtain ⟨-, each⟩ := ih (h.tail.drop size)
        (later.trans ((List.suffix_cons ..).trans part)) _ others
      obtain ⟨order, each'⟩ := rest _ others
      obtain ⟨file, le, -⟩ := h.of_attribute_tells part hk own
      refine ⟨List.pairwise_cons.2 ⟨fun r mem => ?_, order⟩, List.forall_mem_cons.2 ⟨?_, each'⟩⟩
      · obtain ⟨-, ⟨v, next, known, le⟩, -⟩ := each r mem
        obtain name | code := known
        · exact Nat.lt_of_lt_of_le (h.lt_of_attribute_tells part hk own next name) le
        · simp [(isValue_next next).1] at code
      · refine ⟨file, ⟨t, rfl, .inl hk, le⟩, fun v later => ?_⟩
        rw [behind] at later
        exact h.before_of_attribute_tells part hk own (List.mem_of_mem_drop later)
    · exact rest rs others

/-! ### Directives -/

namespace Item

/-- No value is nothing behind the name. -/
theorem directiveValue_of_nil {name : Excerpt} (none : valueTokens ts = []) :
    (directiveValue name (valueOf ts)).span = .empty name.span.file name.span.stop := by
  have parts : (valueOf ts).parts = [] := by
    have texts := excerpts_valueOf ts
    rw [none] at texts
    exact List.map_eq_nil_iff.1 texts
  unfold directiveValue AttributeValue.single? AttributeValue.span?
  rw [parts]
  rfl

/-- A value begins with its first token. -/
theorem start_directiveValue {name : Excerpt} (some : valueTokens ts = u :: us) :
    (directiveValue name (valueOf ts)).span.start = u.text.span.start := by
  have texts := excerpts_valueOf ts
  rw [some, List.map_cons] at texts
  obtain ⟨part, parts, hp, first, -⟩ := List.map_eq_cons_iff.1 texts
  rw [← first]
  unfold directiveValue AttributeValue.single? AttributeValue.span?
  rw [hp]
  cases part with
  | text e =>
    cases parts with
    | nil => rfl
    | cons q qs => simp [List.getLast?_cons, ValuePart.excerpt, Span.join]
  | code kind e => simp [List.getLast?_cons, ValuePart.excerpt, Span.join]

end Item

/-- There is space before a construct that comes next. -/
theorem spaced_of_bordered {ts : List Token} (border : Bordered (t :: ts))
    (going : t.kind ≠ .endDirective) :
    (∀ u, ts.head? = some u → Token.Spaced true t u ∧ u.kind.isInner = true) ∧ Bordered ts := by
  cases ts with
  | nil => exact ⟨nofun, trivial⟩
  | cons u us =>
    obtain ⟨first, rest⟩ := border going
    refine ⟨fun v next => ?_, rest⟩
    obtain rfl := Option.some.inj next
    exact first

theorem bordered_of_append (border : Bordered (us ++ ts))
    (going : ∀ u ∈ us, u.kind ≠ .endDirective) : Bordered ts := by
  induction us with
  | nil => exact border
  | cons u us ih =>
    obtain ⟨first, rest⟩ := List.forall_mem_cons.1 going
    exact ih (spaced_of_bordered border first).2 rest

/-- What comes behind tokens of a directive is of the directive too. -/
theorem isInner_of_bordered (border : Bordered (us ++ t :: ts)) (filled : us ≠ [])
    (going : ∀ u ∈ us, u.kind ≠ .endDirective) : t.kind.isInner = true := by
  induction us with
  | nil => exact absurd rfl filled
  | cons u us ih =>
    obtain ⟨first, rest⟩ := List.forall_mem_cons.1 going
    obtain ⟨next, later⟩ := spaced_of_bordered border first
    cases us with
    | nil => exact (next t rfl).2
    | cons w ws => exact ih later (List.cons_ne_nil w ws) rest

/-- No part of a value ends a directive. -/
theorem ne_endDirective_of_value (value : u ∈ Item.valueTokens ts) : u.kind ≠ .endDirective := by
  obtain literal | code := Item.kind_of_mem_valueTokens value
  · simp [literal]
  · rintro mark
    simp [Token.isCode, TokenKind.isCode, mark] at code

namespace Source.Spaces

/-- The value of an attribute in a directive begins behind the name. -/
theorem stop_le_directiveValue (h : s.Spaces (t :: ts)) (name : t.kind = .attribute) :
    t.stop ≤ (Item.directiveValue t.text (Item.valueOf ts)).span.start.offset := by
  cases hv : Item.valueTokens ts with
  | nil =>
    rw [Item.directiveValue_of_nil hv]
    exact Nat.le_of_eq (congrArg (·.stop.offset) (h.filled_name name).1).symm
  | cons u us =>
    have mem : u ∈ ts := (Item.isPrefix_valueTokens ts).subset (hv ▸ List.mem_cons_self)
    rw [Item.start_directiveValue hv]
    exact Nat.le_trans (h.stop_le_start mem) (h.tail.faithful u mem).start_le

/-- Two pieces of literal text are never neighbours, so code stands between a literal piece that is
not the last and what comes behind the value. -/
theorem lt_of_literal (h : s.Spaces (t :: ts)) {w : Token}
    (parts : Item.valueTokens ts = u :: w :: us) (literal : u.kind = .attributeValue)
    (later : v ∈ ts.drop (Item.valueTokens ts).length) : u.start < v.start := by
  have whole := Item.valueTokens_append_drop ts
  rw [parts] at whole
  have first : u ∈ Item.valueTokens ts := parts ▸ List.mem_cons_self
  have second : w ∈ Item.valueTokens ts := parts ▸ List.mem_cons_of_mem _ List.mem_cons_self
  have among := (Item.isPrefix_valueTokens ts).subset second
  have code : w.isCode = true := by
    have parted := h.tail.parted
    rw [← whole] at parted
    exact (Item.kind_of_mem_valueTokens second).resolve_left
      ((List.isChain_cons_cons.1 parted).1 literal)
  have marks := (h.tail.sound w among).marked code
  have inner := (h.tail.faithful w among).verbatim.within.start_le
  calc u.start
    _ ≤ u.stop := h.tail.start_le_stop ((Item.isPrefix_valueTokens ts).subset first)
    _ ≤ w.start := by
      have order := h.tail.order
      rw [← whole] at order
      exact (List.pairwise_cons.1 order).1 w (by simp)
    _ < w.stop := by omega
    _ ≤ v.start := h.stop_le_of_value second later

/-- It begins before what comes first behind it, or where that does, but not where a construct
does. -/
theorem next_directiveValue (h : s.Spaces (t :: ts)) (name : t.kind = .attribute)
    (border : Bordered (t :: ts)) (next : (ts.drop (Item.valueTokens ts).length).head? = some v) :
    (Item.directiveValue t.text (Item.valueOf ts)).span.start.offset < v.start ∨
      (Item.directiveValue t.text (Item.valueOf ts)).span.start.offset = v.start ∧
        v.kind.interrupts = false := by
  have split {a b : Nat} (le : a ≤ b) (construct : v.kind.interrupts = true → a < b) :
      a < b ∨ a = b ∧ v.kind.interrupts = false := by
    cases hi : v.kind.interrupts with
    | true => exact .inl (construct hi)
    | false => exact (Nat.lt_or_eq_of_le le).imp_right fun same => ⟨same, rfl⟩
  have later := List.mem_of_mem_head? next
  obtain ⟨first, border⟩ := spaced_of_bordered border (by simp [name])
  have whole := Item.valueTokens_append_drop ts
  cases hv : Item.valueTokens ts with
  | nil =>
    rw [hv, List.length_nil, List.drop_zero] at next
    rw [Item.directiveValue_of_nil hv]
    have stop : t.text.span.stop.offset = t.stop :=
      congrArg (·.stop.offset) (h.filled_name name).1
    have after := h.stop_le_start (List.mem_of_mem_head? next)
    refine split (by change t.text.span.stop.offset ≤ _; omega) fun construct => ?_
    have := (first v next).1.name name (.inr (.inr ⟨rfl, construct⟩))
    change t.text.span.stop.offset < _
    omega
  | cons u us =>
    have value : u ∈ Item.valueTokens ts := hv ▸ List.mem_cons_self
    have mem : u ∈ ts := (Item.isPrefix_valueTokens ts).subset value
    have behind := h.stop_le_of_value value later
    have inner := h.tail.faithful u mem
    have sound := h.tail.sound u mem
    have order := inner.verbatim.within.start_le
    rw [Item.start_directiveValue hv]
    by_cases code : u.isCode = true
    · have := (sound.marked code).2
      exact .inl (by omega)
    · have literal := (Item.kind_of_mem_valueTokens value).resolve_right code
      have start : u.text.span.start.offset = u.start :=
        congrArg (·.start.offset) (sound.whole (by simpa using code) (by simp [literal]))
      rw [start]
      cases us with
      | nil =>
        rw [hv] at whole next
        rw [← whole] at border
        have := inner.le_stop
        refine split (by omega) fun construct => ?_
        have space := (spaced_of_bordered border (by simp [literal])).1 v next
        exact space.1.value literal rfl construct
      | cons w ws => exact .inl (h.lt_of_literal hv literal later)

/-- It begins before all that comes behind it, but for what it may touch. -/
theorem before_directiveValue (h : s.Spaces (t :: ts)) (name : t.kind = .attribute)
    (border : Bordered (t :: ts)) (later : v ∈ ts.drop (Item.valueTokens ts).length) :
    (Item.directiveValue t.text (Item.valueOf ts)).span.start.offset < v.start ∨
      (Item.directiveValue t.text (Item.valueOf ts)).span.start.offset = v.start ∧
        v.kind.interrupts = false := by
  have whole := Item.valueTokens_append_drop ts
  cases hd : ts.drop (Item.valueTokens ts).length with
  | nil => simp [hd] at later
  | cons w ws =>
    have next : (ts.drop (Item.valueTokens ts).length).head? = some w := by rw [hd]; rfl
    have first := h.next_directiveValue name border next
    rw [hd] at whole later
    obtain rfl | behind := List.mem_cons.1 later
    · exact first
    -- What comes first holds a character: it is of the directive, and of no value.
    · rw [← whole, ← List.cons_append] at border
      have inner := isInner_of_bordered border (List.cons_ne_nil _ _)
        (List.forall_mem_cons.2 ⟨by simp [name], fun u => ne_endDirective_of_value⟩)
      have held := h.tail.drop (Item.valueTokens ts).length
      rw [hd] at held
      have filled : w.start < w.stop := (held.sound w List.mem_cons_self).filled (by
        have plain := isValue_next next
        unfold TokenKind.isInner TokenKind.isPlain TokenKind.interrupts at inner
        unfold TokenKind.mayBeEmpty
        split <;> simp_all)
      have := held.stop_le_start behind
      obtain lt | ⟨same, -⟩ := first <;> exact .inl (by omega)

end Source.Spaces

/-- An attribute of a directive stands among the tokens `ts`, and before those that come next; only
its value may begin where the next one does, but not where a construct does. -/
structure Declares (s : Source) (ts next : List Token) (a : Excerpt × AttributeValue) : Prop where
  name_file : a.1.span.file = s.file
  value_file : (Item.directiveValue a.1 a.2).span.file = s.file
  begun : ∃ w ∈ ts, w.start ≤ a.1.span.start.offset
  order : a.1.span.start.offset ≤ (Item.directiveValue a.1 a.2).span.start.offset
  name : ∀ v ∈ next, a.1.span.start.offset < v.start
  value : ∀ v ∈ next,
    (Item.directiveValue a.1 a.2).span.start.offset < v.start ∨
      (Item.directiveValue a.1 a.2).span.start.offset = v.start ∧ v.kind.interrupts = false

/-- The attributes of a directive stand one after the other. -/
theorem declares_directiveAttributes (h : s.Spaces ts) (border : Bordered ts) :
    (Item.directiveAttributes ts).1.Pairwise
        (fun a b => a.1.span.start.offset < b.1.span.start.offset) ∧
      ∀ a ∈ (Item.directiveAttributes ts).1,
        Declares s ts (ts.drop (Item.directiveAttributes ts).2) a := by
  fun_induction Item.directiveAttributes ts with
  | case1 | case3 | case4 => exact ⟨.nil, List.forall_mem_nil _⟩
  | case2 t ts hk size as n hr ih =>
    have later := List.drop_suffix size ts
    have behind : (t :: ts).drop (n + size + 1) = (ts.drop size).drop n := by
      rw [List.drop_succ_cons, List.drop_drop, Nat.add_comm]
    have border' : Bordered (ts.drop size) := by
      have rest := (spaced_of_bordered border (by simp [hk])).2
      rw [← Item.valueTokens_append_drop ts] at rest
      exact bordered_of_append rest fun u => ne_endDirective_of_value
    obtain ⟨order, each⟩ := ih (h.tail.drop size) border'
    rw [hr] at order each
    obtain ⟨whole, filled⟩ := h.filled_name hk
    have start : t.text.span.start.offset = t.start := congrArg (·.start.offset) whole
    have after := h.stop_le_directiveValue hk
    refine ⟨List.pairwise_cons.2 ⟨fun a mem => ?_, order⟩, List.forall_mem_cons.2 ⟨?_, ?_⟩⟩
    · obtain ⟨w, among, le⟩ := (each a mem).begun
      have := h.stop_le_start (later.subset among)
      dsimp only
      omega
    · refine ⟨h.head.verbatim.within.file, h.toHolds.directiveValue.1.file,
        ⟨t, List.mem_cons_self, Nat.le_of_eq start.symm⟩, by dsimp only; omega, ?_, ?_⟩
      · intro v mem
        rw [behind] at mem
        have := h.stop_le_start (later.subset (List.mem_of_mem_drop mem))
        dsimp only
        omega
      · intro v mem
        rw [behind] at mem
        exact h.before_directiveValue hk border (List.mem_of_mem_drop mem)
    · intro a mem
      obtain ⟨nameFile, valueFile, ⟨w, among, le⟩, inOrder, name, value⟩ := each a mem
      rw [behind]
      exact ⟨nameFile, valueFile, ⟨w, List.mem_cons_of_mem _ (later.subset among), le⟩, inOrder,
        name, value⟩

/-- The attributes of a directive are those that are read, but for its kind. -/
theorem directiveOf_sublist (as : List (Excerpt × AttributeValue)) :
    (Item.directiveOf as).2.Sublist (as.map fun a => (a.1, Item.directiveValue a.1 a.2)) := by
  unfold Item.directiveOf
  dsimp only
  split
  · split
    · exact List.Sublist.refl _
    · exact List.sublist_cons_self _ _
  · exact List.Sublist.refl _

/-- The reports of names are some of those that there could be. -/
theorem sublist_of_namesTell {as : DirectiveAttributes} (told : NamesTell rs as) :
    rs.Sublist (as.map fun a => (.propertyNotFound, a.1.span)) := by
  induction told with
  | nil => exact List.nil_sublist _
  | cons same _ ih =>
    rw [same]
    exact ih.cons_cons _
  | cons_right _ ih => exact ih.cons _

/-! ### Items -/

namespace Reported

theorem nil : Reported s all t next [] :=
  ⟨.nil, List.forall_mem_nil _, List.forall_mem_nil _, List.forall_mem_nil _⟩

theorem one (file : r.2.file = s.file) (begun : r.From t) (ended : ∀ v ∈ next, r.Before all v) :
    Reported s all t next [r] where
  order := List.pairwise_singleton _ _
  file := List.forall_mem_singleton.2 file
  begun := List.forall_mem_singleton.2 begun
  ended := List.forall_mem_singleton.2 ended

theorem atMostOne {allowed : List Report} (told : AtMostOne allowed rs)
    (each : ∀ r ∈ allowed, r.2.file = s.file ∧ r.From t ∧ ∀ v ∈ next, r.Before all v) :
    Reported s all t next rs := by
  obtain rfl | ⟨r, mem, rfl⟩ := told
  · exact .nil
  · obtain ⟨file, begun, ended⟩ := each r mem
    exact .one file begun ended

/-- Reports after those of the same item. -/
theorem append {rs' : List Report} (h : Reported s all t next rs) (h' : Reported s all t next rs')
    (order : ∀ r ∈ rs, ∀ r' ∈ rs', r.start < r'.start) : Reported s all t next (rs ++ rs') where
  order := List.pairwise_append.2 ⟨h.order, h'.order, order⟩
  file := List.forall_mem_append.2 ⟨h.file, h'.file⟩
  begun := List.forall_mem_append.2 ⟨h.begun, h'.begun⟩
  ended := List.forall_mem_append.2 ⟨h.ended, h'.ended⟩

end Reported

namespace Source.Spaces

/-- The name of a tag stands behind the mark, and holds a character. -/
theorem of_tagName? (h : s.Spaces (t :: ts)) (tight : t.kind.isTight = true) {tag : TagName}
    {n : Nat} (found : Item.tagName? ts = some (tag, n)) : tag.span.file = s.file ∧
      t.stop ≤ tag.span.start.offset ∧ ∀ v ∈ ts.drop n, tag.span.start.offset < v.start := by
  have filled := (List.isChain_cons.1 h.filled).1
  have first {u : Token} {us : List Token} (held : s.Spaces (t :: u :: us))
      (name : u.kind = .elementName ∨ u.kind = .elementNamespace) (some : u.start < u.stop) :
      u.text.span.file = s.file ∧ t.stop ≤ u.text.span.start.offset ∧
        ∀ v ∈ us, u.text.span.start.offset < v.start := by
    have whole := (held.tail.sound u List.mem_cons_self).whole
      (by obtain hk | hk := name <;> simp [Token.isCode, TokenKind.isCode, hk])
      (by obtain hk | hk := name <;> simp [hk])
    have start : u.text.span.start.offset = u.start := congrArg (·.start.offset) whole
    rw [start]
    refine ⟨held.tail.head.verbatim.within.file, held.stop_le_start List.mem_cons_self, ?_⟩
    exact fun v mem => Nat.lt_of_lt_of_le some (held.tail.stop_le_start mem)
  unfold Item.tagName? at found
  split at found
  · next u us =>
    split at found
    · next name =>
      cases found
      exact first h (.inl name) (filled u rfl tight)
    · next w ws space =>
      split at found
      · cases found
        obtain ⟨file, after, before⟩ := first h (.inr space) (filled u rfl tight)
        exact ⟨file, after, fun v mem => before v (List.mem_cons_of_mem _ mem)⟩
      · cases found
    · cases found
  · cases found

/-- The reports of a directive stand in their order. -/
theorem reported_directive (h : s.Spaces (t :: ts)) (mark : t.kind = .startDirective)
    (told : (Item.directiveOf (Item.directiveAttributes ts).1).2.Tells
      (Item.spanOver t (ts.take (Item.directiveAttributes ts).2)) rs) :
    Reported s all t (ts.drop (Item.directiveAttributes ts).2) rs := by
  obtain ⟨order, each⟩ := declares_directiveAttributes h.tail
    (h.walled t ts (List.suffix_refl _) mark)
  have kept := directiveOf_sublist (Item.directiveAttributes ts).1
  have filled : t.start < t.stop := (h.sound t List.mem_cons_self).filled
    (by simp [mark, TokenKind.mayBeEmpty])
  have behind {a : Excerpt × AttributeValue} (mem : a ∈ (Item.directiveAttributes ts).1) :
      t.start < a.1.span.start.offset := by
    obtain ⟨w, among, le⟩ := (each a mem).begun
    have := h.stop_le_start among
    omega
  cases told with
  | value mem =>
    obtain ⟨a, among, rfl⟩ := List.mem_map.1 (kept.subset mem)
    have known := each a among
    refine .one known.value_file (.inl (Nat.lt_of_lt_of_le (behind among) known.order)) ?_
    intro v later
    obtain lt | ⟨touches, still⟩ := known.value v later
    · exact .inl lt
    · exact .inr ⟨touches, fun construct => by simp [still] at construct⟩
  | registered =>
    refine .one h.head.span_in.file (.inr ⟨rfl, by simp [mark, TokenKind.interrupts], ?_⟩) ?_
    · simp [Report.Opens]
    · intro v later
      exact .inl (Nat.lt_of_lt_of_le filled (h.stop_le_start (List.mem_of_mem_drop later)))
  | names told =>
    have some := (sublist_of_namesTell told).trans (kept.map _)
    rw [List.map_map] at some
    have from_ : ∀ r ∈ rs, ∃ a ∈ (Item.directiveAttributes ts).1,
        (.propertyNotFound, a.1.span) = r := fun r mem => List.mem_map.1 (some.subset mem)
    have inOrder : ((Item.directiveAttributes ts).1.map fun a =>
        (DiagnosticCode.propertyNotFound, a.1.span)).Pairwise
          fun r r' => Report.start r < Report.start r' := List.pairwise_map.2 order
    refine ⟨inOrder.sublist some, ?_, ?_, ?_⟩
    · intro r mem
      obtain ⟨a, among, rfl⟩ := from_ r mem
      exact (each a among).name_file
    · intro r mem
      obtain ⟨a, among, rfl⟩ := from_ r mem
      exact .inl (behind among)
    · intro r mem v later
      obtain ⟨a, among, rfl⟩ := from_ r mem
      exact .inl ((each a among).name v later)

/-- A report about the name of a tag begins behind the mark, and before what follows the name. -/
theorem report_tagName (h : s.Spaces (t :: ts)) (tight : t.kind.isTight = true) {tag : TagName}
    {n : Nat} (found : Item.tagName? ts = some (tag, n)) (code : DiagnosticCode) :
    tag.span.file = s.file ∧ Report.From t (code, tag.span) ∧
      ∀ v ∈ ts.drop n, Report.start (code, tag.span) < v.start := by
  obtain ⟨file, after, before⟩ := h.of_tagName? tight found
  have filled : t.start < t.stop := (h.sound t List.mem_cons_self).filled (by
    unfold TokenKind.isTight at tight
    split at tight <;> simp_all [TokenKind.mayBeEmpty])
  exact ⟨file, .inl (Nat.lt_of_lt_of_le filled after), before⟩

/-- The reports of a server comment are about the whole of it. -/
theorem reported_comment (h : s.Spaces (t :: ts)) (mark : t.kind = .serverComment) {text : Excerpt}
    (told : (ItemForm.comment text t.span).Tells rs) : Reported s all t ts rs := by
  have filled : t.start < t.stop := (h.sound t List.mem_cons_self).filled
    (by simp [mark, TokenKind.mayBeEmpty])
  have opens {code : DiagnosticCode}
      (known : code ∈ [.includeNotFound, .recursiveInclude, .duplicateControlRegister]) :
      t.span.file = s.file ∧ Report.From t (code, t.span) ∧
        ∀ v ∈ ts, Report.Before all v (code, t.span) := by
    refine ⟨h.head.span_in.file, .inr ⟨rfl, by simp [mark, TokenKind.interrupts], known⟩, ?_⟩
    exact fun v later => .inl (Nat.lt_of_lt_of_le filled (h.stop_le_start later))
  exact .atMostOne told (List.forall_mem_cons.2
    ⟨opens (by simp), List.forall_mem_singleton.2 (opens (by simp))⟩)

/-- The report of a closing tag is about its name. -/
theorem reported_endTag (h : s.Spaces (t :: ts)) (mark : t.kind = .tagOpenSlash) {tag : TagName}
    {n : Nat} (found : Item.tagName? ts = some (tag, n)) (part : next <:+ ts.drop n)
    (told : (ItemForm.endTag tag).Tells rs) : Reported s all t next rs := by
  obtain ⟨file, begun, before⟩ := h.report_tagName (by simp [mark, TokenKind.isTight]) found
    .unexpectedClosingTag
  exact .atMostOne told (List.forall_mem_singleton.2
    ⟨file, begun, fun v later => .inl (before v (part.subset later))⟩)

/-- The reports of a start tag stand in their order: that about its name comes first. -/
theorem reported_startTag (h : s.Spaces (t :: ts)) (part : t :: ts <:+ all)
    (mark : t.kind = .tagOpen) {tag : TagName} {n : Nat} (found : Item.tagName? ts = some (tag, n))
    {ending : TagEnd} {span : Span} (told : (ItemForm.startTag
      ⟨tag, (Item.tagAttributes (ts.drop n)).1, ending, span⟩).Tells rs) :
    Reported s all t ((ts.drop n).drop (Item.tagAttributes (ts.drop n)).2.2) rs := by
  have about := h.report_tagName (by simp [mark, TokenKind.isTight]) found
  have later : ts.drop n <:+ t :: ts := (List.drop_suffix n ts).trans (List.suffix_cons t ts)
  obtain ⟨first, rest, rfl, name, attributes⟩ := told
  obtain ⟨order, each⟩ := reported_attributes (h.of_suffix later) (later.trans part) rest attributes
  have own : Reported s all t ((ts.drop n).drop (Item.tagAttributes (ts.drop n)).2.2) first := by
    have known {code : DiagnosticCode} : tag.span.file = s.file ∧ Report.From t (code, tag.span) ∧
        ∀ v ∈ (ts.drop n).drop (Item.tagAttributes (ts.drop n)).2.2,
          Report.Before all v (code, tag.span) := by
      obtain ⟨file, begun, before⟩ := about code
      exact ⟨file, begun, fun v later => .inl (before v (List.mem_of_mem_drop later))⟩
    exact .atMostOne name (List.forall_mem_cons.2 ⟨known, List.forall_mem_singleton.2 known⟩)
  -- What is reported of the attributes begins with the first of them or later.
  refine own.append ⟨order, fun r mem => (each r mem).1, fun r mem => ?_,
    fun r mem => (each r mem).2.2⟩ fun r mem r' mem' => ?_
  · obtain ⟨-, ⟨v, next, -, le⟩, -⟩ := each r mem
    have behind := h.stop_le_start (List.mem_of_mem_drop (List.mem_of_mem_head? next))
    have filled : t.start < t.stop := (h.sound t List.mem_cons_self).filled
      (by simp [mark, TokenKind.mayBeEmpty])
    exact .inl (by omega)
  · obtain ⟨-, ⟨v, next, -, le⟩, -⟩ := each r' mem'
    obtain rfl | ⟨q, among, rfl⟩ := name
    · cases mem
    · obtain rfl := List.mem_singleton.1 mem
      have named : r.2 = tag.span := by
        obtain rfl | mem := List.mem_cons.1 among
        · rfl
        · exact congrArg Prod.snd (List.mem_singleton.1 mem)
      have before := (about r.1).2.2 v (List.mem_of_mem_head? next)
      rw [← named] at before
      exact Nat.lt_of_lt_of_le before le

/-- **The reports of an item stand in their order**, from the first token of the item on and not
behind the next. -/
theorem reported_read (h : s.Spaces (t :: ts)) (part : t :: ts <:+ all)
    (told : (Item.read t ts).1.Tells rs) : Reported s all t (ts.drop (Item.read t ts).2) rs := by
  have silent (told : rs = []) : Reported s all t (ts.drop 0) rs := by
    rw [told]
    exact .nil
  cases hk : t.kind with
  | text | comment | docType | code =>
    simp only [Item.read, hk] at told ⊢
    exact silent told
  | serverComment =>
    simp only [Item.read, hk] at told ⊢
    exact h.reported_comment hk told
  | startDirective =>
    simp only [Item.read, hk] at told ⊢
    exact h.reported_directive hk told
  | tagOpen =>
    cases found : Item.tagName? ts with
    | none =>
      simp only [Item.read, hk, found] at told ⊢
      exact silent told
    | some tag =>
      simp only [Item.read, hk, found] at told ⊢
      rw [← List.drop_drop]
      exact h.reported_startTag part hk found told
  | tagOpenSlash =>
    cases found : Item.tagName? ts with
    | none =>
      simp only [Item.read, hk, found] at told ⊢
      exact silent told
    | some tag =>
      simp only [Item.read, hk, found] at told ⊢
      refine h.reported_endTag hk found ?_ told
      split
      · rw [← List.drop_drop]
        exact List.drop_suffix _ _
      · exact List.suffix_refl _
  | _ =>
    simp only [Item.read, hk] at told ⊢
    exact silent told

end Source.Spaces

end
end ServerMarkup
