/-
# Looking for the base of a user control

A Register directive looks for the base of a user control among the tokens of its file, and does not
parse it.  As far as directives are written out up to their marks, the tokens are looked through item
by item (`inheritedName?_before`), and the first main directive of the items is the one that is found
(`inheritedName?_of_control`).  What is taken from it is the last `Inherits` that begins with literal
text, while a parse takes the first one, with its whole value.
-/

import ServerMarkup.Parse.Directives
import ServerMarkup.Proofs.Content.ItemTokens

namespace ServerMarkup

/-! ### Tokens -/

theorem inheritedName?_eq (ts : List Token) : inheritedName? ts =
    match ts.dropWhile (·.kind != .startDirective) with
    | [] => none
    | _ :: rest =>
      let names := valuedNames (rest.takeWhile (·.kind != .endDirective))
      if (kindOfNames names).any DirectiveKind.isMain then inheritedOfNames names
      else inheritedName? (rest.dropWhile (·.kind != .endDirective)) := by
  rw [inheritedName?]
  split <;> next h => rw [h]

/-- Tokens that begin no directive are passed over. -/
theorem inheritedName?_append {ts : List Token} (h : ∀ t ∈ ts, t.kind ≠ .startDirective)
    (us : List Token) : inheritedName? (ts ++ us) = inheritedName? us := by
  rw [inheritedName?_eq, List.dropWhile_append_of_pos fun t mem => bne_iff_ne.2 (h t mem),
    ← inheritedName?_eq]

section
variable {t e : Token} {body : List Token} (start : t.kind = .startDirective)
  (inner : ∀ u ∈ body, u.kind ≠ .endDirective) (mark : e.kind = .endDirective) (us : List Token)
include start inner mark

/-- A directive up to its mark is looked at as a whole. -/
theorem inheritedName?_directive : inheritedName? (t :: (body ++ e :: us)) =
    if (kindOfNames (valuedNames body)).any DirectiveKind.isMain then
      inheritedOfNames (valuedNames body)
    else inheritedName? us := by
  have first : (t :: (body ++ e :: us)).dropWhile (·.kind != .startDirective) =
      t :: (body ++ e :: us) := by
    rw [List.dropWhile_cons_of_neg (by simp [start])]
  have own : (body ++ e :: us).takeWhile (·.kind != .endDirective) = body := by
    rw [List.takeWhile_append_of_pos fun u mem => bne_iff_ne.2 (inner u mem),
      List.takeWhile_cons_of_neg (by simp [mark]), List.append_nil]
  have rest : (body ++ e :: us).dropWhile (·.kind != .endDirective) = [e] ++ us := by
    rw [List.dropWhile_append_of_pos fun u mem => bne_iff_ne.2 (inner u mem),
      List.dropWhile_cons_of_neg (by simp [mark])]
    rfl
  have passed : inheritedName? ([e] ++ us) = inheritedName? us := by
    refine inheritedName?_append (List.forall_mem_singleton.2 ?_) us
    rw [mark]
    exact TokenKind.noConfusion
  rw [inheritedName?_eq, first]
  dsimp only
  rw [own, rest, passed]

end

/-! ### Names -/

theorem valuedNames_append {ts : List Token} (h : ∀ t ∈ ts, t.kind ≠ .attribute) (us : List Token) :
    valuedNames (ts ++ us) = valuedNames us := by
  induction ts with
  | nil => rfl
  | cons t ts ih =>
    obtain ⟨other, h⟩ := List.forall_mem_cons.1 h
    rw [List.cons_append, valuedNames, if_neg other, ih h]

/-- The mark of a directive is no part of its attributes. -/
theorem valuedNames_concat {e : Token} (mark : e.kind = .endDirective) (ts : List Token) :
    valuedNames (ts ++ [e]) = valuedNames ts := by
  induction ts with
  | nil => simp [valuedNames, mark]
  | cons t ts ih =>
    rw [List.cons_append, valuedNames, valuedNames, ih]
    cases ts with
    | nil => simp [Option.filter, mark]
    | cons u us => rfl

/-- The literal text that a value begins with. -/
def AttributeValue.lead? (v : AttributeValue) : Option Excerpt :=
  match v.parts with
  | .text e :: _ => some e
  | _ => Option.none

namespace Item

theorem lead?_valueOf (ts : List Token) : (valueOf ts).lead? =
    (ts.head?.filter (·.kind == .attributeValue)).map Token.text := by
  cases ts with
  | nil => rfl
  | cons t ts =>
    unfold valueOf valueTokens AttributeValue.lead?
    cases hk : t.kind <;>
      simp [ValuePart.ofToken?, hk, Option.filter]

/-- The attributes of a directive are read with what their values begin with. -/
theorem valuedNames_directiveAttributes (ts : List Token) :
    valuedNames (ts.take (directiveAttributes ts).2) =
      (directiveAttributes ts).1.map fun a => (a.1, a.2.lead?) := by
  fun_induction directiveAttributes ts with
  | case1 => rfl
  | case2 t ts hk size as n hr ih =>
    rw [hr] at ih
    have value : ts.take size = valueTokens ts :=
      (List.prefix_iff_eq_take.1 (List.takeWhile_prefix _)).symm
    have names : valuedNames (ts.take (size + n)) = as.map fun a => (a.1, a.2.lead?) := by
      rw [List.take_add, value, valuedNames_append fun u mem => ?_, ih]
      intro name
      have part := List.all_eq_true.1 List.all_takeWhile u mem
      rw [isSome_ofToken?, Token.isCode, name] at part
      cases part
    have first : ((ts.take (size + n)).head?.filter (·.kind == .attributeValue)).map Token.text =
        (valueOf ts).lead? := by
      rw [List.head?_take]
      split
      · next none =>
        have empty : valueTokens ts = [] := List.eq_nil_of_length_eq_zero (by omega)
        rw [valueOf, empty]
        rfl
      · exact (lead?_valueOf ts).symm
    rw [List.take_succ_cons, Nat.add_comm n, valuedNames, if_pos hk, names, first, List.map_cons]
  | case3 t ts hk => simp [valuedNames, hk]
  | case4 => rfl

/-- What follows a directive's first token is plain, but for the mark at its end. -/
theorem take_directiveAttributes (ts : List Token) :
    ∃ body, (∀ u ∈ body, u.kind.isPlain = true) ∧
      (ts.take (directiveAttributes ts).2 = body ∨
        ∃ e, e.kind = .endDirective ∧ ts.take (directiveAttributes ts).2 = body ++ [e]) := by
  fun_induction directiveAttributes ts with
  | case1 => exact ⟨[], List.forall_mem_nil _, .inl rfl⟩
  | case2 t ts hk size as n hr ih =>
    rw [hr] at ih
    obtain ⟨body, plain, ends⟩ := ih
    have value : ts.take size = valueTokens ts :=
      (List.prefix_iff_eq_take.1 (List.takeWhile_prefix _)).symm
    rw [List.take_succ_cons, Nat.add_comm n, List.take_add, value]
    refine ⟨t :: (valueTokens ts ++ body), ?_, ?_⟩
    · refine List.forall_mem_cons.2 ⟨by rw [hk]; rfl, List.forall_mem_append.2 ⟨?_, plain⟩⟩
      exact fun u => isPlain_of_mem_valueTokens
    · obtain done | ⟨e, mark, done⟩ := ends
      · exact .inl (by rw [done])
      · exact .inr ⟨e, mark, by rw [done, List.cons_append, List.append_assoc]⟩
  | case3 t ts hk => exact ⟨[], List.forall_mem_nil _, .inr ⟨t, hk, rfl⟩⟩
  | case4 => exact ⟨[], List.forall_mem_nil _, .inl rfl⟩

/-- A directive comes of a token that begins one, and of the attributes behind it. -/
theorem read_eq_directive {t : Token} {ts : List Token} {kind : DirectiveKind}
    {as : DirectiveAttributes} {span : Span} (h : (read t ts).1 = .directive kind as span) :
    t.kind = .startDirective ∧ directiveOf (directiveAttributes ts).1 = (kind, as) ∧
      (read t ts).2 = (directiveAttributes ts).2 := by
  unfold read at h ⊢
  split at h
  case h_6 hk =>
    cases h
    exact ⟨hk, rfl, rfl⟩
  case h_7 => split at h <;> cases h
  case h_8 => split at h <;> cases h
  all_goals cases h

/-- A kind that is read off a name is that of the names. -/
theorem kindOfNames_of_directiveOf {raw : List (Excerpt × AttributeValue)} {kind : DirectiveKind}
    {as : DirectiveAttributes} (h : directiveOf raw = (kind, as)) (named : kind ≠ .page) :
    kindOfNames (raw.map fun a => (a.1, a.2.lead?)) = some kind := by
  unfold directiveOf at h
  dsimp only at h
  split at h
  · next name value rest =>
    split at h
    · cases h
      exact absurd rfl named
    · next bare =>
      cases h
      have none : value.lead? = none := by
        have empty : value.parts = [] := by
          simpa [AttributeValue.isSome] using bare
        rw [AttributeValue.lead?, empty]
      simp [kindOfNames, none]
  · cases h
    exact absurd rfl named

/-- The item is no directive, or one that is written out up to its mark. -/
def isWhole (item : Item) : Bool :=
  match item.form with
  | .directive .. => item.tokens.getLast?.any (·.kind == .endDirective)
  | _ => true

end Item

/-! ### Items -/

theorem exists_read_of_mem_itemsOf {item : Item} {ts : List Token} (mem : item ∈ itemsOf ts) :
    ∃ t us, t :: us <:+ ts ∧ item = ⟨(Item.read t us).1, t :: us.take (Item.read t us).2⟩ := by
  fun_induction itemsOf ts with
  | case1 => cases mem
  | case2 t ts form n h ih =>
    obtain rfl | mem := List.mem_cons.1 mem
    · exact ⟨t, ts, List.suffix_refl _, by rw [h]⟩
    · obtain ⟨u, us, part, same⟩ := ih mem
      exact ⟨u, us, part.trans ((List.drop_suffix n ts).trans (List.suffix_cons t ts)), same⟩

section
variable {item : Item} {ts : List Token} (mem : item ∈ itemsOf ts)
include mem

/-- Only a directive holds a token that begins one. -/
theorem isDirective_of_mem {t : Token} (h : t ∈ item.tokens) (start : t.kind = .startDirective) :
    ∃ kind as span, item.form = .directive kind as span := by
  obtain ⟨u, us, -, rfl⟩ := exists_read_of_mem_itemsOf mem
  obtain rfl | h := List.mem_cons.1 h
  · simp only [Item.read, start]
    exact ⟨_, _, _, rfl⟩
  · have begins := Item.begins_of_mem_read h
    rw [start] at begins
    cases begins

/-- A directive that is written out up to its mark. -/
theorem exists_of_directive {kind : DirectiveKind} {as : DirectiveAttributes} {span : Span}
    (form : item.form = .directive kind as span) (whole : item.isWhole = true) :
    ∃ t body e, item.tokens = t :: (body ++ [e]) ∧ t.kind = .startDirective ∧
      e.kind = .endDirective ∧ (∀ u ∈ body, u.kind ≠ .endDirective) ∧
      (kind ≠ .page → kindOfNames (valuedNames body) = some kind) := by
  obtain ⟨t, us, -, rfl⟩ := exists_read_of_mem_itemsOf mem
  obtain ⟨start, raw, size⟩ := Item.read_eq_directive form
  obtain ⟨body, plain, ends⟩ := Item.take_directiveAttributes us
  have inner : ∀ u ∈ body, u.kind ≠ .endDirective := fun u mem mark => by
    have hp := plain u mem
    rw [mark] at hp
    cases hp
  have last : (t :: us.take (Item.directiveAttributes us).2).getLast?.any
      (·.kind == .endDirective) = true := by
    rw [Item.isWhole, form] at whole
    rwa [size] at whole
  obtain done | ⟨e, mark, done⟩ := ends
  · rw [done, Option.any_eq_true] at last
    obtain ⟨e, he, mark⟩ := last
    obtain rfl | mem := List.mem_cons.1 (List.mem_of_getLast? he)
    · rw [start] at mark
      cases mark
    · exact absurd (beq_iff_eq.1 mark) (inner e mem)
  · refine ⟨t, body, e, by rw [size, done], start, mark, inner, fun named => ?_⟩
    rw [← valuedNames_concat mark, ← done, Item.valuedNames_directiveAttributes]
    exact Item.kindOfNames_of_directiveOf raw named

end

section
variable {ts us : List Token} {item : Item} {before : List Item}

/-- A plain item is passed over. -/
theorem inheritedName?_plain (mem : item ∈ itemsOf ts) (whole : item.isWhole = true)
    (other : ∀ kind as span, item.form = .directive kind as span → kind.isMain = false) :
    inheritedName? (item.tokens ++ us) = inheritedName? us := by
  by_cases directive : ∃ kind as span, item.form = .directive kind as span
  · obtain ⟨kind, as, span, form⟩ := directive
    obtain ⟨t, body, e, tokens, start, mark, inner, names⟩ := exists_of_directive mem form whole
    have main := other kind as span form
    have named : kind ≠ .page := by
      rintro rfl
      cases main
    rw [tokens, List.cons_append, List.append_assoc, List.singleton_append,
      inheritedName?_directive start inner mark, names named, Option.any_some, main]
    rfl
  · exact inheritedName?_append (fun t mem' start =>
      directive (isDirective_of_mem mem mem' start)) us

theorem inheritedName?_before (mem : ∀ i ∈ before, i ∈ itemsOf ts)
    (whole : ∀ i ∈ before, i.isWhole = true)
    (other : ∀ i ∈ before, ∀ kind as span, i.form = .directive kind as span →
      kind.isMain = false) :
    inheritedName? (before.flatMap Item.tokens ++ us) = inheritedName? us := by
  induction before with
  | nil => rfl
  | cons i before ih =>
    obtain ⟨mem, mems⟩ := List.forall_mem_cons.1 mem
    obtain ⟨whole, wholes⟩ := List.forall_mem_cons.1 whole
    obtain ⟨other, others⟩ := List.forall_mem_cons.1 other
    rw [List.flatMap_cons, List.append_assoc, inheritedName?_plain mem whole other,
      ih mems wholes others]

/-- **A control directive behind plain items is the one that is found.** -/
theorem inheritedName?_of_control {as : DirectiveAttributes} {span : Span} {rest : List Item}
    (split : itemsOf ts = before ++ item :: rest) (form : item.form = .directive .control as span)
    (whole : ∀ i ∈ before ++ [item], i.isWhole = true)
    (other : ∀ i ∈ before, ∀ kind as span, i.form = .directive kind as span →
      kind.isMain = false) :
    inheritedName? ts = inheritedOfNames (valuedNames item.tokens) := by
  have mems : ∀ i ∈ before, i ∈ itemsOf ts := by
    intro i hi
    rw [split]
    exact List.mem_append_left _ hi
  have mem : item ∈ itemsOf ts := by
    rw [split]
    exact List.mem_append_right _ List.mem_cons_self
  obtain ⟨wholes, whole⟩ := List.forall_mem_append.1 whole
  obtain ⟨t, body, e, tokens, start, mark, inner, names⟩ :=
    exists_of_directive mem form (whole item List.mem_cons_self)
  have own : valuedNames item.tokens = valuedNames body := by
    have first : t.kind ≠ .attribute := by
      rw [start]
      exact TokenKind.noConfusion
    rw [tokens, valuedNames, if_neg first, valuedNames_concat mark]
  rw [← flatMap_tokens_itemsOf ts, split, List.flatMap_append, List.flatMap_cons,
    inheritedName?_before mems wholes other, tokens, List.cons_append, List.append_assoc,
    List.singleton_append, inheritedName?_directive start inner mark, ← tokens, own,
    names DirectiveKind.noConfusion]
  rfl

end

end ServerMarkup
