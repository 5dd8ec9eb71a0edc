/-
# The items of what is read

An item is read from its first token on, however many tokens follow.  That it still ends where the
construct or tag does that the lexer has taken apart is due to the last token of these: a directive
ends with its mark (`itemsOf_append`), a start tag with the token that ends it, and a closing tag with
its `>` or before a token that is none.
-/

import ServerMarkup.Proofs.Parse.Reading

namespace ServerMarkup

namespace ItemForm

/-- Whether the item is a closing tag. -/
def isEndTag : ItemForm → Bool
  | .endTag _ => true
  | _ => false

/-- The name of a closing tag. -/
def endTag? : ItemForm → Option TagName
  | .endTag tag => some tag
  | _ => none

/-- Whether the item is no tag. -/
def isStill : ItemForm → Bool
  | .startTag _ | .endTag _ => false
  | _ => true

theorem isEndTag_of_isStill {form : ItemForm} (h : form.isStill = true) :
    form.isEndTag = false := by
  cases form <;> simp_all [isStill, isEndTag]

theorem eq_endTag {form : ItemForm} {tag : TagName} (h : form.endTag? = some tag) :
    form = .endTag tag := by
  cases form <;> simp_all [endTag?]

end ItemForm

theorem itemsOf_cons (t : Token) (ts : List Token) :
    itemsOf (t :: ts) =
      ⟨(Item.read t ts).1, t :: ts.take (Item.read t ts).2⟩ ::
        itemsOf (ts.drop (Item.read t ts).2) := by
  rw [itemsOf]

namespace Item

/-- The attributes of a directive are not read beyond its mark. -/
theorem directiveAttributes_append {ts : List Token} {e : Token} (he : e ∈ ts)
    (hk : e.kind = .endDirective) (us : List Token) :
    directiveAttributes (ts ++ us) = directiveAttributes ts ∧
      (directiveAttributes ts).2 ≤ ts.length := by
  have plain : e.kind.isPlain = false := by rw [hk]; rfl
  fun_induction directiveAttributes ts with
  | case1 => simp at he
  | case2 t ts ha size as n hr ih =>
    have hts : e ∈ ts := by
      rcases List.mem_cons.1 he with rfl | he
      · simp [hk] at ha
      · exact he
    obtain ⟨same, value, hdrop, hsize⟩ := valueTokens_append hts plain us
    change e ∈ ts.drop size at hdrop
    change size ≤ ts.length at hsize
    obtain ⟨rest, le⟩ := ih hdrop
    rw [hr, List.length_drop] at le
    rw [List.cons_append, directiveAttributes]
    simp only [ha, same, value]
    rw [List.drop_append_of_le_length hsize, rest, hr]
    exact ⟨rfl, by rw [List.length_cons]; dsimp only at le ⊢; omega⟩
  | case3 t ts hk => simp [directiveAttributes, hk]
  | case4 t ts ha hd =>
    rw [List.cons_append, directiveAttributes]
    simp

/-- Tokens of constructs begin items that are no tags. -/
theorem isStill_read {t : Token} (h : t.kind.isInner = true) (ts : List Token) :
    (read t ts).1.isStill = true := by
  unfold TokenKind.isInner at h
  unfold read
  split <;> simp_all [ItemForm.isStill, TokenKind.isPlain, TokenKind.interrupts]

/-- A token of a construct begins the same item whatever comes after the construct, if a directive
that it opens has its end there. -/
theorem read_append {t : Token} {ts : List Token} (h : t.kind.isInner = true)
    (ended : t.kind = .startDirective → ∃ e ∈ ts, e.kind = .endDirective) (us : List Token) :
    read t (ts ++ us) = read t ts ∧ (read t ts).2 ≤ ts.length := by
  by_cases hk : t.kind = .startDirective
  · obtain ⟨e, he, hend⟩ := ended hk
    obtain ⟨same, le⟩ := directiveAttributes_append he hend us
    simp only [read, hk, same, List.take_append_of_le_length le]
    exact ⟨trivial, le⟩
  · unfold TokenKind.isInner TokenKind.isPlain TokenKind.interrupts at h
    unfold read
    split <;> simp_all

end Item

/-- The items of constructs, which end with the mark of a directive if they hold one. -/
theorem itemsOf_append {ts : List Token} (inner : ∀ t ∈ ts, t.kind.isInner = true)
    (ended : ∀ e, ts.getLast? = some e → e.kind = .endDirective) (us : List Token) :
    itemsOf (ts ++ us) = itemsOf ts ++ itemsOf us := by
  fun_induction itemsOf ts with
  | case1 => rfl
  | case2 t ts form n hr ih =>
    obtain ⟨hinner, rest⟩ := List.forall_mem_cons.1 inner
    -- A directive that begins here ends before `us`, since the last token of all is a mark.
    have mark : t.kind = .startDirective → ∃ e ∈ ts, e.kind = .endDirective := by
      intro hk
      cases hl : ts.getLast? with
      | none => simp [List.getLast?_eq_none_iff.1 hl, hk] at ended
      | some e =>
        exact ⟨e, List.mem_of_getLast? hl, ended e (by simp [List.getLast?_cons, hl])⟩
    obtain ⟨same, le⟩ := Item.read_append hinner mark us
    rw [hr] at same le
    have last : ∀ e, (ts.drop n).getLast? = some e → e.kind = .endDirective := by
      intro e he
      refine ended e ?_
      rw [List.getLast?_drop] at he
      split at he
      · simp at he
      · simp [List.getLast?_cons, he]
    rw [List.cons_append, itemsOf_cons, same, List.take_append_of_le_length le,
      List.drop_append_of_le_length le, List.cons_append,
      ih (fun u hu => rest u (List.mem_of_mem_drop hu)) last]

/-- Constructs are no tags. -/
theorem isStill_itemsOf {ts : List Token} (inner : ∀ t ∈ ts, t.kind.isInner = true) :
    ∀ i ∈ itemsOf ts, i.form.isStill = true := by
  fun_induction itemsOf ts with
  | case1 => simp
  | case2 t ts form n hr ih =>
    obtain ⟨hinner, rest⟩ := List.forall_mem_cons.1 inner
    have still := Item.isStill_read hinner ts
    rw [hr] at still
    exact List.forall_mem_cons.2 ⟨still, ih fun u hu => rest u (List.mem_of_mem_drop hu)⟩

/-! ### What the lexer takes apart -/

variable {s : Source} {c d : Cursor} {t : Token} {ts us : List Token}

/-- A text, a comment or a document type is an item alone. -/
theorem itemsOf_cons_of_text (h : t.kind = .text ∨ t.kind = .comment ∨ t.kind = .docType) :
    itemsOf (t :: us) = ⟨.text t.text, [t]⟩ :: itemsOf us := by
  rw [itemsOf_cons]
  rcases h with h | h | h <;> simp [Item.read, h]

/-- A directive ends with its mark, or with the source. -/
theorem Reads.ends_of_directive (h : Reads s .directive c ts d) :
    d.rest = [] ∨ ∃ e, ts.getLast? = some e ∧ e.kind = .endDirective := by
  generalize hp : Part.directive = p at h
  induction h with
  | directiveCut atEnd => exact .inl atEnd
  | directiveEnd => exact .inr ⟨_, rfl, rfl⟩
  | directiveAttribute _ _ _ ih =>
    rcases ih hp with atEnd | ⟨e, he, hk⟩
    · exact .inl atEnd
    · exact .inr ⟨e, by simp [List.getLast?_append, he], hk⟩
  | directiveStray _ _ _ _ ih => exact ih hp
  | _ => simp at hp

/-- The items of a construct end with it. -/
theorem Reads.itemsOf_append (h : Reads s .construct c ts d) (rest : d.rest = [] → us = []) :
    itemsOf (ts ++ us) = itemsOf ts ++ itemsOf us := by
  have inner := h.inner trivial
  have alone (t : Token) (h : t.kind.isInner = true) (hk : t.kind ≠ .startDirective) :
      itemsOf ([t] ++ us) = itemsOf [t] ++ itemsOf us := by
    obtain ⟨same, le⟩ := @Item.read_append t [] h (absurd · hk) us
    rw [List.nil_append] at same
    have none : (Item.read t []).2 = 0 := Nat.le_zero.1 le
    rw [List.singleton_append, itemsOf_cons, itemsOf_cons, same, none]
    simp [itemsOf]
  cases h with
  | comment => exact alone _ rfl (by simp [Source.commentToken])
  | code => exact alone _ rfl (by simp [Source.codeToken])
  | directive _ body =>
    rcases body.ends_of_directive with atEnd | ⟨e, he, hk⟩
    · rw [rest atEnd, List.append_nil, itemsOf, List.append_nil]
    · refine ServerMarkup.itemsOf_append inner (fun e' he' => ?_) us
      simp only [List.getLast?_cons, he, Option.getD_some, Option.some.injEq] at he'
      exact he' ▸ hk

/-- What the parser makes of a start tag without server comments and directives in it. -/
def startTagOf (t : Token) (e : Excerpt) (body : List Token) (ending : TagEnd) : StartTag :=
  ⟨.ofExcerpt e, (Item.tagAttributes body).1, ending, Item.spanOver t (nameTokens e ++ body)⟩

/-- A start tag is one item, up to the token that ends it. -/
theorem itemsOf_startTag {ending : TagEnd} (h : Reads s (.body ending) c ts d)
    (pure : ∀ u ∈ ts, u.kind.interrupts = false) (hk : t.kind = .tagOpen) (e : Excerpt)
    (cut : ending = .cut → us = []) :
    itemsOf (t :: (nameTokens e ++ ts) ++ us) =
      ⟨.startTag (startTagOf t e ts ending), t :: (nameTokens e ++ ts)⟩ :: itemsOf us := by
  have size : (nameTokens e).length + ts.length = (nameTokens e ++ ts).length :=
    List.length_append.symm
  have read : Item.read t (nameTokens e ++ ts ++ us) =
      (.startTag (startTagOf t e ts ending), (nameTokens e ++ ts).length) := by
    rw [List.append_assoc, Item.read_tagOpen hk, Item.tagAttributes_body h cut,
      Item.tagAttributes_pure h pure, size, ← List.append_assoc, List.take_left]
    rfl
  rw [List.cons_append, itemsOf_cons, read, List.take_left, List.drop_left]

/-- A closing tag is one item, with its `>` if the lexer has read it. -/
theorem itemsOf_endTag (h : Reads s .closing c ts d) (hk : t.kind = .tagOpenSlash) (e : Excerpt)
    (next : ∀ u, us.head? = some u → u.kind ≠ .tagClose) :
    itemsOf (t :: (nameTokens e ++ ts) ++ us) =
      ⟨.endTag (.ofExcerpt e), t :: (nameTokens e ++ ts)⟩ :: itemsOf us := by
  have read : Item.read t (nameTokens e ++ ts ++ us) =
      (.endTag (.ofExcerpt e), (nameTokens e ++ ts).length) := by
    rw [List.append_assoc, Item.read_tagOpenSlash hk]
    cases h with
    | closingEnd => simp [Token.whole]
    | closingBare =>
      have none : us.head?.any (·.kind == .tagClose) = false := by
        cases hu : us.head? with
        | none => rfl
        | some u => simpa using next u hu
      simp [none]
  rw [List.cons_append, itemsOf_cons, read, List.take_left, List.drop_left]

end ServerMarkup
