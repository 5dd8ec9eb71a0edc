/-
# Where items end

Reading an item looks one token ahead.  So the items of a list are the first ones of any longer list
(`itemsOf_append_of_uncut`), unless the end of the list has cut the last one off: a start tag or
directive without its mark goes on in what follows, and so does a closing tag before a `>`.  At the
end of a file the other items are whole, and no list of tokens begins with what stands in a tag
(`LexerState.head?_tokens`).
-/

import ServerMarkup.Proofs.Content.ItemTokens

namespace ServerMarkup

namespace Item

/-- Whether the end of the tokens may have cut the item off: a start tag or directive without its
mark. -/
def isCut (item : Item) : Bool :=
  match item.form with
  | .startTag t => t.ending == .cut
  | .directive .. => item.tokens.getLast?.any (·.kind != .endDirective)
  | _ => false

variable {t : Token} {ts : List Token}

/-! ### Readers that stop before the end -/

theorem valueTokens_append_of_lt (h : (valueTokens ts).length < ts.length) (us : List Token) :
    valueTokens (ts ++ us) = valueTokens ts := by
  unfold valueTokens at h ⊢
  rw [List.takeWhile_append, if_neg (Nat.ne_of_lt h)]

theorem directiveAttributes_append_of_lt (h : (directiveAttributes ts).2 < ts.length)
    (us : List Token) : directiveAttributes (ts ++ us) = directiveAttributes ts := by
  fun_induction directiveAttributes ts with
  | case1 => simp at h
  | case2 t ts hk size as n hr ih =>
    rw [hr] at ih
    have rest : n < (ts.drop size).length := by
      rw [List.length_drop]
      rw [List.length_cons] at h
      dsimp only at h
      omega
    have value : size < ts.length := by
      rw [List.length_drop] at rest
      omega
    have same := valueTokens_append_of_lt value us
    rw [List.cons_append, directiveAttributes]
    simp only [hk, valueOf, same]
    rw [List.drop_append_of_le_length (Nat.le_of_lt value), ih rest]
  | case3 t ts hk => simp [directiveAttributes, hk]
  | case4 t ts ha hd =>
    rw [List.cons_append, directiveAttributes]
    simp

theorem tagAttributes_append_of_lt (h : (tagAttributes ts).2.2 < ts.length) (us : List Token) :
    tagAttributes (ts ++ us) = tagAttributes ts := by
  fun_induction tagAttributes ts with
  | case1 => simp at h
  | case2 t ts kind hk as ending n hr ih =>
    rw [hr] at ih
    have rest : n < ts.length := by
      rw [List.length_cons] at h
      dsimp only at h
      omega
    rw [List.cons_append, tagAttributes]
    simp only [hk, ih rest]
  | case3 t ts hk size as ending n hr ih =>
    rw [hr] at ih
    have rest : n < (ts.drop size).length := by
      rw [List.length_drop]
      rw [List.length_cons] at h
      dsimp only at h
      omega
    have value : size < ts.length := by
      rw [List.length_drop] at rest
      omega
    have same := valueTokens_append_of_lt value us
    rw [List.cons_append, tagAttributes]
    simp only [hk, valueOf, same]
    rw [List.drop_append_of_le_length (Nat.le_of_lt value), ih rest]
  | case4 t ts hk => simp [tagAttributes, hk]
  | case5 t ts hk => simp [tagAttributes, hk]
  | case6 t ts hc ha ho hs =>
    rw [List.cons_append, tagAttributes]
    simp

/-! ### Readers that come to a mark -/

/-- A start tag that is not cut off holds the token that ends it. -/
theorem exists_end_of_tagAttributes (h : (tagAttributes ts).2.1 ≠ .cut) :
    ∃ e ∈ ts, e.kind = .tagClose ∨ e.kind = .tagSlashClose := by
  fun_induction tagAttributes ts with
  | case1 => exact absurd rfl h
  | case2 t ts kind hk as ending n hr ih =>
    rw [hr] at ih
    obtain ⟨e, he, ends⟩ := ih h
    exact ⟨e, List.mem_cons_of_mem _ he, ends⟩
  | case3 t ts hk size as ending n hr ih =>
    rw [hr] at ih
    obtain ⟨e, he, ends⟩ := ih h
    exact ⟨e, List.mem_cons_of_mem _ (List.mem_of_mem_drop he), ends⟩
  | case4 t ts hk => exact ⟨t, List.mem_cons_self, .inl hk⟩
  | case5 t ts hk => exact ⟨t, List.mem_cons_self, .inr hk⟩
  | case6 => exact absurd rfl h

/-! ### Reading no further than the list -/

theorem length_directiveAttributes_le (ts : List Token) :
    (directiveAttributes ts).2 ≤ ts.length := by
  fun_induction directiveAttributes ts with
  | case1 => exact Nat.le_refl 0
  | case2 t ts hk size as n hr ih =>
    have le : size ≤ ts.length := (List.takeWhile_prefix _).length_le
    rw [hr, List.length_drop] at ih
    rw [List.length_cons]
    dsimp only at ih ⊢
    omega
  | case3 => simp
  | case4 => simp

theorem length_tagAttributes_le (ts : List Token) : (tagAttributes ts).2.2 ≤ ts.length := by
  fun_induction tagAttributes ts with
  | case1 => exact Nat.le_refl 0
  | case2 t ts kind hk as ending n hr ih =>
    rw [hr] at ih
    exact Nat.succ_le_succ ih
  | case3 t ts hk size as ending n hr ih =>
    have le : size ≤ ts.length := (List.takeWhile_prefix _).length_le
    rw [hr, List.length_drop] at ih
    rw [List.length_cons]
    dsimp only at ih ⊢
    omega
  | case4 => simp
  | case5 => simp
  | case6 => simp

theorem length_tagName?_le {tag : TagName} {n : Nat} (h : tagName? ts = some (tag, n)) :
    n ≤ ts.length := by
  unfold tagName? at h
  split at h
  · split at h
    · cases h
      simp
    · split at h
      · cases h
        simp
      · cases h
    · cases h
  · cases h

/-- No token that stands in no tag goes on with a tag's name. -/
theorem tagName?_append {us : List Token}
    (next : ∀ u, us.head? = some u → u.kind.isTagPart = false) :
    tagName? (ts ++ us) = tagName? ts := by
  have none : tagName? us = none := by
    cases us with
    | nil => rfl
    | cons u us =>
      have other := next u rfl
      cases hk : u.kind <;> simp [tagName?, hk, TokenKind.isTagPart] at other ⊢
  cases ts with
  | nil => exact none
  | cons t ts =>
    cases ts with
    | cons u ts => cases hk : t.kind <;> simp [tagName?, hk]
    | nil =>
      cases us with
      | nil => rfl
      | cons u us =>
        have other := next u rfl
        have notName : u.kind ≠ .elementName := by
          intro hk
          simp [hk, TokenKind.isTagPart] at other
        cases hk : t.kind <;> simp [tagName?, hk, notName]

variable {us : List Token}

/-- A directive is the same with more tokens behind, if it does not take all tokens or has its
mark. -/
theorem directiveAttributes_append_of_uncut
    (uncut : (directiveAttributes ts).2 = ts.length → ∃ e ∈ ts, e.kind = .endDirective) :
    directiveAttributes (ts ++ us) = directiveAttributes ts := by
  rcases Nat.lt_or_eq_of_le (length_directiveAttributes_le ts) with lt | eq
  · exact directiveAttributes_append_of_lt lt us
  · obtain ⟨e, he, hk⟩ := uncut eq
    exact (directiveAttributes_append he hk us).1

/-- A start tag is the same with more tokens behind, if it does not take all tokens or is not cut
off. -/
theorem tagAttributes_append_of_uncut
    (uncut : (tagAttributes ts).2.2 = ts.length → (tagAttributes ts).2.1 ≠ .cut) :
    tagAttributes (ts ++ us) = tagAttributes ts := by
  rcases Nat.lt_or_eq_of_le (length_tagAttributes_le ts) with lt | eq
  · exact tagAttributes_append_of_lt lt us
  · obtain ⟨e, he, ends⟩ := exists_end_of_tagAttributes (uncut eq)
    exact tagAttributes_append he ends us

theorem length_read_le (t : Token) (ts : List Token) : (read t ts).2 ≤ ts.length := by
  unfold read
  split
  · exact Nat.zero_le _
  · exact Nat.zero_le _
  · exact Nat.zero_le _
  · exact Nat.zero_le _
  · exact Nat.zero_le _
  · exact length_directiveAttributes_le ts
  · split
    · next tag n hn =>
      have name := length_tagName?_le hn
      have others := length_tagAttributes_le (ts.drop n)
      rw [List.length_drop] at others
      exact Nat.le_trans (Nat.add_le_add_left others n) (Nat.le_of_eq (Nat.add_sub_cancel' name))
    · exact Nat.zero_le _
  · split
    · next tag n hn =>
      have name := length_tagName?_le hn
      dsimp only
      split
      · next mark =>
        rcases Nat.lt_or_ge n ts.length with lt | ge
        · exact lt
        · simp [List.drop_of_length_le ge] at mark
      · exact name
    · exact Nat.zero_le _
  · exact Nat.zero_le _

/-- What is read is the same with more tokens behind, unless the item takes all tokens and may have
been cut off. -/
theorem read_append_of_uncut (next : ∀ u, us.head? = some u → u.kind.isTagPart = false)
    (uncut : (read t ts).2 = ts.length → isCut ⟨(read t ts).1, t :: ts⟩ = false) :
    read t (ts ++ us) = read t ts := by
  cases hk : t.kind with
  | startDirective =>
    have same : directiveAttributes (ts ++ us) = directiveAttributes ts := by
      refine directiveAttributes_append_of_uncut fun whole => ?_
      simp only [read, hk, isCut] at uncut
      have last := uncut whole
      have he := List.getLast?_eq_some_getLast (List.cons_ne_nil t ts)
      generalize (t :: ts).getLast _ = e at he
      have mark : e.kind = .endDirective := by simpa [he] using last
      refine ⟨e, (List.mem_cons.1 (List.mem_of_getLast? he)).resolve_left ?_, mark⟩
      rintro rfl
      rw [mark] at hk
      cases hk
    have le := length_directiveAttributes_le ts
    simp only [read, hk, same, List.take_append_of_le_length le]
  | tagOpen =>
    have name : tagName? (ts ++ us) = tagName? ts := tagName?_append next
    cases hn : tagName? ts with
    | none => simp only [read, hk, name, hn]
    | some found =>
      obtain ⟨tag, n⟩ := found
      have le := length_tagName?_le hn
      have same : tagAttributes (ts.drop n ++ us) = tagAttributes (ts.drop n) := by
        refine tagAttributes_append_of_uncut fun whole => ?_
        simp only [read, hk, hn, isCut, beq_eq_false_iff_ne] at uncut
        refine uncut ?_
        rw [whole, List.length_drop, Nat.add_sub_cancel' le]
      have others := length_tagAttributes_le (ts.drop n)
      rw [List.length_drop] at others
      have all : n + (tagAttributes (ts.drop n)).2.2 ≤ ts.length := by
        rw [← Nat.add_sub_cancel' le]
        exact Nat.add_le_add_left others n
      simp only [read, hk, name, hn, List.drop_append_of_le_length le, same,
        List.take_append_of_le_length all]
  | tagOpenSlash =>
    have name : tagName? (ts ++ us) = tagName? ts := tagName?_append next
    cases hn : tagName? ts with
    | none => simp only [read, hk, name, hn]
    | some found =>
      obtain ⟨tag, n⟩ := found
      have le := length_tagName?_le hn
      simp only [read, hk, name, hn, List.drop_append_of_le_length le]
      cases ts.drop n with
      | cons u rest => rfl
      | nil =>
        cases us with
        | nil => rfl
        | cons u us =>
          have other := next u rfl
          cases hu : u.kind <;> simp [hu, TokenKind.isTagPart] at other ⊢
  | _ => simp only [read, hk]

end Item

/-- **Items end with the list that they are read from**, unless its end has cut the last one off. -/
theorem itemsOf_append_of_uncut {ts us : List Token}
    (uncut : ∀ item, (itemsOf ts).getLast? = some item → item.isCut = false)
    (next : ∀ u, us.head? = some u → u.kind.isTagPart = false) :
    itemsOf (ts ++ us) = itemsOf ts ++ itemsOf us := by
  fun_induction itemsOf ts with
  | case1 => rfl
  | case2 t ts form n hr ih =>
    have le : n ≤ ts.length := by
      have le := Item.length_read_le t ts
      rwa [hr] at le
    have same : Item.read t (ts ++ us) = (form, n) := by
      rw [← hr]
      refine Item.read_append_of_uncut next fun whole => uncut _ ?_
      rw [hr] at whole ⊢
      obtain rfl : n = ts.length := whole
      simp [itemsOf]
    rw [List.cons_append, itemsOf_cons, same, List.cons_append]
    dsimp only
    rw [List.drop_append_of_le_length le, List.take_append_of_le_length le, ih fun item last => ?_]
    refine uncut item ?_
    cases hd : itemsOf (ts.drop n) with
    | nil => simp [hd] at last
    | cons first rest => rw [List.getLast?_cons_cons, ← hd, last]

end ServerMarkup
