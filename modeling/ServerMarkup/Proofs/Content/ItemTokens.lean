/-
# The tokens that make up an item

Behind its first token an item holds no token that begins a tag or a construct (`begins_of_mem_read`),
so a text, a comment or a document type is always an item alone (`isText_of_mem_read`).  In the body
of a script the items hold text and constructs up to the closing tag (`ScriptBody.read`).
-/

import ServerMarkup.Proofs.Content.ScriptBodies

namespace ServerMarkup

namespace TokenKind

/-- Literal text, comments and document types. -/
def isText : TokenKind → Bool
  | .text | .comment | .docType => true
  | _ => false

/-- What begins a tag, a construct other than a code block, or a text. -/
def begins : TokenKind → Bool
  | .tagOpen | .tagOpenSlash | .startDirective | .serverComment => true
  | k => k.isText

theorem begins_of_isPlain {k : TokenKind} (h : k.isPlain = true) : k.begins = false := by
  cases k <;> simp_all [isPlain, begins, isText]

theorem isInner_of_isPlain {k : TokenKind} (h : k.isPlain = true) : k.isInner = true := by
  simp [isInner, h]

end TokenKind

namespace Item

variable {t u : Token} {ts : List Token}

/-- A list is taken up to the end of a value and then further. -/
theorem mem_take_value {n : Nat} (h : u ∈ ts.take (n + (valueTokens ts).length)) :
    u.kind.isPlain = true ∨ u ∈ (ts.drop (valueTokens ts).length).take n := by
  have value : ts.take (valueTokens ts).length = valueTokens ts :=
    (List.prefix_iff_eq_take.1 (List.takeWhile_prefix _)).symm
  rw [Nat.add_comm, List.take_add, value] at h
  exact (List.mem_append.1 h).imp isPlain_of_mem_valueTokens id

/-- A start tag holds plain tokens and the one that ends it. -/
theorem kind_of_mem_tagAttributes (h : u ∈ ts.take (tagAttributes ts).2.2) :
    u.kind.isPlain = true ∨ u.kind = .tagClose ∨ u.kind = .tagSlashClose := by
  fun_induction tagAttributes ts with
  | case1 => simp at h
  | case2 t ts kind hk as ending n hr ih =>
    rw [hr] at ih
    rcases List.mem_cons.1 h with rfl | h
    · exact .inl (by rw [hk]; rfl)
    · exact ih h
  | case3 t ts hk size as ending n hr ih =>
    rw [hr] at ih
    rcases List.mem_cons.1 h with rfl | h
    · exact .inl (by rw [hk]; rfl)
    · rcases mem_take_value h with plain | h
      · exact .inl plain
      · exact ih h
  | case4 t ts hk =>
    obtain rfl := List.mem_singleton.1 h
    exact .inr (.inl hk)
  | case5 t ts hk =>
    obtain rfl := List.mem_singleton.1 h
    exact .inr (.inr hk)
  | case6 => simp at h

/-- A directive holds plain tokens and its mark. -/
theorem kind_of_mem_directiveAttributes (h : u ∈ ts.take (directiveAttributes ts).2) :
    u.kind.isPlain = true ∨ u.kind = .endDirective := by
  fun_induction directiveAttributes ts with
  | case1 => simp at h
  | case2 t ts hk size as n hr ih =>
    rw [hr] at ih
    rcases List.mem_cons.1 h with rfl | h
    · exact .inl (by rw [hk]; rfl)
    · rcases mem_take_value h with plain | h
      · exact .inl plain
      · exact ih h
  | case3 t ts hk =>
    obtain rfl := List.mem_singleton.1 h
    exact .inr hk
  | case4 => simp at h

/-- A tag name is one token or two. -/
theorem kind_of_mem_tagName? {tag : TagName} {n : Nat} (h : tagName? ts = some (tag, n))
    (hu : u ∈ ts.take n) : u.kind = .elementNamespace ∨ u.kind = .elementName := by
  unfold tagName? at h
  split at h
  · next t ts =>
    split at h
    · next hk =>
      obtain ⟨-, rfl⟩ := Prod.mk.inj (Option.some.inj h)
      obtain rfl := List.mem_singleton.1 hu
      exact .inr hk
    · next v vs hk =>
      split at h
      · next hv =>
        obtain ⟨-, rfl⟩ := Prod.mk.inj (Option.some.inj h)
        rcases List.mem_cons.1 hu with rfl | hu
        · exact .inl hk
        · obtain rfl := List.mem_singleton.1 hu
          exact .inr hv
      · cases h
    · cases h
  · cases h

/-- Behind its first token no item holds a token that begins something. -/
theorem begins_of_mem_read (h : u ∈ ts.take (read t ts).2) : u.kind.begins = false := by
  have name {tag : TagName} {n m : Nat} (ht : tagName? ts = some (tag, n))
      (hu : u ∈ ts.take (n + m)) : u.kind.begins = false ∨ u ∈ (ts.drop n).take m := by
    rw [List.take_add] at hu
    refine (List.mem_append.1 hu).imp (fun hu => ?_) id
    rcases kind_of_mem_tagName? ht hu with hk | hk <;> rw [hk] <;> rfl
  unfold read at h
  split at h
  · simp at h
  · simp at h
  · simp at h
  · simp at h
  · simp at h
  · rcases kind_of_mem_directiveAttributes h with plain | hk
    · exact TokenKind.begins_of_isPlain plain
    · rw [hk]; rfl
  · split at h
    · next tag n ht =>
      rcases name ht h with done | h
      · exact done
      · rcases kind_of_mem_tagAttributes h with plain | hk | hk
        · exact TokenKind.begins_of_isPlain plain
        · rw [hk]; rfl
        · rw [hk]; rfl
    · simp at h
  · split at h
    · next tag n ht =>
      split at h
      · next close =>
        rcases name (m := 1) ht h with done | h
        · exact done
        · cases hd : ts.drop n with
          | nil => simp [hd] at h
          | cons v vs =>
            simp only [hd, List.head?_cons, Option.any_some, beq_iff_eq] at close
            rw [hd] at h
            obtain rfl := List.mem_singleton.1 h
            rw [close]; rfl
      · exact (name (m := 0) ht h).resolve_right (by simp)
    · simp at h
  · simp at h

/-- Behind its first token no item holds a text, a comment or a document type. -/
theorem isText_of_mem_read (h : u ∈ ts.take (read t ts).2) : u.kind.isText = false := by
  have begins := begins_of_mem_read h
  unfold TokenKind.begins at begins
  split at begins
  case h_5 => exact begins
  all_goals cases begins

/-- What begins with text or a construct holds tokens of constructs behind that. -/
theorem isInner_of_mem_read (ht : t.kind = .text ∨ t.kind.isInner = true)
    (h : u ∈ ts.take (read t ts).2) : u.kind.isInner = true := by
  unfold read at h
  split at h
  case h_6 =>
    rcases kind_of_mem_directiveAttributes h with plain | hk
    · exact TokenKind.isInner_of_isPlain plain
    · rw [hk]; rfl
  all_goals simp_all [TokenKind.isInner, TokenKind.isPlain, TokenKind.interrupts]

end Item

theorem ScriptBody.drop {ts : List Token} (h : ScriptBody ts) (n : Nat)
    (inner : ∀ u ∈ ts.take n, u.kind.isInner = true) : ScriptBody (ts.drop n) := by
  induction n generalizing ts with
  | zero => exact h
  | succ n ih =>
    cases h with
    | nil => exact .nil
    | cons loose rest => exact ih rest (List.forall_mem_cons.1 inner).2
    | closed mark named =>
      have := (List.forall_mem_cons.1 inner).1
      rw [mark] at this
      cases this

/-- An item in the body of a script is no tag, and text and constructs, or it is the closing tag. -/
theorem ScriptBody.read {t : Token} {ts : List Token} (h : ScriptBody (t :: ts)) :
    (Item.read t ts).1.isEndTag = true ∨
      (Item.read t ts).1.isStill = true ∧
        (∀ u ∈ t :: ts.take (Item.read t ts).2, u.kind = .text ∨ u.kind.isInner = true) ∧
        ScriptBody (ts.drop (Item.read t ts).2) := by
  cases h with
  | cons loose rest =>
    right
    have inner : ∀ u ∈ ts.take (Item.read t ts).2, u.kind.isInner = true :=
      fun u => Item.isInner_of_mem_read loose
    refine ⟨?_, List.forall_mem_cons.2 ⟨loose, fun u hu => .inr (inner u hu)⟩, rest.drop _ inner⟩
    rcases loose with text | hi
    · simp [Item.read, text, ItemForm.isStill]
    · exact Item.isStill_read hi ts
  | closed mark named =>
    left
    obtain ⟨⟨tag, n⟩, hn⟩ := Option.isSome_iff_exists.1 named
    simp [Item.read, mark, hn, ItemForm.isEndTag]

end ServerMarkup
