/-
# Text and code along a run

Of what the builders of a run take, the texts are those of its tokens, one for one and in order
(`texts_fed`): in a script, where comments and document types would be passed over, there are none.
The code blocks are those that are items of their own, and besides those that stand in a directive
in a script (`codes_fed`).
-/

import Mathlib.Data.List.Basic
import ServerMarkup.Proofs.Content.Fed
import ServerMarkup.Proofs.Content.ItemTokens

namespace ServerMarkup

namespace Token

/-- The leaf for a token of literal text, a comment or a document type. -/
def textLeaf? (t : Token) : Option LeafContent :=
  if t.kind.isText then some (.text t.text) else none

/-- The leaf for a code block. -/
def codeLeaf? (t : Token) : Option LeafContent :=
  match t.kind with
  | .code kind => some (.code kind t.text)
  | _ => none

end Token

/-- The code blocks in a directive. -/
def Item.directiveCodes (item : Item) : List LeafContent :=
  match item.form with
  | .directive .. => item.tokens.filterMap Token.codeLeaf?
  | _ => []

/-- The code blocks that are items of their own. -/
def ownCodes (items : List Item) : List LeafContent :=
  (items.flatMap fun item => item.form.leaves).filter LeafContent.isCode

section
variable {t : Token} {ts : List Token}

theorem filterMap_textLeaf?_of_notText {us : List Token}
    (h : ∀ u ∈ us, u.kind.isText = false) : us.filterMap Token.textLeaf? = [] := by
  refine List.filterMap_eq_nil_iff.2 fun u hu => ?_
  simp [Token.textLeaf?, h u hu]

/-- In a script the texts of an item are those of its tokens. -/
theorem filter_scriptLeaf? {us : List Token}
    (h : ∀ u ∈ us, u.kind = .text ∨ u.kind.isInner = true) :
    (us.filterMap Token.scriptLeaf?).filter LeafContent.isText = us.filterMap Token.textLeaf? := by
  rw [List.filter_filterMap]
  refine List.filterMap_congr fun u hu => ?_
  have loose := h u hu
  unfold Token.scriptLeaf? Builder.scriptContent? Token.textLeaf?
  cases hk : u.kind <;>
    simp_all [TokenKind.isText, TokenKind.isInner, TokenKind.isPlain, TokenKind.interrupts,
      LeafContent.isText]

theorem filter_scriptLeaf?_code (us : List Token) :
    (us.filterMap Token.scriptLeaf?).filter LeafContent.isCode = us.filterMap Token.codeLeaf? := by
  rw [List.filter_filterMap]
  refine List.filterMap_congr fun u _ => ?_
  unfold Token.scriptLeaf? Builder.scriptContent? Token.codeLeaf?
  cases hk : u.kind <;> simp [LeafContent.isCode]

/-- Outside scripts the texts of an item are those of its tokens. -/
theorem filter_leaves_read (t : Token) (ts : List Token) :
    (Item.read t ts).1.leaves.filter LeafContent.isText =
      (t :: ts.take (Item.read t ts).2).filterMap Token.textLeaf? := by
  have behind : (ts.take (Item.read t ts).2).filterMap Token.textLeaf? = [] :=
    filterMap_textLeaf?_of_notText fun u hu => Item.isText_of_mem_read hu
  have first : (Item.read t ts).1.leaves.filter LeafContent.isText = t.textLeaf?.toList := by
    unfold Item.read Token.textLeaf?
    split
    · next hk => simp [hk, TokenKind.isText, ItemForm.leaves, LeafContent.isText]
    · next hk => simp [hk, TokenKind.isText, ItemForm.leaves, LeafContent.isText]
    · next hk => simp [hk, TokenKind.isText, ItemForm.leaves, LeafContent.isText]
    · next hk => simp [hk, TokenKind.isText, ItemForm.leaves, LeafContent.isText]
    · next hk => simp [hk, TokenKind.isText, ItemForm.leaves]
    · next hk => simp [hk, TokenKind.isText, ItemForm.leaves, LeafContent.isText]
    · next hk => split <;> simp [hk, TokenKind.isText, ItemForm.leaves]
    · next hk => split <;> simp [hk, TokenKind.isText, ItemForm.leaves]
    · next h₁ h₂ h₃ _ _ _ _ _ =>
      have other : t.kind.isText = false := by
        unfold TokenKind.isText
        split <;> first | contradiction | rfl
      simp [other, ItemForm.leaves]
  rw [first, List.filterMap_cons, behind]
  cases t.textLeaf? <;> rfl

end

/-! ### One item -/

/-- A script is open only where its body comes next. -/
def Builder.Inside (b : Builder) (ts : List Token) : Prop :=
  b.script = none ∨ ScriptBody ts

section
variable {p : Project} {parsing : List String} {nested : Nested} {b b' : Builder}
  {s s' : Session} {t : Token} {ts : List Token}

/-- The item that begins with the token `t`. -/
def Item.first (t : Token) (ts : List Token) : Item :=
  ⟨(Item.read t ts).1, t :: ts.take (Item.read t ts).2⟩

theorem Builder.script_eq_none_of_outline (h : b'.outline.script = none) : b'.script = none :=
  Option.map_eq_none_iff.1 h

/-- An item preserves that a script is open only where its body comes next. -/
theorem inside_buildItem (closed : ScriptsClosed (t :: ts)) (inside : b.Inside (t :: ts)) :
    Gives (buildItem p parsing nested b (.first t ts)) (·.Inside (ts.drop (Item.read t ts).2)) := by
  cases hb : b.script with
  | some script =>
    have body : ScriptBody (t :: ts) := inside.resolve_left (by simp [hb])
    refine (gives_buildItem_of_script p parsing nested hb).mono fun b' outline => ?_
    rcases body.read with ended | ⟨-, -, rest⟩
    · left
      refine Builder.script_eq_none_of_outline ?_
      rw [outline]
      exact if_pos ended
    · exact .inr rest
  | none =>
    have outside : b.outline.script = none := by simp [Builder.outline, hb]
    have unchanged (b' : Builder) (h : b'.outline.script = b.outline.script) :
        b'.Inside (ts.drop (Item.read t ts).2) :=
      .inl (Builder.script_eq_none_of_outline (h.trans outside))
    cases hf : (Item.read t ts).1 with
    | startTag tag =>
      refine (gives_buildItem_of_startTag p parsing nested hb hf).mono fun b' opens => ?_
      rcases opens with frame | ⟨script, -⟩
      · refine unchanged b' ?_
        rw [frame]
        split <;> rfl
      · exact .inr (closed [] t ts tag _ rfl (Prod.ext hf rfl) script)
    | endTag tag =>
      refine (gives_buildItem_of_endTag p parsing nested hb hf).mono fun b' outline => ?_
      exact unchanged b' (by rw [outline]; rfl)
    | _ =>
      refine (gives_buildItem_of_still p parsing nested hb
        (show (Item.first t ts).form.isStill = true by rw [Item.first, hf]; rfl)).mono
          fun b' outline => unchanged b' (by rw [outline])

/-- The texts that a builder takes of an item are those of its tokens. -/
theorem texts_takes (inside : b.Inside (t :: ts)) :
    (b.takes (.first t ts)).filter LeafContent.isText =
      (t :: ts.take (Item.read t ts).2).filterMap Token.textLeaf? := by
  have leaves := filter_leaves_read t ts
  unfold Builder.takes
  split
  · next script hb =>
    have body : ScriptBody (t :: ts) := inside.resolve_left (by simp [hb])
    rcases body.read with ended | ⟨still, loose, -⟩
    · have none : (Item.read t ts).1.leaves = [] := by
        cases hf : (Item.read t ts).1 <;> simp_all [ItemForm.isEndTag, ItemForm.leaves]
      rw [← leaves, none]
      simp [Item.first, ended]
    · rw [if_neg (by simp [Item.first, ItemForm.isEndTag_of_isStill still])]
      exact filter_scriptLeaf? loose
  · exact leaves

/-- Text and constructs hold code only as code blocks and in directives. -/
theorem codeLeaf?_of_loose (loose : t.kind = .text ∨ t.kind.isInner = true) :
    (Item.first t ts).tokens.filterMap Token.codeLeaf? =
      (Item.read t ts).1.leaves.filter LeafContent.isCode ++ (Item.first t ts).directiveCodes := by
  cases hk : t.kind with
  | startDirective =>
    simp [Item.first, Item.read, hk, Item.directiveCodes, ItemForm.leaves, LeafContent.isCode]
  | tagOpen | tagOpenSlash | tagClose | tagSlashClose | elementNamespace | elementName | comment
  | docType =>
    rw [hk] at loose
    rcases loose with h | h <;> cases h
  | code kind =>
    simp only [Item.first, Item.read, hk, List.take_zero, List.filterMap_cons, Token.codeLeaf?]
    rfl
  | _ =>
    simp [Item.first, Item.read, hk, Token.codeLeaf?, Item.directiveCodes, ItemForm.leaves,
      LeafContent.isCode]

/-- The code blocks that a builder takes of an item: the item itself, or those in a directive in a
script. -/
theorem codes_takes (inside : b.Inside (t :: ts)) :
    (b.takes (.first t ts)).filter LeafContent.isCode =
      (Item.read t ts).1.leaves.filter LeafContent.isCode ++
        if b.script.isSome then (Item.first t ts).directiveCodes else [] := by
  unfold Builder.takes
  split
  · next script hb =>
    have body : ScriptBody (t :: ts) := inside.resolve_left (by simp [hb])
    rw [hb, Option.isSome_some, if_pos rfl]
    rcases body.read with ended | ⟨still, loose, -⟩
    · rw [if_pos (show (Item.first t ts).form.isEndTag = true from ended)]
      cases hf : (Item.read t ts).1 <;>
        simp_all [ItemForm.isEndTag, ItemForm.leaves, Item.directiveCodes, Item.first]
    · rw [if_neg (by simp [Item.first, ItemForm.isEndTag_of_isStill still]),
        filter_scriptLeaf?_code]
      exact codeLeaf?_of_loose (List.forall_mem_cons.1 loose).1
  · next hb => simp [hb, Item.first]

end

/-! ### Runs -/

section
variable (p : Project) (parsing : List String) (nested : Nested) {b b' : Builder} {s s' : Session}
  {ts : List Token}

/-- **The texts that are taken along a run are those of its tokens**, one for one. -/
theorem texts_fed (closed : ScriptsClosed ts) (inside : b.Inside ts)
    (run : ((itemsOf ts).foldlM (buildItem p parsing nested) b).run.run s = (.ok b', s')) :
    (fed p parsing nested b s (itemsOf ts)).filter LeafContent.isText =
      ts.filterMap Token.textLeaf? := by
  fun_induction itemsOf ts generalizing b s with
  | case1 => rfl
  | case2 t ts form n hr ih =>
    have item : (⟨form, t :: ts.take n⟩ : Item) = .first t ts := by rw [Item.first, hr]
    rw [item, List.foldlM_cons, run_bind] at run
    rw [item, fed]
    rcases hb : (buildItem p parsing nested b (.first t ts)).run.run s with ⟨_ | b₁, s₁⟩
    · rw [hb] at run
      cases run
    · rw [hb] at run
      have inside₁ := inside_buildItem closed inside s b₁ s₁ hb
      rw [hr] at inside₁
      have rest := ih (closed.tail.drop n) inside₁ run
      rw [List.filter_append, texts_takes inside, rest, hr, ← List.filterMap_append,
        List.cons_append, List.take_append_drop]

/-- The code blocks in the directives that are met in scripts. -/
def scriptDirectiveCodes : Builder → Session → List Item → List LeafContent
  | _, _, [] => []
  | b, s, item :: items =>
    (if b.script.isSome then item.directiveCodes else []) ++
      match (buildItem p parsing nested b item).run.run s with
      | (.ok b', s') => scriptDirectiveCodes b' s' items
      | (.error _, _) => []

/-- **The code blocks that are taken along a run are the items of their own, and those in directives
in scripts.** -/
theorem codes_fed (closed : ScriptsClosed ts) (inside : b.Inside ts)
    (run : ((itemsOf ts).foldlM (buildItem p parsing nested) b).run.run s = (.ok b', s')) :
    ((fed p parsing nested b s (itemsOf ts)).filter LeafContent.isCode).Perm
      (ownCodes (itemsOf ts) ++ scriptDirectiveCodes p parsing nested b s (itemsOf ts)) := by
  fun_induction itemsOf ts generalizing b s with
  | case1 => exact .refl _
  | case2 t ts form n hr ih =>
    have item : (⟨form, t :: ts.take n⟩ : Item) = .first t ts := by rw [Item.first, hr]
    rw [item, List.foldlM_cons, run_bind] at run
    rw [item, fed, scriptDirectiveCodes]
    rcases hb : (buildItem p parsing nested b (.first t ts)).run.run s with ⟨_ | b₁, s₁⟩
    · rw [hb] at run
      cases run
    · rw [hb] at run
      have inside₁ := inside_buildItem closed inside s b₁ s₁ hb
      rw [hr] at inside₁
      have rest := ih (closed.tail.drop n) inside₁ run
      rw [List.perm_iff_count] at rest ⊢
      intro c
      have := rest c
      simp only [ownCodes, List.flatMap_cons, List.filter_append, codes_takes inside,
        List.count_append] at this ⊢
      rw [show (Item.first t ts).form = (Item.read t ts).1 from rfl]
      omega

end

end ServerMarkup
