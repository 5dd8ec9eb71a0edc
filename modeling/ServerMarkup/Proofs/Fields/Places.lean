/-
# The places of IDs

Each ID that a start tag gives is the text of an attribute value without blanks at its ends, so it
stands at a place of its own: with their spans, the IDs of a file are pairwise different
(`nodup_ids`).  In particular, no ID is the last one of a tag and an earlier one of a tag
(`notMem_dropLast_of_getLast?`), be it in the file that is parsed or in the files that it includes.
-/

import Mathlib.Data.List.Nodup
import Mathlib.Data.List.Pairwise
import ServerMarkup.Proofs.Lexer.Faithful
import ServerMarkup.Proofs.Parse.Reading
import ServerMarkup.Proofs.Tree.Growth

namespace ServerMarkup

/-- The text of an attribute value without blanks at its ends, unless nothing is left. -/
def Token.idText? (t : Token) : Option Excerpt :=
  if t.kind = .attributeValue ∧ t.text.trim.value.isEmpty = false then some t.text.trim else none

/-- The IDs that an item gives. -/
def Item.ids (item : Item) : List Excerpt :=
  match item.form with
  | .startTag t => t.ids
  | _ => []

/-! ### From tokens to IDs -/

/-- The ID of an attribute is the text of a token of its value. -/
theorem id?_of (name : Excerpt) (ts : List Token) :
    (Attribute.of name (Item.valueOf ts)).id?.toList.Sublist
      ((Item.valueTokens ts).filterMap Token.idText?) := by
  cases hid : (Attribute.of name (Item.valueOf ts)).id? with
  | none => exact List.nil_sublist _
  | some id =>
    refine List.singleton_sublist.2 (List.mem_filterMap.2 ?_)
    obtain ⟨-, e, single, rfl, filled⟩ := Attribute.id?_eq_some.1 hid
    have parts : (Item.valueTokens ts).filterMap ValuePart.ofToken? = [.text e] := by
      unfold AttributeValue.single? at single
      split at single
      · next found =>
        cases single
        exact found
      · cases single
    obtain ⟨u, mem, part⟩ := List.mem_filterMap.1 (parts ▸ List.mem_singleton.2 rfl)
    refine ⟨u, mem, ?_⟩
    unfold ValuePart.ofToken? at part
    split at part
    · next value =>
      cases part
      rw [Token.idText?, if_pos ⟨value, filled⟩]
    · cases part
    · cases part

theorem ids_tagAttributes (ts : List Token) :
    ((Item.tagAttributes ts).1.filterMap Attribute.id?).Sublist
      ((ts.take (Item.tagAttributes ts).2.2).filterMap Token.idText?) := by
  fun_induction Item.tagAttributes ts with
  | case1 => exact List.nil_sublist _
  | case2 t ts kind hk as ending n h ih =>
    rw [h] at ih
    rw [List.take_succ_cons]
    exact ih.trans ((List.sublist_cons_self _ _).filterMap _)
  | case3 t ts hk size as ending n h ih =>
    rw [h] at ih
    have value : ts.take size = Item.valueTokens ts :=
      (List.prefix_iff_eq_take.1 (List.takeWhile_prefix _)).symm
    have first : (Attribute.of t.text (Item.valueOf ts) :: as).filterMap Attribute.id? =
        (Attribute.of t.text (Item.valueOf ts)).id?.toList ++ as.filterMap Attribute.id? := by
      rw [List.filterMap_cons]
      cases (Attribute.of t.text (Item.valueOf ts)).id? <;> rfl
    rw [first, List.take_succ_cons, Nat.add_comm n, List.take_add, value]
    refine .trans ?_ ((List.sublist_cons_self _ _).filterMap _)
    rw [List.filterMap_append]
    exact (id?_of t.text ts).append ih
  | case4 | case5 | case6 => exact List.nil_sublist _

theorem ids_read (t : Token) (ts : List Token) :
    (Item.ids ⟨(Item.read t ts).1, []⟩).Sublist
      ((ts.take (Item.read t ts).2).filterMap Token.idText?) := by
  unfold Item.read
  split
  case h_7 =>
    split
    · next tag n hn =>
      dsimp only
      rw [List.take_add, List.filterMap_append]
      exact (ids_tagAttributes (ts.drop n)).trans (List.sublist_append_right _ _)
    · exact List.nil_sublist _
  case h_8 => split <;> exact List.nil_sublist _
  all_goals exact List.nil_sublist _

/-- The IDs of items stand in attribute values, in order. -/
theorem ids_itemsOf (ts : List Token) :
    ((itemsOf ts).flatMap Item.ids).Sublist (ts.filterMap Token.idText?) := by
  fun_induction itemsOf ts with
  | case1 => exact List.nil_sublist _
  | case2 t ts form n h ih =>
    have first := ids_read t ts
    rw [h] at first
    have all : (t :: ts).filterMap Token.idText? =
        (t :: ts.take n).filterMap Token.idText? ++ (ts.drop n).filterMap Token.idText? := by
      rw [← List.filterMap_append, List.cons_append, List.take_append_drop]
    rw [List.flatMap_cons, all]
    exact (first.trans ((List.sublist_cons_self _ _).filterMap _)).append ih

/-! ### Places -/

/-- A part of an excerpt that is not empty has a place. -/
theorem Excerpt.start_lt_stop_slice {e : Excerpt} {a b : Nat}
    (filled : (e.slice a b).value.isEmpty = false) :
    (e.slice a b).span.start.offset < (e.slice a b).span.stop.offset := by
  have size : (e.slice a b).chars.length ≠ 0 := by
    intro none
    have empty : (e.slice a b).value = "" :=
      String.toList_inj.1 (List.eq_nil_of_length_eq_zero none)
    rw [empty] at filled
    cases filled
  rw [chars_slice, List.length_drop, List.length_take] at size
  change min b e.length - a ≠ 0 at size
  rw [start_slice, stop_slice]
  omega

variable {file text : String} {t u : Token} {id : Excerpt}

/-- An ID stands within its token. -/
theorem within_of_idText? (faithful : t.Faithful (.of file text)) (h : t.idText? = some id) :
    t.start ≤ id.span.start.offset ∧ id.span.start.offset < id.span.stop.offset ∧
      id.span.stop.offset ≤ t.stop ∧ id.span.file = file := by
  unfold Token.idText? at h
  split at h
  · next filled =>
    cases h
    have start := faithful.start_le
    have stop := faithful.le_stop
    have size := faithful.verbatim.length_eq
    have first := t.text.start_slice (t.text.chars.takeWhile isBlank).length
      (max (t.text.chars.takeWhile isBlank).length
        (t.text.length - (t.text.chars.reverse.takeWhile isBlank).length))
    have last := t.text.stop_slice (t.text.chars.takeWhile isBlank).length
      (max (t.text.chars.takeWhile isBlank).length
        (t.text.length - (t.text.chars.reverse.takeWhile isBlank).length))
    have le := faithful.verbatim.within.start_le
    refine ⟨?_, Excerpt.start_lt_stop_slice filled.2, ?_, faithful.verbatim.within.file⟩
    · rw [Excerpt.trim]
      omega
    · rw [Excerpt.trim]
      omega
  · cases h

/-- **The IDs of a file are pairwise different**, with their spans. -/
theorem nodup_ids (file text : String) :
    ((itemsOf (tokenize file text)).flatMap Item.ids).Nodup := by
  have on := LexerState.on_start (.of file text)
  have faithful : ∀ t ∈ tokenize file text, t.Faithful (.of file text) :=
    fun t => LexerState.faithful_of_mem_tokens on
  have order : (tokenize file text).Pairwise fun t u => t.stop ≤ u.start :=
    (LexerState.laid_tokens (k := none) on).pairwise.2
  refine (ids_itemsOf _).nodup (List.pairwise_filterMap.2 (order.imp_of_mem ?_))
  intro t u ht hu before id hid id' hid' same
  obtain ⟨-, lt, le, -⟩ := within_of_idText? (faithful t ht) hid
  obtain ⟨le', -⟩ := within_of_idText? (faithful u hu) hid'
  rw [same] at lt le
  omega

theorem file_of_mem_ids {item : Item} (mem : item ∈ itemsOf (tokenize file text))
    (h : id ∈ item.ids) : id.span.file = file := by
  have listed := (ids_itemsOf _).subset (List.mem_flatMap_of_mem mem h)
  obtain ⟨t, ht, hid⟩ := List.mem_filterMap.1 listed
  exact (within_of_idText? (LexerState.faithful_of_mem_tokens (LexerState.on_start _) ht) hid).2.2.2

/-! ### Files -/

section
variable {p : Project} {root g g' : Parsing}

theorem mem_paths_of_chain (chain : Relation.ReflTransGen (Includes p) root g) :
    root.file ∈ g.paths := by
  induction chain with
  | refl => exact List.mem_cons_self
  | tail _ step ih =>
    cases step
    exact List.mem_cons_of_mem _ ih

/-- A file that a chain leads to is the first one, or another one with the text that is stored. -/
theorem eq_or_read_of_chain (chain : Relation.ReflTransGen (Includes p) root g) :
    g = root ∨ g.file ≠ root.file ∧ p.files.read g.file = .ok g.text := by
  obtain rfl | ⟨f, before, step⟩ := chain.cases_tail
  · exact .inl rfl
  · cases step with
    | comment mem names resolved fresh readable =>
      refine .inr ⟨fun same => ?_, readable⟩
      have other := nameIn_eq_false.1 fresh root.file (mem_paths_of_chain before)
      rw [← same, sameName_refl] at other
      cases other

/-- Chains of files lead to one text under one path. -/
theorem text_eq_of_chain (chain : Relation.ReflTransGen (Includes p) root g)
    (chain' : Relation.ReflTransGen (Includes p) root g') (same : g.file = g'.file) :
    g.text = g'.text := by
  obtain rfl | ⟨other, read⟩ := eq_or_read_of_chain chain
  · obtain rfl | ⟨other', -⟩ := eq_or_read_of_chain chain'
    · rfl
    · exact absurd same.symm other'
  · obtain rfl | ⟨-, read'⟩ := eq_or_read_of_chain chain'
    · exact absurd same other
    · rw [same, read'] at read
      exact Except.ok.inj read.symm

/-- **The last ID of a tag is no earlier ID of any tag.** -/
theorem notMem_dropLast_of_getLast? {t t' : StartTag} (h : Met p root t) (h' : Met p root t')
    (last : t.ids.getLast? = some id) : id ∉ t'.ids.dropLast := by
  intro earlier
  obtain ⟨g, chain, item, mem, form⟩ := h
  obtain ⟨g', chain', item', mem', form'⟩ := h'
  have ids : item.ids = t.ids := by rw [Item.ids, form]
  have ids' : item'.ids = t'.ids := by rw [Item.ids, form']
  have here : id ∈ item.ids := ids ▸ List.mem_of_getLast? last
  have here' : id ∈ item'.ids := ids' ▸ List.dropLast_subset _ earlier
  have file : g.file = g'.file := (file_of_mem_ids mem here).symm.trans (file_of_mem_ids mem' here')
  rw [← file, ← text_eq_of_chain chain chain' file] at mem'
  obtain ⟨each, apart⟩ := List.nodup_flatMap.1 (nodup_ids g.file g.text)
  by_cases same : item = item'
  · subst same
    obtain ⟨before, split⟩ := List.getLast?_eq_some_iff.1 last
    have nodup := each item mem
    rw [ids, split] at nodup
    rw [← ids', ids, split, List.dropLast_concat] at earlier
    exact (List.nodup_append.1 nodup).2.2 id earlier id (List.mem_singleton.2 rfl) rfl
  · have : Std.Symm (Function.onFun List.Disjoint Item.ids) :=
      ⟨fun _ _ disjoint _ hx hx' => disjoint hx' hx⟩
    exact apart.forall mem mem' same here here'

end

end ServerMarkup
