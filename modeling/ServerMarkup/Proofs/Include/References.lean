/-
# References to files

A comment names a file by a stretch of its own text (`infix_of_includeReference?`), and a comment of
a page is a stretch of the page, so all that stands in a reference stands in the page
(`infix_of_reference?`).
-/

import ServerMarkup.Parse.File
import ServerMarkup.Proofs.Lexer.Faithful

namespace ServerMarkup

/-! ### Stretches of a text -/

/-- What is left behind leading blanks is a part of the text. -/
theorem infix_trimStart (cs : List Char) : trimStart cs <:+: cs :=
  (List.dropWhile_suffix _).isInfix

/-- What is left before trailing blanks is a part of the text. -/
theorem infix_trimEnd (cs : List Char) : trimEnd cs <:+: cs := by
  have kept := (List.dropWhile_suffix isBlank (l := cs.reverse)).isInfix
  rw [← List.reverse_infix] at kept
  rwa [List.reverse_reverse] at kept

/-- What is left of a text without blanks around it is a part of it. -/
theorem infix_trim (cs : List Char) : trim cs <:+: cs :=
  (infix_trimEnd _).trans (infix_trimStart cs)

/-- A text is what stands before the first separator, the separator and what stands behind. -/
theorem eq_of_cutFirst {sep : Char} {cs before after : List Char}
    (h : cutFirst sep cs = some (before, after)) : cs = before ++ sep :: after := by
  unfold cutFirst at h
  split at h
  · cases h
  · next c rest hd =>
    cases h
    have stop : c = sep := by
      have head := List.head?_dropWhile_not (· != sep) cs
      simpa [hd] using head
    have whole := List.takeWhile_append_dropWhile (p := (· != sep)) (l := cs)
    rw [hd, stop] at whole
    exact whole.symm

/-- What stands before and behind a separator are parts of the text. -/
theorem infix_of_cutFirst {sep : Char} {cs before after : List Char}
    (h : cutFirst sep cs = some (before, after)) : before <:+: cs ∧ after <:+: cs := by
  rw [eq_of_cutFirst h]
  exact ⟨(List.prefix_append _ _).isInfix,
    ((List.suffix_cons _ _).trans (List.suffix_append _ _)).isInfix⟩

/-- The name that follows an equals sign is a part of the text. -/
theorem infix_of_quotedOrWord? {cs name : List Char} (h : quotedOrWord? cs = some name) :
    name <:+: cs := by
  unfold quotedOrWord? at h
  split at h
  · cases h
  · next c rest =>
    split at h
    · obtain ⟨⟨before, after⟩, cut, rfl⟩ := Option.map_eq_some_iff.1 h
      exact (infix_of_cutFirst cut).1.trans (List.suffix_cons c rest).isInfix
    · cases h
      exact (List.takeWhile_prefix _).isInfix

/-- A comment names a file by a stretch of its text. -/
theorem infix_of_includeReference? {comment reference : String}
    (h : includeReference? comment = some reference) :
    reference.toList <:+: comment.toList := by
  obtain ⟨_, -, h⟩ := Option.bind_eq_some_iff.1 h
  obtain ⟨⟨kind, value⟩, cut, h⟩ := Option.bind_eq_some_iff.1 h
  obtain ⟨_, -, h⟩ := Option.bind_eq_some_iff.1 h
  obtain ⟨name, named, h⟩ := Option.bind_eq_some_iff.1 h
  obtain rfl : String.ofList name = reference := Option.some.inj h
  rw [String.toList_ofList]
  have kind : (trimStart comment.toList).drop 8 <:+: comment.toList :=
    (List.drop_suffix 8 _).isInfix.trans (infix_trimStart _)
  have value : value <:+: comment.toList :=
    (infix_of_cutFirst cut).2.trans ((infix_trimStart _).trans kind)
  exact (infix_of_quotedOrWord? named).trans ((infix_trimStart _).trans value)

/-! ### Items that include files -/

namespace ItemForm

/-- The file that the item includes, if it stands outside scripts. -/
def reference? : ItemForm → Option String
  | .comment e _ => includeReference? e.value
  | _ => none

/-- Only server comments name files. -/
theorem eq_comment {form : ItemForm} {reference : String} (h : form.reference? = some reference) :
    ∃ e span, form = .comment e span ∧ includeReference? e.value = some reference := by
  cases form with
  | comment e span => exact ⟨e, span, rfl, h⟩
  | _ => cases h

end ItemForm

/-- The text of a comment is that of its token. -/
theorem Item.text_of_read {t : Token} {ts : List Token} {e : Excerpt} {span : Span}
    (h : (read t ts).1 = .comment e span) : t.text = e := by
  unfold read at h
  split at h
  case h_5 =>
    cases h
    rfl
  case h_7 | h_8 => split at h <;> cases h
  all_goals cases h

/-- A server comment among the items is a token. -/
theorem exists_token_of_comment {ts : List Token} {item : Item} {e : Excerpt} {span : Span}
    (h : item ∈ itemsOf ts) (hf : item.form = .comment e span) : ∃ t ∈ ts, t.text = e := by
  fun_induction itemsOf ts with
  | case1 => cases h
  | case2 t ts form n hr ih =>
    rcases List.mem_cons.1 h with rfl | h
    · exact ⟨t, List.mem_cons_self, Item.text_of_read (by rw [hr]; exact hf)⟩
    · obtain ⟨u, hu, text⟩ := ih h
      exact ⟨u, List.mem_cons_of_mem _ (List.mem_of_mem_drop hu), text⟩

/-- The name of a file that a page includes is a stretch of the page. -/
theorem infix_of_reference? {file text reference : String} {item : Item}
    (h : item ∈ itemsOf (tokenize file text)) (names : item.form.reference? = some reference) :
    reference.toList <:+: text.toList := by
  obtain ⟨e, span, comment, names⟩ := ItemForm.eq_comment names
  obtain ⟨t, ht, rfl⟩ := exists_token_of_comment h comment
  have verbatim := (LexerState.faithful_of_mem_tokens (LexerState.on_start _) ht).verbatim
  have stretch : t.text.value.toList <:+: text.toList := by
    change t.text.chars <:+: text.toList
    rw [verbatim.chars_eq]
    exact ((List.take_prefix _ _).isInfix).trans (List.drop_suffix _ _).isInfix
  exact (infix_of_includeReference? names).trans stretch

/-! ### Files that are read -/

namespace Files

variable {fs : Files} {path text : String}

/-- The text of a file that is read is stored. -/
theorem text?_of_read (h : fs.read path = .ok text) : fs.text? path = some text := by
  unfold read at h
  split at h
  · cases h
  · split at h
    · next found =>
      cases h
      exact found
    · cases h

/-- What is read is a file. -/
theorem isFile_of_read (h : fs.read path = .ok text) : fs.isFile path = true := by
  simp [isFile, text?_of_read h]

/-- A text is stored under the normal path. -/
theorem mem_of_text? (h : fs.text? path = some text) : (normalPath path, text) ∈ fs.texts := by
  obtain ⟨f, hf, rfl⟩ := Option.map_eq_some_iff.1 h
  have same : f.1 = normalPath path := by simpa using List.find?_some hf
  rw [← same]
  exact List.mem_of_find?_eq_some hf

end Files

end ServerMarkup
