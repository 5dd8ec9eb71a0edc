/-
# Start tags as they are written

The look ahead over a start tag and the readers go by rules of their own.  `TagText` lists what a
tag may hold, behind its name, for the two to come to the same end; it speaks of the characters
alone and of neither scanner.

| in the tag | is |
| --- | --- |
| a blank | any |
| a code block or a server comment | one that ends with the first `%>` behind its opening |
| a stray character | `=`, `/` or the null character, not a quote |
| an attribute | a name without `<`, and a value that is quoted or holds no quote |

An attribute named `runat` stands behind a blank and is not followed by a quote or a block.  A value
without quotes that stands behind a blank does not begin with that word.

Two scans over a text are computed here as well: how far a reader goes over characters that do not
stop it (`reach_append`), and where the first end mark is (`distance?_append`).
-/

import ServerMarkup.Proofs.Lexer.Steps

namespace ServerMarkup

/-! ### The text of a tag -/

/-- A code block or a server comment that ends with the first `%>` behind its opening. -/
inductive IsBlock : List Char → Prop where
  | code {cs} (closed : ¬ ['%', '>'] <:+: cs) (statement : cs.head? ≠ some '@')
      (plain : ¬ ['-', '-'] <+: cs) : IsBlock ('<' :: '%' :: (cs ++ ['%', '>']))
  | comment {cs} (closed : ¬ ['%', '>'] <:+: '-' :: '-' :: (cs ++ ['-', '-'])) :
      IsBlock ('<' :: '%' :: ('-' :: '-' :: (cs ++ ['-', '-']) ++ ['%', '>']))

/-- A character of an attribute name, but for `<`, at which a look ahead gives up. -/
def isNameChar (c : Char) : Bool :=
  !(isBlank c || ['\x00', '"', '\x27', '>', '/', '=', '<'].contains c)

/-- A character of a value without quotes, but for the quotes themselves. -/
def isValueChar (c : Char) : Bool :=
  !(isBlank c || ['<', '>', '\x60', '"', '\x27'].contains c)

/-- Whether the attribute name is `runat`, in any letter case. -/
def namesRunat (name : List Char) : Bool :=
  sameName (String.ofList name) "runat"

/-- An attribute name in front of `rest`, which is behind a blank if `b`. -/
structure NameText (b : Bool) (name rest : List Char) : Prop where
  filled : name ≠ []
  plain : ∀ c ∈ name, isNameChar c = true
  ends : endsName .tag rest = true
  /-- The name `runat` is one that a look ahead sees. -/
  seen : namesRunat name = true → b = true ∧ startsRunat (name ++ rest) = true

/-- Characters of a value in the quotes `q` that neither end it nor begin a block. -/
structure IsFragment (q : Char) (cs : List Char) : Prop where
  within : q ∉ cs
  plain : ¬ ['<', '%'] <:+: cs

/-- A value in the quotes `q`: fragments around blocks. -/
inductive QuotedText (q : Char) : List Char → Prop where
  | last {frag} (fragment : IsFragment q frag) : QuotedText q frag
  | block {frag k w} (fragment : IsFragment q frag) (block : IsBlock k) (more : QuotedText q w) :
      QuotedText q (frag ++ (k ++ w))

/-- `TagText b w f`: the text `w` is what follows the name of a start tag, up to and with its end,
or the part of this from some place on, which is behind a blank if `b`.  An attribute `runat` is in
it exactly if `f`. -/
inductive TagText : Bool → List Char → Bool → Prop where
  | opened {b} : TagText b ['>'] false
  | selfClosed {b} : TagText b ['/', '>'] false
  | blank {b x w f} (blank : isBlank x = true) (more : TagText true w f) : TagText b (x :: w) f
  | block {b k w f} (block : IsBlock k) (more : TagText false w f) : TagText b (k ++ w) f
  | stray {b x w f} (stray : x ∈ ['\x00', '=', '/']) (going : x = '/' → w.head? ≠ some '>')
      (more : TagText false w f) : TagText b (x :: w) f
  | bare {b name w f} (named : NameText b name w)
      (valueless : (w.dropWhile isBlank).head? ≠ some '=') (more : TagText false w f) :
      TagText b (name ++ w) (namesRunat name || f)
  | unquoted {b name before behind value w f}
      (named : NameText b name (before ++ '=' :: (behind ++ (value ++ w))))
      (blank : ∀ c ∈ before ++ behind, isBlank c = true)
      (plain : ∀ c ∈ value, isValueChar c = true) (ends : endsValue .tag w = true)
      (led : (value ++ w).head?.any isBlank = false)
      (apart : behind ≠ [] → startsRunat (value ++ w) = false) (more : TagText false w f) :
      TagText b (name ++ (before ++ '=' :: (behind ++ (value ++ w)))) (namesRunat name || f)
  | quoted {b name before behind q value w f}
      (named : NameText b name (before ++ '=' :: (behind ++ q :: (value ++ q :: w))))
      (blank : ∀ c ∈ before ++ behind, isBlank c = true) (quote : q = '"' ∨ q = '\x27')
      (inner : QuotedText q value) (more : TagText false w f) :
      TagText b (name ++ (before ++ '=' :: (behind ++ q :: (value ++ q :: w))))
        (namesRunat name || f)

/-- Only a `<` begins a block. -/
theorem isPrefixOf_eq_false_of_ne {c : Char} {cs : List Char} (h : c ≠ '<') :
    ['<', '%'].isPrefixOf (c :: cs) = false := by
  rw [Bool.eq_false_iff, ne_eq, List.isPrefixOf_iff_prefix]
  rintro ⟨ys, hy⟩
  exact h (List.cons.inj hy).1.symm

theorem IsFragment.of_suffix {q : Char} {cs frag : List Char} (fragment : IsFragment q frag)
    (suffix : cs <:+ frag) : IsFragment q cs :=
  ⟨fun h => fragment.within (suffix.subset h), fun h => fragment.plain (h.trans suffix.isInfix)⟩

/-- No block begins in a fragment. -/
theorem IsFragment.not_opens {q x : Char} {xs cs : List Char} (fragment : IsFragment q (x :: xs))
    (next : cs.head? ≠ some '%') : ¬ ['<', '%'] <+: x :: (xs ++ cs) := by
  rintro ⟨ys, hy⟩
  obtain ⟨rfl, second⟩ := List.cons.inj hy
  cases xs with
  | nil => exact next (congrArg List.head? second.symm)
  | cons y xs =>
    obtain ⟨rfl, -⟩ := List.cons.inj second
    exact fragment.plain ⟨[], xs, rfl⟩

theorem isNameChar_iff {c : Char} : isNameChar c = true ↔
    isBlank c = false ∧ c ∉ ['\x00', '"', '\x27', '>', '/', '=', '<'] := by
  rw [isNameChar, Bool.not_eq_true', Bool.or_eq_false_iff, ← Bool.not_eq_true (List.contains _ c),
    List.contains_iff_mem]

theorem isValueChar_iff {c : Char} : isValueChar c = true ↔
    isBlank c = false ∧ c ∉ ['<', '>', '\x60', '"', '\x27'] := by
  rw [isValueChar, Bool.not_eq_true', Bool.or_eq_false_iff, ← Bool.not_eq_true (List.contains _ c),
    List.contains_iff_mem]

/-- The text of a tag holds the `>` that ends it. -/
theorem TagText.closed {b f : Bool} {w : List Char} (h : TagText b w f) : '>' ∈ w := by
  induction h with
  | opened | selfClosed => simp
  | blank _ _ ih | stray _ _ _ ih => exact List.mem_cons_of_mem _ ih
  | block _ _ ih | bare _ _ _ ih => exact List.mem_append_right _ ih
  | unquoted _ _ _ _ _ _ _ ih | quoted _ _ _ _ _ ih => simp [ih]

/-! ### Scans over a text -/

/-- A reader that is stopped nowhere in `xs`, but by what follows, takes all of `xs`. -/
theorem reachFrom_append {stop : Nat → List Char → Bool} {xs ys : List Char} {i : Nat}
    (going : ∀ j < xs.length, stop (i + j) ((xs ++ ys).drop j) = false)
    (stops : ys = [] ∨ stop (i + xs.length) ys = true) :
    reachFrom stop i (xs ++ ys) = i + xs.length := by
  induction xs generalizing i with
  | nil =>
    cases ys with
    | nil => rfl
    | cons y ys =>
      rcases stops with empty | stops
      · cases empty
      · exact if_pos stops
  | cons x xs ih =>
    have first : stop i (x :: (xs ++ ys)) = false := going 0 (Nat.succ_pos _)
    rw [List.length_cons, ← Nat.add_assoc, Nat.add_right_comm] at stops ⊢
    rw [List.cons_append, reachFrom, first, if_neg Bool.false_ne_true, ih _ stops]
    intro j hj
    rw [Nat.add_right_comm]
    exact going (j + 1) (Nat.succ_lt_succ hj)

theorem reach_append {stop : Nat → List Char → Bool} {xs ys : List Char}
    (going : ∀ j < xs.length, stop j ((xs ++ ys).drop j) = false)
    (stops : ys = [] ∨ stop xs.length ys = true) : reach stop (xs ++ ys) = xs.length := by
  have taken := reachFrom_append (i := 0) (by simpa using going) (by simpa using stops)
  exact taken.trans (Nat.zero_add _)

/-- A mark that stands behind `xs` and nowhere before is found there. -/
theorem distanceFrom?_append {mark xs ys : List Char} {i : Nat} (filled : mark ≠ [])
    (first : ∀ j < xs.length, ¬ mark <+: (xs ++ (mark ++ ys)).drop j) :
    distanceFrom? mark i (xs ++ (mark ++ ys)) = some (i + xs.length) := by
  induction xs generalizing i with
  | nil =>
    have here : mark.isPrefixOf (mark ++ ys) = true :=
      List.isPrefixOf_iff_prefix.2 (List.prefix_append mark ys)
    obtain ⟨c, cs, hc⟩ := List.exists_cons_of_ne_nil filled
    rw [List.nil_append]
    rw [hc, List.cons_append] at here ⊢
    exact if_pos here
  | cons x xs ih =>
    have later : mark.isPrefixOf (x :: (xs ++ (mark ++ ys))) = false := by
      rw [Bool.eq_false_iff]
      intro here
      exact first 0 (Nat.succ_pos _) (List.isPrefixOf_iff_prefix.1 here)
    rw [List.cons_append, distanceFrom?, later, if_neg Bool.false_ne_true,
      ih fun j hj => first (j + 1) (Nat.succ_lt_succ hj), List.length_cons]
    congr 1
    omega

theorem distance?_append {mark xs ys : List Char} (filled : mark ≠ [])
    (first : ∀ j < xs.length, ¬ mark <+: (xs ++ (mark ++ ys)).drop j) :
    distance? mark (xs ++ (mark ++ ys)) = some xs.length :=
  (distanceFrom?_append filled first).trans (congrArg some (Nat.zero_add _))

/-- Before the `%>` that ends a text without one there is none. -/
theorem not_prefix_drop_of_closed {cs ys : List Char} (closed : ¬ ['%', '>'] <:+: cs) {j : Nat}
    (hj : j < cs.length) : ¬ ['%', '>'] <+: (cs ++ (['%', '>'] ++ ys)).drop j := by
  rintro ⟨zs, hz⟩
  rw [List.drop_append_of_le_length (Nat.le_of_lt hj)] at hz
  have split := List.take_append_drop j cs
  cases hd : cs.drop j with
  | nil =>
    rw [List.drop_eq_nil_iff] at hd
    omega
  | cons x xs =>
    rw [hd] at hz split
    cases xs with
    | nil => simp at hz
    | cons y xs =>
      simp only [List.cons_append, List.nil_append, List.cons.injEq] at hz
      exact closed ⟨cs.take j, xs, by rw [hz.1, hz.2.1, List.append_assoc]; exact split⟩

/-! ### The word `runat` -/

/-- A blank is not a letter, capital or small. -/
theorem not_isBlank_of_toLower {c : Char} (h : c.toLower ∈ ['r', 'u', 'n', 'a', 't']) :
    isBlank c = false := by
  have capital : ∀ n ≤ 90, 65 ≤ n → blanks.contains n = false := by decide
  unfold Char.toLower at h
  split at h
  · next range => exact capital c.toNat range.2 range.1
  · simp only [List.mem_cons, List.not_mem_nil, or_false] at h
    rcases h with rfl | rfl | rfl | rfl | rfl <;> decide

/-- No letter of the word is one at which a name ends. -/
theorem not_mem_runat_of_endsName {c : Char} {cs : List Char}
    (ends : endsName .tag (c :: cs) = true) : c.toLower ∉ ['r', 'u', 'n', 'a', 't'] := by
  intro letter
  simp only [endsName, not_isBlank_of_toLower letter, Bool.false_or, Bool.or_eq_true,
    Bool.and_eq_true] at ends
  rcases ends with (mark | opens) | ⟨place, -⟩
  · simp only [List.contains_iff_mem, List.mem_cons, List.not_mem_nil, or_false] at mark
    rcases mark with rfl | rfl | rfl | rfl | rfl | rfl <;> exact absurd letter (by decide)
  · obtain ⟨ys, hy⟩ := List.isPrefixOf_iff_prefix.1 opens
    obtain rfl := (List.cons.inj hy).1
    exact absurd letter (by decide)
  · cases place

theorem namedAt_eq_false {word cs : List Char} {c : Char} (early : c ∈ cs.take word.length)
    (other : c.toLower ∉ word) : namedAt word cs = false := by
  induction word generalizing cs with
  | nil => simp at early
  | cons w ws ih =>
    cases cs with
    | nil => rfl
    | cons x xs =>
      rw [namedAt, Bool.and_eq_false_iff]
      rw [List.length_cons, List.take_succ_cons] at early
      rcases List.mem_cons.1 early with rfl | early
      · left
        exact beq_eq_false_iff_ne.2 fun h => other (h ▸ List.mem_cons_self)
      · exact .inr (ih early fun h => other (List.mem_cons_of_mem w h))

/-- A text with another letter among its first five does not begin with the word. -/
theorem startsRunat_eq_false {cs : List Char} {c : Char} (early : c ∈ cs.take 5)
    (other : c.toLower ∉ ['r', 'u', 'n', 'a', 't']) : startsRunat cs = false := by
  rw [startsRunat, namedAt_eq_false early other, Bool.false_and]

theorem startsRunat_blank {c : Char} {cs : List Char} (blank : isBlank c = true) :
    startsRunat (c :: cs) = false := by
  refine startsRunat_eq_false List.mem_cons_self fun letter => ?_
  rw [not_isBlank_of_toLower letter] at blank
  cases blank

theorem namedAt_append {word cs ds : List Char} (long : word.length ≤ cs.length) :
    namedAt word (cs ++ ds) = namedAt word cs := by
  induction word generalizing cs with
  | nil => simp [namedAt]
  | cons w ws ih =>
    cases cs with
    | nil => simp at long
    | cons c cs =>
      rw [List.cons_append, namedAt, namedAt, ih (Nat.le_of_succ_le_succ long)]

/-- What follows the end of a tag does not matter for the words in it. -/
theorem startsRunat_append {cs ds : List Char} (closed : '>' ∈ cs) :
    startsRunat (cs ++ ds) = startsRunat cs := by
  by_cases long : 5 < cs.length
  · have more : cs.drop 5 ≠ [] := by
      rw [ne_eq, List.drop_eq_nil_iff]
      omega
    obtain ⟨x, xs, hx⟩ := List.exists_cons_of_ne_nil more
    have all : ['r', 'u', 'n', 'a', 't'].length ≤ cs.length := Nat.le_of_lt long
    rw [startsRunat, startsRunat, namedAt_append all,
      List.drop_append_of_le_length (Nat.le_of_lt long), hx]
    rfl
  · have short : cs.take 5 = cs := List.take_of_length_le (Nat.le_of_not_lt long)
    have early : '>' ∈ (cs ++ ds).take 5 := by
      rw [List.take_append, short]
      exact List.mem_append_left _ closed
    rw [startsRunat_eq_false early (by decide),
      startsRunat_eq_false (short.symm ▸ closed) (by decide)]

/-- A text of the length of a word that begins with the word is the word. -/
theorem map_toLower_of_namedAt {word cs : List Char} (h : namedAt word cs = true)
    (size : cs.length = word.length) : cs.map Char.toLower = word := by
  induction word generalizing cs with
  | nil => rw [List.length_eq_zero_iff.1 size, List.map_nil]
  | cons w ws ih =>
    cases cs with
    | nil => cases h
    | cons c cs =>
      rw [namedAt, Bool.and_eq_true] at h
      rw [List.map_cons, ih h.2 (Nat.succ.inj size), beq_iff_eq.1 h.1]

/-- A text begins with the word exactly if the name that it begins with is the word. -/
theorem NameText.namesRunat_of_startsRunat {b : Bool} {name rest : List Char}
    (named : NameText b name rest) (filled : rest ≠ []) (h : startsRunat (name ++ rest) = true) :
    namesRunat name = true := by
  obtain ⟨x, xs, rfl⟩ := List.exists_cons_of_ne_nil filled
  rcases Nat.lt_trichotomy name.length 5 with short | five | long
  · have early : x ∈ (name ++ x :: xs).take 5 := by
      rw [List.take_append]
      refine List.mem_append_right _ ?_
      obtain ⟨n, hn⟩ := Nat.exists_eq_add_of_lt short
      rw [show 5 - name.length = n + 1 by omega, List.take_succ_cons]
      exact List.mem_cons_self
    rw [startsRunat_eq_false early (not_mem_runat_of_endsName named.ends)] at h
    cases h
  · have all : ['r', 'u', 'n', 'a', 't'].length ≤ name.length := Nat.le_of_eq five.symm
    rw [startsRunat, Bool.and_eq_true, namedAt_append all] at h
    have letters := map_toLower_of_namedAt h.1 five
    rw [namesRunat, sameName_iff, lowered, lowered, String.toList_ofList, letters]
    decide
  · have more : name.drop 5 ≠ [] := by
      rw [ne_eq, List.drop_eq_nil_iff]
      omega
    obtain ⟨y, ys, hy⟩ := List.exists_cons_of_ne_nil more
    have inside := named.plain y (List.mem_of_mem_drop (hy ▸ List.mem_cons_self))
    obtain ⟨led, other⟩ := isNameChar_iff.1 inside
    have marks : ['=', '>', '/', '\x00'] ⊆ ['\x00', '"', '\x27', '>', '/', '=', '<'] := by decide
    rw [startsRunat, List.drop_append_of_le_length (Nat.le_of_lt long), hy] at h
    simp only [List.cons_append, led, Bool.or_false, Bool.and_eq_true,
      List.contains_iff_mem] at h
    exact absurd (marks h.2) other

/-- A look ahead sees the name `runat` and no other, whatever follows the tag. -/
theorem NameText.seen_eq {b : Bool} {name rest : List Char} (named : NameText b name rest)
    (closed : '>' ∈ rest) (after : List Char) :
    (b && startsRunat (name ++ (rest ++ after))) = namesRunat name := by
  rw [← List.append_assoc, startsRunat_append (List.mem_append_right name closed)]
  cases word : namesRunat name with
  | true =>
    obtain ⟨rfl, seen⟩ := named.seen word
    rw [seen, Bool.true_and]
  | false =>
    rw [Bool.and_eq_false_iff]
    refine .inr (Bool.eq_false_iff.2 fun h => ?_)
    rw [named.namesRunat_of_startsRunat (List.ne_nil_of_mem closed) h] at word
    cases word

end ServerMarkup
