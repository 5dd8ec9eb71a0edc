/-
# What a look ahead over a tag finds

`inspectFrom` passes over the characters of a tag with a few rules of its own: quotes are opened and
closed wherever they stand, a `<%` goes on to the next `%>`, and the word `runat` counts where it
follows a blank.  Here these rules are run over texts.  What has been found stays found and the
character before a place does not matter, so it is enough to say what is found from a place on
(`Source.finds`), or from a place that may be behind a blank (`Source.findsFrom`).

Over the text of a tag that is written as `TagText` says, the look ahead finds `runat` exactly if an
attribute has that name (`findsFrom_tagText`).
-/

import ServerMarkup.Proofs.Lexer.Written

namespace ServerMarkup

/-! ### End marks -/

/-- Behind the horizon of a text the mark does not occur. -/
theorem distance?_drop_of_horizonFrom {mark : List Char} {i last n : Nat} {cs : List Char}
    (h : horizonFrom mark i last cs ≤ i + n) : distance? mark (cs.drop n) = none := by
  induction n generalizing i last cs with
  | zero => exact distanceFrom?_eq_none_of_horizonFrom h 0
  | succ n ih =>
    cases cs with
    | nil => rfl
    | cons c cs =>
      rw [horizonFrom, ← Nat.add_assoc, Nat.add_right_comm] at h
      exact ih h

namespace Source

variable {s : Source}

/-- A source knows where the end marks of its text are. -/
def Honest (s : Source) : Prop :=
  s.horizons = .of s.text

theorem honest_of (file text : String) : (Source.of file text).Honest := rfl

/-- The search for an end mark finds the next one. -/
theorem Honest.ahead?_eq (honest : s.Honest) {m : EndMark} {o : Nat} :
    s.ahead? m o (s.text.drop o) = distance? m.chars (s.text.drop o) := by
  unfold ahead?
  split
  · next behind =>
    rw [honest, Horizons.get_of, horizon] at behind
    exact (distance?_drop_of_horizonFrom ((Nat.zero_add o).symm ▸ behind)).symm
  · rfl

end Source

/-- Every block is a `<%`, characters without `%>`, and `%>`. -/
theorem IsBlock.exists_inner {k : List Char} (h : IsBlock k) :
    ∃ cs, k = '<' :: '%' :: (cs ++ ['%', '>']) ∧ ¬ ['%', '>'] <:+: cs := by
  cases h with
  | code closed => exact ⟨_, rfl, closed⟩
  | comment closed => exact ⟨_, rfl, closed⟩

/-! ### The look ahead -/

/-- Whether a look ahead finds `runat` in `cs`, the text from the offset `o` on, if that lies within
the quote. -/
def Source.finds (s : Source) (o : Nat) (quote : Option Char) (cs : List Char) : Bool :=
  (inspectFrom s o 0 quote none false cs).runat

/-- Whether a look ahead finds `runat` in `cs`, or right at its start if that is behind a blank. -/
def Source.findsFrom (s : Source) (behind : Bool) (o : Nat) (cs : List Char) : Bool :=
  behind && startsRunat cs || s.finds o none cs

variable {s : Source} {o : Nat} {cs : List Char}

/-- The character before a place does not matter for what is found. -/
theorem runat_inspectFrom_last {skip : Nat} {quote last last' : Option Char} {r : Bool} :
    (inspectFrom s o skip quote last r cs).runat =
      (inspectFrom s o skip quote last' r cs).runat := by
  cases cs with
  | nil => rfl
  | cons c cs =>
    unfold inspectFrom
    cases skip with
    | succ skip => rfl
    | zero =>
      dsimp only
      split
      · rfl
      · split
        · rfl
        · split <;> rfl

/-- What has been found stays found. -/
theorem runat_inspectFrom_found {skip : Nat} {quote last : Option Char} {r : Bool} :
    (inspectFrom s o skip quote last r cs).runat =
      (r || (inspectFrom s o skip quote last false cs).runat) := by
  induction cs generalizing o skip quote last r with
  | nil => simp [inspectFrom]
  | cons c cs ih =>
    unfold inspectFrom
    cases skip with
    | succ skip => exact ih
    | zero =>
      dsimp only
      split
      · split
        · exact ih
        · simp
      split
      · exact ih
      split
      · simp
      split
      · simp
      split
      · exact ih
      · rw [ih, Bool.or_assoc, ← ih, Bool.false_or]

/-- At an opening whose end mark follows, the look ahead passes over the block. -/
theorem inspectFrom_opening {quote last : Option Char} {r : Bool} {n : Nat}
    (ahead : s.ahead? .code (o + 2) cs = some n) :
    inspectFrom s o 0 quote last r ('<' :: '%' :: cs) =
      inspectFrom s (o + 1) (n + 3) quote (some '<') r ('%' :: cs) := by
  have opens : ['<', '%'].isPrefixOf ('<' :: '%' :: cs) = true := rfl
  rw [inspectFrom.eq_def]
  dsimp only
  rw [if_pos opens, List.drop_succ_cons, List.drop_zero, ahead]

/-! One step of the look ahead, where no block begins. -/

theorem inspectFrom_within {q c : Char} {last : Option Char} {r : Bool}
    (plain : ¬ ['<', '%'] <+: c :: cs) : inspectFrom s o 0 (some q) last r (c :: cs) =
      inspectFrom s (o + 1) 0 (if c = q then none else some q) (some c) r cs := by
  rw [← List.isPrefixOf_iff_prefix] at plain
  rw [inspectFrom.eq_def]
  dsimp only
  rw [if_neg plain]

theorem inspectFrom_quote {q : Char} {last : Option Char} {r : Bool} (quote : q = '"' ∨ q = '\x27') :
    inspectFrom s o 0 none last r (q :: cs) = inspectFrom s (o + 1) 0 (some q) (some q) r cs := by
  rcases quote with rfl | rfl <;> rfl

theorem inspectFrom_char {c : Char} {last : Option Char} {r : Bool}
    (plain : c ∉ ['<', '>', '"', '\x27']) : inspectFrom s o 0 none last r (c :: cs) =
      inspectFrom s (o + 1) 0 none (some c) (r || (isBlank c && startsRunat cs)) cs := by
  simp only [List.mem_cons, List.not_mem_nil, or_false, not_or] at plain
  rw [inspectFrom.eq_def]
  dsimp only
  rw [isPrefixOf_eq_false_of_ne plain.1, if_neg Bool.false_ne_true, if_neg plain.2.1,
    if_neg plain.1, if_neg (by simp [plain])]

/-! Runs of characters. -/

theorem not_mark_of_blank {c : Char} (blank : isBlank c = true) :
    c ∉ ['<', '>', '"', '\x27'] := by
  intro h
  simp only [List.mem_cons, List.not_mem_nil, or_false] at h
  rcases h with rfl | rfl | rfl | rfl <;> exact absurd blank (by decide)

theorem not_mark_of_isNameChar {c : Char} (plain : isNameChar c = true) :
    isBlank c = false ∧ c ∉ ['<', '>', '"', '\x27'] := by
  obtain ⟨led, other⟩ := isNameChar_iff.1 plain
  have marks : ['<', '>', '"', '\x27'] ⊆ ['\x00', '"', '\x27', '>', '/', '=', '<'] := by decide
  exact ⟨led, fun mark => other (marks mark)⟩

/-- Characters that are neither blanks nor marks are passed over. -/
theorem exists_inspectFrom_word {xs : List Char} {r : Bool} (last : Option Char)
    (word : ∀ c ∈ xs, isBlank c = false ∧ c ∉ ['<', '>', '"', '\x27']) :
    ∃ last', inspectFrom s o 0 none last r (xs ++ cs) =
      inspectFrom s (o + xs.length) 0 none last' r cs := by
  induction xs generalizing o last with
  | nil => exact ⟨last, rfl⟩
  | cons x xs ih =>
    obtain ⟨first, rest⟩ := List.forall_mem_cons.1 word
    obtain ⟨last', same⟩ := ih (o := o + 1) (some x) rest
    refine ⟨last', ?_⟩
    rw [List.cons_append, inspectFrom_char first.2, first.1, Bool.false_and, Bool.or_false, same,
      List.length_cons, Nat.add_assoc, Nat.add_comm 1]

/-- Blanks are passed over; only behind the last one may the word begin. -/
theorem exists_inspectFrom_blanks {xs : List Char} {r : Bool} {last : Option Char}
    (blank : ∀ c ∈ xs, isBlank c = true) (apart : xs ≠ [] → startsRunat cs = false)
    (slash : last ≠ some '/') : ∃ last', last' ≠ some '/' ∧
      inspectFrom s o 0 none last r (xs ++ cs) =
        inspectFrom s (o + xs.length) 0 none last' r cs := by
  induction xs generalizing o last with
  | nil => exact ⟨last, slash, rfl⟩
  | cons x xs ih =>
    obtain ⟨first, rest⟩ := List.forall_mem_cons.1 blank
    have none : startsRunat (xs ++ cs) = false := by
      cases xs with
      | nil => exact apart (List.cons_ne_nil _ _)
      | cons y ys => exact startsRunat_blank (List.forall_mem_cons.1 rest).1
    have other : some x ≠ some '/' := by
      rintro ⟨⟩
      exact absurd first (by decide)
    obtain ⟨last', slash', same⟩ :=
      ih (o := o + 1) rest (fun _ => apart (List.cons_ne_nil _ _)) other
    refine ⟨last', slash', ?_⟩
    rw [List.cons_append, inspectFrom_char (not_mark_of_blank first), none, Bool.and_false,
      Bool.or_false, same, List.length_cons, Nat.add_assoc, Nat.add_comm 1]

/-- Characters of a quoted value are passed over. -/
theorem exists_inspectFrom_fragment {q : Char} {frag : List Char} {r : Bool}
    (last : Option Char) (fragment : IsFragment q frag) (next : cs.head? ≠ some '%') :
    ∃ last', inspectFrom s o 0 (some q) last r (frag ++ cs) =
      inspectFrom s (o + frag.length) 0 (some q) last' r cs := by
  induction frag generalizing o last with
  | nil => exact ⟨last, rfl⟩
  | cons x xs ih =>
    have later := fragment.of_suffix (List.suffix_cons x xs)
    have other : x ≠ q := fun h => fragment.within (h ▸ List.mem_cons_self)
    obtain ⟨last', same⟩ := ih (o := o + 1) (some x) later
    refine ⟨last', ?_⟩
    rw [List.cons_append, inspectFrom_within (fragment.not_opens next), if_neg other, same,
      List.length_cons, Nat.add_assoc, Nat.add_comm 1]

/-- Over the characters of a block the look ahead goes on. -/
theorem runat_inspectFrom_skip {xs : List Char} {quote last : Option Char} :
    (inspectFrom s o xs.length quote last false (xs ++ cs)).runat =
      s.finds (o + xs.length) quote cs := by
  induction xs generalizing o last with
  | nil => exact runat_inspectFrom_last
  | cons x xs ih =>
    rw [List.length_cons, List.cons_append, inspectFrom]
    refine ih.trans ?_
    rw [Nat.add_right_comm, Nat.add_assoc]

namespace Source

/-- Behind a block the look ahead goes on as it would before it. -/
theorem finds_block (honest : s.Honest) {k : List Char} {quote : Option Char} (block : IsBlock k)
    (rest : s.text.drop o = k ++ cs) :
    s.finds o quote (k ++ cs) = s.finds (o + k.length) quote cs := by
  obtain ⟨inner, rfl, closed⟩ := block.exists_inner
  have behind : s.text.drop (o + 2) = inner ++ (['%', '>'] ++ cs) := by
    rw [← List.drop_drop, rest]
    simp
  have ahead : s.ahead? .code (o + 2) (inner ++ (['%', '>'] ++ cs)) = some inner.length := by
    rw [← behind, honest.ahead?_eq, behind]
    exact distance?_append (List.cons_ne_nil _ _) fun j hj => not_prefix_drop_of_closed closed hj
  rw [show '<' :: '%' :: (inner ++ ['%', '>']) ++ cs =
    '<' :: '%' :: (inner ++ (['%', '>'] ++ cs)) by simp, finds, inspectFrom_opening ahead]
  have size : inner.length + 3 = ('%' :: (inner ++ ['%', '>'])).length := by simp
  rw [show '%' :: (inner ++ (['%', '>'] ++ cs)) = '%' :: (inner ++ ['%', '>']) ++ cs by simp, size,
    runat_inspectFrom_skip, List.length_cons (a := '<'), Nat.add_assoc, Nat.add_comm 1]

theorem finds_within {q c : Char} (plain : ¬ ['<', '%'] <+: c :: cs) :
    s.finds o (some q) (c :: cs) = s.finds (o + 1) (if c = q then none else some q) cs := by
  rw [finds, inspectFrom_within plain]
  exact runat_inspectFrom_last

theorem finds_quote {q : Char} (quote : q = '"' ∨ q = '\x27') :
    s.finds o none (q :: cs) = s.finds (o + 1) (some q) cs := by
  rw [finds, inspectFrom_quote quote]
  exact runat_inspectFrom_last

theorem finds_char {c : Char} (plain : c ∉ ['<', '>', '"', '\x27']) :
    s.finds o none (c :: cs) = s.findsFrom (isBlank c) (o + 1) cs := by
  rw [finds, inspectFrom_char plain, runat_inspectFrom_found, Bool.false_or,
    runat_inspectFrom_last]
  rfl

theorem finds_word {xs : List Char}
    (word : ∀ c ∈ xs, isBlank c = false ∧ c ∉ ['<', '>', '"', '\x27']) :
    s.finds o none (xs ++ cs) = s.finds (o + xs.length) none cs := by
  obtain ⟨last', passed⟩ := exists_inspectFrom_word (s := s) (o := o) none word
  rw [finds, passed]
  exact runat_inspectFrom_last

theorem finds_fragment {q : Char} {frag : List Char} (fragment : IsFragment q frag)
    (next : cs.head? ≠ some '%') :
    s.finds o (some q) (frag ++ cs) = s.finds (o + frag.length) (some q) cs := by
  obtain ⟨last', passed⟩ := exists_inspectFrom_fragment (s := s) (o := o) none fragment next
  rw [finds, passed]
  exact runat_inspectFrom_last

/-- A quoted value is passed over with its closing quote. -/
theorem finds_quoted (honest : s.Honest) {q : Char} {v : List Char} (quote : q = '"' ∨ q = '\x27')
    (inner : QuotedText q v) (rest : s.text.drop o = v ++ q :: cs) :
    s.finds o (some q) (v ++ q :: cs) = s.finds (o + (v.length + 1)) none cs := by
  induction inner generalizing o with
  | last fragment =>
    have next : (q :: cs).head? ≠ some '%' := by rcases quote with rfl | rfl <;> simp
    have plain : ¬ ['<', '%'] <+: q :: cs := by rcases quote with rfl | rfl <;> simp
    rw [finds_fragment fragment next, finds_within plain, if_pos rfl, Nat.add_assoc]
  | @block frag k w fragment block more ih =>
    have next : (k ++ (w ++ q :: cs)).head? ≠ some '%' := by
      obtain ⟨inner, rfl, -⟩ := block.exists_inner
      simp
    rw [List.append_assoc, List.append_assoc] at rest ⊢
    have atBlock : s.text.drop (o + frag.length) = k ++ (w ++ q :: cs) := by
      rw [← List.drop_drop, rest, List.drop_left]
    have behind : s.text.drop (o + frag.length + k.length) = w ++ q :: cs := by
      rw [← List.drop_drop, atBlock, List.drop_left]
    rw [finds_fragment fragment next, finds_block honest block atBlock, ih behind]
    congr 1
    simp only [List.length_append]
    omega

theorem finds_blanks {xs : List Char} (blank : ∀ c ∈ xs, isBlank c = true)
    (apart : xs ≠ [] → startsRunat cs = false) :
    s.finds o none (xs ++ cs) = s.finds (o + xs.length) none cs := by
  obtain ⟨last', -, passed⟩ := exists_inspectFrom_blanks (s := s) (o := o) blank apart
    (Option.some_ne_none _).symm
  rw [finds, passed]
  exact runat_inspectFrom_last

/-- From a name on, the look ahead finds it if it is the word, or else what it finds behind it. -/
theorem findsFrom_name {b : Bool} {name rest : List Char} (named : NameText b name rest)
    (closed : '>' ∈ rest) (after : List Char) :
    s.findsFrom b o (name ++ (rest ++ after)) =
      (namesRunat name || s.finds (o + name.length) none (rest ++ after)) := by
  rw [findsFrom, named.seen_eq closed,
    finds_word fun c hc => not_mark_of_isNameChar (named.plain c hc)]

theorem finds_value {value : List Char} (plain : ∀ c ∈ value, isValueChar c = true) :
    s.finds o none (value ++ cs) = s.finds (o + value.length) none cs := by
  refine finds_word ?_
  intro c hc
  obtain ⟨led, other⟩ := isValueChar_iff.1 (plain c hc)
  have marks : ['<', '>', '"', '\x27'] ⊆ ['<', '>', '\x60', '"', '\x27'] := by decide
  exact ⟨led, fun mark => other (marks mark)⟩

/-- The equals sign of an attribute is passed over with the blanks around it. -/
theorem finds_equals {before behind : List Char}
    (blank : ∀ c ∈ before ++ behind, isBlank c = true)
    (apart : behind ≠ [] → startsRunat cs = false) :
    s.finds o none (before ++ '=' :: (behind ++ cs)) =
      s.finds (o + (before ++ '=' :: behind).length) none cs := by
  rw [List.forall_mem_append] at blank
  have sign : startsRunat ('=' :: (behind ++ cs)) = false :=
    startsRunat_eq_false List.mem_cons_self (by decide)
  rw [finds_blanks blank.1 fun _ => sign, finds_char (by decide), findsFrom,
    show isBlank '=' = false by decide, Bool.false_and, Bool.false_or, finds_blanks blank.2 apart]
  congr 1
  simp only [List.length_append, List.length_cons]
  omega

/-- A character that is no mark and begins no word is passed over. -/
theorem findsFrom_char {b : Bool} {c : Char} (plain : c ∉ ['<', '>', '"', '\x27'])
    (unled : startsRunat (c :: cs) = false) :
    s.findsFrom b o (c :: cs) = s.findsFrom (isBlank c) (o + 1) cs := by
  rw [findsFrom, unled, Bool.and_false, Bool.false_or, finds_char plain]

theorem findsFrom_block (honest : s.Honest) {b : Bool} {k : List Char} (block : IsBlock k)
    (rest : s.text.drop o = k ++ cs) :
    s.findsFrom b o (k ++ cs) = s.findsFrom false (o + k.length) cs := by
  rw [findsFrom, finds_block honest block rest]
  obtain ⟨inner, rfl, -⟩ := block.exists_inner
  rw [List.cons_append, startsRunat_eq_false List.mem_cons_self (by decide), Bool.and_false]
  rfl

/-- What is in the text behind a part of it. -/
theorem drop_of_append {xs : List Char} (rest : s.text.drop o = xs ++ cs) :
    s.text.drop (o + xs.length) = cs := by
  rw [← List.drop_drop, rest, List.drop_left]

theorem drop_of_cons {c : Char} (rest : s.text.drop o = c :: cs) : s.text.drop (o + 1) = cs := by
  rw [← List.drop_drop, rest, List.drop_succ_cons, List.drop_zero]

/-- **A look ahead over the text of a tag finds `runat` exactly if it is there**, whatever follows
the tag. -/
theorem findsFrom_tagText (honest : s.Honest) {b f : Bool} {w after : List Char}
    (text : TagText b w f) (rest : s.text.drop o = w ++ after) :
    s.findsFrom b o (w ++ after) = f := by
  induction text generalizing o with
  | opened =>
    rw [findsFrom, startsRunat_eq_false List.mem_cons_self (by decide), Bool.and_false]
    rfl
  | selfClosed =>
    rw [List.cons_append, findsFrom_char (by decide)
      (startsRunat_eq_false List.mem_cons_self (by decide))]
    rfl
  | @blank b x w f blank more ih =>
    rw [List.cons_append, findsFrom_char (not_mark_of_blank blank) (startsRunat_blank blank), blank]
    exact ih (drop_of_cons rest)
  | block block more ih =>
    rw [List.append_assoc] at rest ⊢
    rw [findsFrom_block honest block rest]
    exact ih (drop_of_append rest)
  | @stray b x w f stray going more ih =>
    simp only [List.mem_cons, List.not_mem_nil, or_false] at stray
    have passed : s.findsFrom b o (x :: (w ++ after)) = s.findsFrom false (o + 1) (w ++ after) := by
      rcases stray with rfl | rfl | rfl <;>
        exact findsFrom_char (by decide) (startsRunat_eq_false List.mem_cons_self (by decide))
    exact passed.trans (ih (drop_of_cons rest))
  | bare named valueless more ih =>
    rw [List.append_assoc] at rest ⊢
    rw [findsFrom_name named more.closed]
    exact congrArg _ (ih (drop_of_append rest))
  | @unquoted b name before behind value w f named blank plain ends led apart more ih =>
    have closed : '>' ∈ value ++ w := List.mem_append_right value more.closed
    have led' : behind ≠ [] → startsRunat (value ++ (w ++ after)) = false := by
      intro some
      rw [← List.append_assoc, startsRunat_append closed]
      exact apart some
    rw [List.append_assoc] at rest ⊢
    rw [findsFrom_name named (by simp [more.closed])]
    have atSign := drop_of_append rest
    simp only [List.append_assoc, List.cons_append] at atSign ⊢
    rw [finds_equals blank led', finds_value plain]
    have atValue : s.text.drop (o + name.length + (before ++ '=' :: behind).length) =
        value ++ (w ++ after) := drop_of_append (by simpa using atSign)
    exact congrArg _ (ih (drop_of_append atValue))
  | @quoted b name before behind q value w f named blank quote inner more ih =>
    have led : behind ≠ [] → startsRunat (q :: (value ++ q :: (w ++ after))) = false := by
      intro _
      rcases quote with rfl | rfl <;> exact startsRunat_eq_false List.mem_cons_self (by decide)
    rw [List.append_assoc] at rest ⊢
    rw [findsFrom_name named (by simp [more.closed])]
    have atSign := drop_of_append rest
    simp only [List.append_assoc, List.cons_append] at atSign ⊢
    have atQuote : s.text.drop (o + name.length + (before ++ '=' :: behind).length) =
        q :: (value ++ q :: (w ++ after)) := drop_of_append (by simpa using atSign)
    have atValue := drop_of_cons atQuote
    rw [finds_equals blank led, finds_quote quote, finds_quoted honest quote inner atValue]
    exact congrArg _ (ih (drop_of_cons (drop_of_append atValue)))

end Source
end ServerMarkup
