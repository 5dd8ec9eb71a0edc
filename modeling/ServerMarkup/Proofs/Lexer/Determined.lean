/-
# The rules say all that the readers do

The readers keep to the rules of `Reads`, and the rules allow nothing else: what they say of a part
is what its reader comes to (`Reads.finds`).  So a part that begins at a cursor has one list of
tokens and one end (`Reads.unique`), and a reader can be compared with another by its rules alone.
-/

import ServerMarkup.Proofs.Lexer.Reads

namespace ServerMarkup

/-- The tokens of a reading and the cursor after them. -/
def Reading.result {room : Nat} (r : Reading room) : List Token × Cursor :=
  (r.tokens, r.next)

theorem Reading.result_followedBy {room : Nat} {c : Cursor} (ts : List Token)
    (r : Reading (c.rest.length + 1)) (h : c.rest.length < room) :
    (Reading.followedBy ts r h).result = (ts ++ r.result.1, r.result.2) := rfl

/-- The reader of the part comes from the cursor `c` to the tokens `ts` and the cursor `d`. -/
def Part.Finds (s : Source) (c : Cursor) (ts : List Token) (d : Cursor) : Part → Prop
  | .construct => (readConstruct? s c).map Reading.result = some (ts, d)
  | .directive => (readDirective s c).result = (ts, d)
  | .attribute place => (readAttribute? s place c).map Reading.result = some (ts, d)
  | .quoted q alone => (readQuoted s q alone c).result = (ts, d)
  | .body ending => (readTagBody s c).1.result = (ts, d) ∧ (readTagBody s c).2 = ending
  | .closing =>
    (if c.skipBlanks.sees ['>'] then
      ([.whole .tagClose (s.excerpt c.skipBlanks 1)], c.skipBlanks.skip 1)
    else ([], c.skipBlanks)) = (ts, d)

section
variable {s : Source} {c d : Cursor} {ts : List Token} {cs : List Char}

theorem exists_of_map_result {room : Nat} {r? : Option (Reading room)}
    (h : r?.map Reading.result = some (ts, d)) :
    ∃ r, r? = some r ∧ r.tokens = ts ∧ r.next = d := by
  obtain ⟨r, rfl, hr⟩ := Option.map_eq_some_iff.1 h
  obtain ⟨tokens, next⟩ := Prod.mk.inj hr
  exact ⟨r, rfl, tokens, next⟩

/-! ### What stands at the cursor -/

theorem rest_ne_nil_of_sees {x : Char} {mark : List Char} (h : c.sees (x :: mark) = true) :
    c.rest ≠ [] := by
  intro atEnd
  rw [Cursor.sees, atEnd] at h
  cases h

/-- A text begins with one of two marks only. -/
theorem not_sees_of_sees {x y : Char} {mark mark' : List Char} (apart : y ≠ x)
    (h : c.sees (x :: mark) = true) : ¬ c.sees (y :: mark') = true := by
  obtain ⟨cs, hcs⟩ := List.isPrefixOf_iff_prefix.1 h
  rw [Cursor.sees, ← hcs]
  simp [apart]

theorem Reads.construct?_ne_none (h : Reads s .construct c ts d) :
    s.construct? c.offset c.rest ≠ none := by
  cases h with
  | comment found | code found | directive found _ =>
    rw [found]
    exact Option.some_ne_none _

theorem Reads.named {place : Place} (h : Reads s (.attribute place) c ts d) :
    endsName place c.rest = false := by
  cases h with
  | bare named | unquoted named | quoted named =>
    exact Bool.eq_false_iff.2 fun ends => named (nameReach_eq_zero.2 ends)

theorem rest_ne_nil_of_named {place : Place} (named : endsName place c.rest = false) :
    c.rest ≠ [] := by
  intro atEnd
  rw [atEnd] at named
  cases named

/-- No name begins with a mark that ends names. -/
theorem not_sees_of_named {place : Place} {mark : List Char} (named : endsName place c.rest = false)
    (ends : ∀ cs, endsName place (mark ++ cs) = true) : ¬ c.sees mark = true := by
  intro sees
  obtain ⟨cs, hcs⟩ := List.isPrefixOf_iff_prefix.1 sees
  cases named.symm.trans (hcs ▸ ends cs)

/-- What does not begin with `<%` opens nothing. -/
theorem Opening.of?_eq_none (plain : ¬ ['<', '%'] <+: cs) : Opening.of? cs = none := by
  unfold of?
  split
  · exact absurd ⟨_, rfl⟩ plain
  · rfl

theorem construct?_eq_none (plain : ¬ ['<', '%'] <+: cs) (o : Nat) : s.construct? o cs = none := by
  rw [Source.construct?, Opening.of?_eq_none plain]
  rfl

/-- A construct begins with `<%`. -/
theorem prefix_of_readConstruct? {r : Reading c.rest.length} (read : readConstruct? s c = some r) :
    ['<', '%'] <+: c.rest := by
  refine Decidable.by_contra fun other => ?_
  cases read.symm.trans (readConstruct?_eq_none_iff.2 (construct?_eq_none other _))

/-! ### The readers, rule by rule -/

theorem result_readConstruct? {o : Opening} {n : Nat}
    (found : s.construct? c.offset c.rest = some (o, n)) :
    (readConstruct? s c).map Reading.result = some (match o with
      | .comment => ([s.commentToken c n], c.skip (n + 8))
      | .directive =>
        (.whole .startDirective (s.excerpt c 3) :: (readDirective s (c.skip 3)).tokens,
          (readDirective s (c.skip 3)).next)
      | .code kind => ([s.codeToken c kind n], c.skip ((Opening.code kind).width + n + 2))) := by
  rw [readConstruct?]
  split
  · next none => cases none.symm.trans found
  · next o' n' found' =>
    obtain ⟨rfl, rfl⟩ := Prod.mk.inj (Option.some.inj (found'.symm.trans found))
    cases o' <;> rfl

/-- What is read of a tag that begins with something that is a whole. -/
theorem result_readTagBody {r : Reading c.skipBlanks.rest.length} {us : List Token} {e : Cursor}
    (left : c.skipBlanks.rest ≠ []) (unclosed : ¬ c.skipBlanks.sees ['>'] = true)
    (going : ¬ c.skipBlanks.sees ['/', '>'] = true)
    (read : (readConstruct? s c.skipBlanks <|> readAttribute? s .tag c.skipBlanks) = some r)
    (more : (readTagBody s r.next).1.result = (us, e)) :
    (readTagBody s c).1.result = (r.tokens ++ us, e) ∧
      (readTagBody s c).2 = (readTagBody s r.next).2 := by
  rw [readTagBody, dif_neg left, if_neg unclosed, if_neg going]
  dsimp only
  split
  · next r' read' =>
    obtain rfl := Option.some.inj (read'.symm.trans read)
    refine ⟨?_, rfl⟩
    rw [Reading.result_followedBy, more]
  · next none => cases none.symm.trans read

/-- **The rules say of a part what its reader comes to.** -/
theorem Reads.finds {part : Part} (h : Reads s part c ts d) : part.Finds s c ts d := by
  induction h with
  | comment found | code found => exact result_readConstruct? found
  | directive found _ ih =>
    obtain ⟨rfl, rfl⟩ := Prod.mk.inj ih
    exact result_readConstruct? found
  | @directiveCut c atEnd =>
    change (readDirective s c).result = _
    rw [readDirective, dif_pos atEnd]
    rfl
  | @directiveEnd c closed =>
    change (readDirective s c).result = _
    rw [readDirective, dif_neg (rest_ne_nil_of_sees closed), if_pos closed]
    rfl
  | @directiveAttribute c _ _ us e first _ ih₁ ih₂ =>
    have named := first.named
    obtain ⟨r, read, rfl, rfl⟩ := exists_of_map_result ih₁
    have more : (readDirective s r.next).result = (us, e) := ih₂
    change (readDirective s c).result = _
    rw [readDirective, dif_neg (rest_ne_nil_of_named named),
      if_neg (not_sees_of_named named fun _ => rfl)]
    dsimp only
    split
    · next r' read' =>
      obtain rfl := Option.some.inj (read'.symm.trans read)
      rw [Reading.result_followedBy, more]
    · next none => cases none.symm.trans read
  | @directiveStray c ts d left going unnamed _ ih =>
    have more : (readDirective s (c.skipBlanks.skip 1)).result = (ts, d) := ih
    change (readDirective s c).result = _
    rw [readDirective, dif_neg left, if_neg (by simpa using going)]
    dsimp only
    split
    · next r read => cases read.symm.trans (readAttribute?_eq_none_iff.2 unnamed)
    · rw [Reading.result_followedBy, more, List.nil_append]
  | @bare place c named valueless =>
    change (readAttribute? s place c).map Reading.result = _
    rw [readAttribute?, dif_neg named]
    dsimp only
    rw [if_neg valueless]
    rfl
  | @unquoted place c named valued plain =>
    change (readAttribute? s place c).map Reading.result = _
    rw [readAttribute?, dif_neg named]
    dsimp only
    rw [if_pos valued]
    split
    · next q opened => cases opened.symm.trans plain
    · rfl
  | @quoted place c q ts d named valued opened _ ih =>
    have value : (readQuoted s q true ((afterEquals (afterName place c)).skip 1)).result =
        (ts, d) := ih
    change (readAttribute? s place c).map Reading.result = _
    rw [readAttribute?, dif_neg named]
    dsimp only
    rw [if_pos valued]
    split
    · next q' opened' =>
      obtain rfl := Option.some.inj (opened'.symm.trans opened)
      rw [Option.map_some, Reading.result_followedBy, value]
      rfl
    · next plain => cases plain.symm.trans opened
  | @quotedConstruct q alone c _ _ us e _ _ ih₁ ih₂ =>
    obtain ⟨r, read, rfl, rfl⟩ := exists_of_map_result ih₁
    have more : (readQuoted s q false r.next).result = (us, e) := ih₂
    change (readQuoted s q alone c).result = _
    rw [readQuoted]
    dsimp only
    split
    · next r' read' =>
      obtain rfl := Option.some.inj (read'.symm.trans read)
      rw [Reading.result_followedBy, more]
      simp [Source.fragment]
    · next none => cases none.symm.trans read
  | @quotedEnd q alone c plain =>
    change (readQuoted s q alone c).result = _
    rw [readQuoted]
    dsimp only
    split
    · next r read => cases read.symm.trans (readConstruct?_eq_none_iff.2 plain)
    · rfl
  | @bodyCut c atEnd =>
    change (readTagBody s c).1.result = _ ∧ (readTagBody s c).2 = _
    rw [readTagBody, dif_pos atEnd]
    exact ⟨rfl, rfl⟩
  | @bodyOpened c closed =>
    change (readTagBody s c).1.result = _ ∧ (readTagBody s c).2 = _
    rw [readTagBody, dif_neg (rest_ne_nil_of_sees closed), if_pos closed]
    exact ⟨rfl, rfl⟩
  | @bodySelfClosed c closed =>
    change (readTagBody s c).1.result = _ ∧ (readTagBody s c).2 = _
    rw [readTagBody, dif_neg (rest_ne_nil_of_sees closed),
      if_neg (not_sees_of_sees (by decide) closed), if_pos closed]
    exact ⟨rfl, rfl⟩
  | bodyConstruct _ _ ih₁ ih₂ =>
    obtain ⟨r, read, rfl, rfl⟩ := exists_of_map_result ih₁
    obtain ⟨more, rfl⟩ := ih₂
    have opens := List.isPrefixOf_iff_prefix.2 (prefix_of_readConstruct? read)
    exact result_readTagBody (rest_ne_nil_of_sees opens) (not_sees_of_sees (by decide) opens)
      (not_sees_of_sees (by decide) opens) (by rw [read]; rfl) more
  | bodyAttribute plain first _ ih₁ ih₂ =>
    have named := first.named
    obtain ⟨r, read, rfl, rfl⟩ := exists_of_map_result ih₁
    obtain ⟨more, rfl⟩ := ih₂
    exact result_readTagBody (rest_ne_nil_of_named named) (not_sees_of_named named fun _ => rfl)
      (not_sees_of_named named fun _ => rfl)
      (by rw [readConstruct?_eq_none_iff.2 plain, read]; rfl) more
  | @bodyStray ending c ts d left unclosed going plain unnamed _ ih =>
    obtain ⟨more, ending⟩ := ih
    change (readTagBody s c).1.result = _ ∧ (readTagBody s c).2 = _
    rw [readTagBody, dif_neg left, if_neg (by simpa using unclosed), if_neg (by simpa using going)]
    dsimp only
    split
    · next r read =>
      rw [readConstruct?_eq_none_iff.2 plain, readAttribute?_eq_none_iff.2 unnamed] at read
      cases read
    · refine ⟨?_, ending⟩
      rw [Reading.result_followedBy, more, List.nil_append]
  | closingEnd closed => exact if_pos closed
  | closingBare unclosed => exact if_neg (by simpa using unclosed)

/-- A part that begins at a cursor has one list of tokens and one end. -/
theorem Reads.unique {part : Part} {d' : Cursor} {ts' : List Token} (h : Reads s part c ts d)
    (h' : Reads s part c ts' d') : ts' = ts ∧ d' = d := by
  have both := h.finds
  have both' := h'.finds
  cases part with
  | construct | «attribute» _ =>
    exact Prod.mk.inj (Option.some.inj (both'.symm.trans both))
  | directive | quoted _ _ | closing => exact Prod.mk.inj (both'.symm.trans both)
  | body _ => exact Prod.mk.inj (both'.1.symm.trans both.1)

end

end ServerMarkup
