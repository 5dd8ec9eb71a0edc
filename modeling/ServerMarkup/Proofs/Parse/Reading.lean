/-
# What the parser makes of a tag

The parser reads a tag anew from its tokens.  Of a start tag it reads over plain tokens, and the
first one that is not plain decides how the tag ends (`Item.tagAttributes_eq`): what comes after a
server comment or a directive in a tag is not read as a part of it.
-/

import ServerMarkup.Proofs.Lexer.Shapes
import ServerMarkup.Proofs.Parse.TagNames

namespace ServerMarkup

/-- How a tag ends with a token of the kind, or with none. -/
def TagEnd.ofKind : Option TokenKind → TagEnd
  | some .tagClose => .opened
  | some .tagSlashClose => .selfClosed
  | _ => .cut

namespace Item

/-- The parser puts the name of a tag together again. -/
theorem tagName?_nameTokens (e : Excerpt) (ts : List Token) :
    tagName? (nameTokens e ++ ts) = some (.ofExcerpt e, (nameTokens e).length) := by
  unfold nameTokens TagName.ofExcerpt
  cases e.chars.findIdx? (· == ':') <;> rfl

/-- A start tag is read from its name on. -/
theorem read_tagOpen {t : Token} (hk : t.kind = .tagOpen) (e : Excerpt) (ts : List Token) :
    read t (nameTokens e ++ ts) = (.startTag ⟨.ofExcerpt e, (tagAttributes ts).1,
        (tagAttributes ts).2.1,
        spanOver t ((nameTokens e ++ ts).take ((nameTokens e).length + (tagAttributes ts).2.2))⟩,
      (nameTokens e).length + (tagAttributes ts).2.2) := by
  simp only [read, hk, tagName?_nameTokens, List.drop_left]

/-- A closing tag is its name, and its `>` if that comes next. -/
theorem read_tagOpenSlash {t : Token} (hk : t.kind = .tagOpenSlash) (e : Excerpt)
    (ts : List Token) :
    read t (nameTokens e ++ ts) = (.endTag (.ofExcerpt e),
      if ts.head?.any (·.kind == .tagClose) then (nameTokens e).length + 1
      else (nameTokens e).length) := by
  simp only [read, hk, tagName?_nameTokens, List.drop_left]

/-- How the first token that is not plain ends a tag. -/
def endingAt (ts : List Token) : TagEnd :=
  .ofKind ((ts.find? (! ·.kind.isPlain)).map Token.kind)

theorem isSome_ofToken? (t : Token) :
    (ValuePart.ofToken? t).isSome = (t.isCode || t.kind == .attributeValue) := by
  unfold ValuePart.ofToken? Token.isCode TokenKind.isCode
  cases t.kind <;> rfl

theorem isPlain_of_mem_valueTokens {t : Token} {ts : List Token} (h : t ∈ valueTokens ts) :
    t.kind.isPlain = true := by
  have value := List.all_eq_true.1 List.all_takeWhile t h
  rw [isSome_ofToken?, Bool.or_eq_true, beq_iff_eq] at value
  rcases value with code | value
  · exact TokenKind.isPlain_of_isCode code
  · rw [value]
    rfl

theorem drop_valueTokens (ts : List Token) :
    ts.drop (valueTokens ts).length = ts.dropWhile fun t => (ValuePart.ofToken? t).isSome := by
  calc ts.drop (valueTokens ts).length
      = (valueTokens ts ++ ts.dropWhile fun t => (ValuePart.ofToken? t).isSome).drop
          (valueTokens ts).length := by rw [valueTokens, List.takeWhile_append_dropWhile]
    _ = ts.dropWhile fun t => (ValuePart.ofToken? t).isSome := List.drop_left

/-- What comes after the value of an attribute is led. -/
theorem led_drop_valueTokens (ts : List Token) : Led (ts.drop (valueTokens ts).length) := by
  have next := List.head?_dropWhile_not (fun t => (ValuePart.ofToken? t).isSome) ts
  rw [drop_valueTokens]
  cases hd : ts.dropWhile fun t => (ValuePart.ofToken? t).isSome with
  | nil => simp [Led]
  | cons u us =>
    rw [hd] at next
    change (ValuePart.ofToken? u).isSome = false at next
    rw [isSome_ofToken?, Bool.or_eq_false_iff, beq_eq_false_iff_ne] at next
    exact led_cons next.2 fun code => by simp [next.1] at code

theorem valueTokens_append_drop (ts : List Token) :
    valueTokens ts ++ ts.drop (valueTokens ts).length = ts := by
  rw [drop_valueTokens, valueTokens, List.takeWhile_append_dropWhile]

/-- The tokens of a value are among the plain ones at the start. -/
theorem skip_valueTokens (ts : List Token) :
    (ts.takeWhile (·.kind.isPlain)).length = (valueTokens ts).length +
        ((ts.drop (valueTokens ts).length).takeWhile (·.kind.isPlain)).length ∧
      endingAt ts = endingAt (ts.drop (valueTokens ts).length) := by
  have hts := (valueTokens_append_drop ts).symm
  have plain : ∀ t ∈ valueTokens ts, t.kind.isPlain = true := fun t => isPlain_of_mem_valueTokens
  have none : (valueTokens ts).find? (! ·.kind.isPlain) = none :=
    List.find?_eq_none.2 fun t ht => by simp [plain t ht]
  constructor
  · conv => lhs; rw [hts]
    rw [List.takeWhile_append_of_pos plain, List.length_append]
  · conv => lhs; rw [hts]
    rw [endingAt, List.find?_append, none, Option.none_or, endingAt]

/-- The value of an attribute does not reach beyond a token that is not plain. -/
theorem valueTokens_append {ts : List Token} {e : Token} (he : e ∈ ts)
    (plain : e.kind.isPlain = false) (us : List Token) :
    valueTokens (ts ++ us) = valueTokens ts ∧ valueOf (ts ++ us) = valueOf ts ∧
      e ∈ ts.drop (valueTokens ts).length ∧ (valueTokens ts).length ≤ ts.length := by
  have other {ts : List Token} : e ∉ valueTokens ts := fun hv => by
    simp [isPlain_of_mem_valueTokens hv] at plain
  have same : valueTokens (ts ++ us) = valueTokens ts := by
    induction ts with
    | nil => simp at he
    | cons t ts ih =>
      unfold valueTokens at ih other ⊢
      rw [List.cons_append, List.takeWhile_cons, List.takeWhile_cons]
      split
      · next value =>
        rcases List.mem_cons.1 he with rfl | he
        · exact absurd (by simp [value]) (@other [e])
        · rw [ih he]
      · rfl
  refine ⟨same, by rw [valueOf, same, valueOf], ?_, (List.takeWhile_prefix _).length_le⟩
  rw [← valueTokens_append_drop ts, List.mem_append] at he
  exact he.resolve_left other

/-- A start tag is not read beyond the token that ends it. -/
theorem tagAttributes_append {ts : List Token} {e : Token} (he : e ∈ ts)
    (ends : e.kind = .tagClose ∨ e.kind = .tagSlashClose) (us : List Token) :
    tagAttributes (ts ++ us) = tagAttributes ts := by
  have plain : e.kind.isPlain = false := by
    rcases ends with hk | hk <;> rw [hk] <;> rfl
  fun_induction tagAttributes ts with
  | case1 => simp at he
  | case2 t ts kind hk as ending n hr ih =>
    have hts : e ∈ ts := by
      rcases List.mem_cons.1 he with rfl | he
      · simp [hk] at ends
      · exact he
    rw [List.cons_append, tagAttributes]
    simp only [hk, ih hts, hr]
  | case3 t ts hk size as ending n hr ih =>
    have hts : e ∈ ts := by
      rcases List.mem_cons.1 he with rfl | he
      · simp [hk] at ends
      · exact he
    obtain ⟨same, value, hdrop, hsize⟩ := valueTokens_append hts plain us
    change e ∈ ts.drop size at hdrop
    change size ≤ ts.length at hsize
    rw [List.cons_append, tagAttributes]
    simp only [hk, same, value]
    rw [List.drop_append_of_le_length hsize, ih hdrop, hr]
  | case4 t ts hk => simp [tagAttributes, hk]
  | case5 t ts hk => simp [tagAttributes, hk]
  | case6 t ts hc ha ho hs =>
    rw [List.cons_append, tagAttributes]
    simp

/-- **The first token that is not plain ends a start tag for the parser.** -/
theorem tagAttributes_eq {ts : List Token} (h : Led ts) :
    (tagAttributes ts).2 = (endingAt ts,
      (ts.takeWhile (·.kind.isPlain)).length + if endingAt ts = .cut then 0 else 1) := by
  fun_induction tagAttributes ts with
  | case1 => rfl
  | case2 t ts kind hk as ending n hr ih =>
    have code : t.isCode = true := by rw [Token.isCode, hk]; rfl
    have rest := ih fun u hu => h u (by simp [code, hu])
    have plain : t.kind.isPlain = true := by rw [hk]; rfl
    have stop : endingAt (t :: ts) = endingAt ts := by simp [endingAt, plain]
    rw [hr] at rest
    obtain ⟨rfl, rfl⟩ := Prod.mk.inj rest
    simp only [stop, List.takeWhile_cons, plain, if_true, List.length_cons]
    exact Prod.ext rfl (by omega)
  | case3 t ts hk size as ending n hr ih =>
    -- The value is passed as a whole, and no other value can follow it.
    have rest := ih (led_drop_valueTokens ts)
    have plain : t.kind.isPlain = true := by rw [hk]; rfl
    have stop : endingAt (t :: ts) = endingAt ts := by simp [endingAt, plain]
    obtain ⟨hlen, hskip⟩ := skip_valueTokens ts
    change _ = size + ((ts.drop size).takeWhile _).length at hlen
    rw [hr, ← hskip] at rest
    obtain ⟨rfl, rfl⟩ := Prod.mk.inj rest
    simp only [stop, List.takeWhile_cons, plain, if_true, List.length_cons, hlen]
    exact Prod.ext rfl (by omega)
  | case4 t ts hk => simp [endingAt, hk, TokenKind.isPlain, TagEnd.ofKind]
  | case5 t ts hk => simp [endingAt, hk, TokenKind.isPlain, TagEnd.ofKind]
  | case6 t ts hc ha ho hs =>
    have value : t.kind ≠ .attributeValue := by
      have code : t.isCode = false := by
        cases hk : t.kind with
        | code kind => exact absurd hk (hc kind)
        | _ => simp [Token.isCode, hk, TokenKind.isCode]
      exact h t (by simp [code])
    have other : t.kind.isPlain = false := by
      unfold TokenKind.isPlain
      split
      · contradiction
      · contradiction
      · next kind hk => exact absurd hk (hc kind)
      · rfl
    have cut : endingAt (t :: ts) = .cut := by
      simp only [endingAt, List.find?_cons, other, Bool.not_false, Option.map_some]
      unfold TagEnd.ofKind
      split <;> simp_all
    simp [other, cut]

end Item

/-! ### The body of a tag -/

variable {s : Source} {c d : Cursor} {body rest : List Token} {ending : TagEnd}

theorem Tame.plain {ts : List Token} (h : Tame ts) (pure : ∀ t ∈ ts, t.kind.interrupts = false) :
    ∀ t ∈ ts, t.kind.isPlain = true := by
  have none : ts.find? (! ·.kind.isPlain) = none := by
    refine Option.eq_none_iff_forall_ne_some.2 ?_
    intro t ht
    have := pure t (List.mem_of_find?_eq_some ht)
    simp [h t ht] at this
  intro t ht
  simpa using List.find?_eq_none.1 none t ht

namespace Item

/-- A start tag is read from its own tokens: the others begin after the token that ends it, or there
are none. -/
theorem tagAttributes_body (h : Reads s (.body ending) c body d) (cut : ending = .cut → rest = []) :
    tagAttributes (body ++ rest) = tagAttributes body := by
  obtain ⟨us, last, rfl, kinds, -, -, -⟩ := h.shape
  cases ending with
  | cut => rw [cut rfl, List.append_nil]
  | opened | selfClosed =>
    obtain ⟨x, rfl, hx⟩ := List.map_eq_singleton_iff.1 kinds
    exact tagAttributes_append (e := x) (by simp) (by simp [hx]) rest

/-- A tag without server comments and directives is read to its end. -/
theorem tagAttributes_pure (h : Reads s (.body ending) c body d)
    (pure : ∀ t ∈ body, t.kind.interrupts = false) :
    (tagAttributes body).2 = (ending, body.length) := by
  obtain ⟨us, last, rfl, kinds, tame, led, -⟩ := h.shape
  have plain := tame.plain fun t ht => pure t (List.mem_append_left _ ht)
  have none : us.find? (! ·.kind.isPlain) = none :=
    List.find?_eq_none.2 fun t ht => by simp [plain t ht]
  have stop : endingAt (us ++ last) = endingAt last := by
    rw [endingAt, List.find?_append, none, Option.none_or, endingAt]
  rw [tagAttributes_eq led, stop, List.takeWhile_append_of_pos plain]
  cases ending with
  | cut =>
    obtain rfl := List.map_eq_nil_iff.1 kinds
    rfl
  | opened | selfClosed =>
    obtain ⟨x, rfl, hx⟩ := List.map_eq_singleton_iff.1 kinds
    simp [endingAt, hx, TokenKind.isPlain, TagEnd.ofKind]

/-- A tag with a server comment or a directive in it is cut there. -/
theorem tagAttributes_cut (h : Reads s (.body ending) c body d) {t : Token} (ht : t ∈ body)
    (interrupts : t.kind.interrupts = true) : (tagAttributes body).2.1 = .cut := by
  obtain ⟨us, last, rfl, kinds, tame, led, -⟩ := h.shape
  have within : t ∈ us := by
    refine (List.mem_append.1 ht).resolve_right ?_
    intro ht
    have hk : t.kind ∈ ending.kinds := kinds ▸ List.mem_map_of_mem ht
    cases ending <;> simp_all [TagEnd.kinds, TokenKind.interrupts]
  have found : us.find? (! ·.kind.isPlain) ≠ none := fun none => by
    have := List.find?_eq_none.1 none t within
    simp [TokenKind.not_isPlain_of_interrupts interrupts] at this
  obtain ⟨u, hu⟩ := Option.ne_none_iff_exists'.1 found
  rw [tagAttributes_eq led]
  show endingAt (us ++ last) = .cut
  rw [endingAt, List.find?_append, hu, Option.some_or, Option.map_some]
  have := tame u hu
  cases hk : u.kind <;> simp_all [TagEnd.ofKind, TokenKind.interrupts]

end Item
end ServerMarkup
