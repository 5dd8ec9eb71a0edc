/-
# Outside tags and directives

What a token stands in is counted over the tokens before it (`located`): a start tag from its mark
to the token that ends it, and a directive from its start to its end, where one may stand in the
other.  A page is `Unnested` if its server comments and directives stand in no start tag and in no
directive.  In such a page the code blocks outside are the items of code (`codes_outside`): each
start tag and each directive is one item, and all code in it belongs to that item.
-/

import ServerMarkup.Proofs.Content.Counts

namespace ServerMarkup

/-- What a token stands in: whether it is a start tag, and how many directives are around it. -/
structure Around where
  tag : Bool
  directives : Nat
deriving DecidableEq, Repr

namespace Around

/-- Neither a start tag nor a directive. -/
def outside : Around :=
  ⟨false, 0⟩

/-- What the tokens behind a token stand in. -/
def past (a : Around) (t : Token) : Around :=
  match t.kind with
  | .tagOpen => { a with tag := true }
  | .tagClose | .tagSlashClose => { a with tag := false }
  | .startDirective => { a with directives := a.directives + 1 }
  | .endDirective => { a with directives := a.directives - 1 }
  | _ => a

end Around

/-- The tokens, each with what it stands in. -/
def located : Around → List Token → List (Token × Around)
  | _, [] => []
  | a, t :: ts => (t, a) :: located (a.past t) ts

/-- The tokens outside start tags and directives, if the first of them stands in `a`. -/
def outsideFrom (a : Around) (ts : List Token) : List Token :=
  ((located a ts).filter (·.2 = .outside)).map Prod.fst

/-- No server comment or directive stands in a start tag or in another directive. -/
def Unnested (ts : List Token) : Prop :=
  ∀ x ∈ located .outside ts, x.1.kind.interrupts = true → x.2 = .outside

instance (ts : List Token) : Decidable (Unnested ts) :=
  inferInstanceAs (Decidable (∀ x ∈ _, _ → _))

/-- The code blocks outside start tags and directives. -/
def codesOutside (ts : List Token) : List LeafContent :=
  (outsideFrom .outside ts).filterMap Token.codeLeaf?

section
variable {a : Around} {t : Token} {ts us : List Token}

theorem located_append (a : Around) (ts us : List Token) :
    located a (ts ++ us) = located a ts ++ located (ts.foldl Around.past a) us := by
  induction ts generalizing a with
  | nil => rfl
  | cons t ts ih => rw [List.cons_append, located, ih, located, List.foldl_cons, List.cons_append]

/-- Tokens that begin and end nothing. -/
def TokenKind.isFlat : TokenKind → Bool
  | .tagOpen | .tagClose | .tagSlashClose | .startDirective | .endDirective => false
  | _ => true

theorem TokenKind.isFlat_of_isPlain {k : TokenKind} (h : k.isPlain = true) : k.isFlat = true := by
  cases k <;> simp_all [isPlain, isFlat]

theorem Around.past_of_isFlat (h : t.kind.isFlat = true) : a.past t = a := by
  unfold past
  cases hk : t.kind <;> simp_all [TokenKind.isFlat]

/-- Behind tokens that begin and end nothing one stands in the same. -/
theorem foldl_past_of_isFlat (h : ∀ t ∈ ts, t.kind.isFlat = true) :
    ts.foldl Around.past a = a := by
  induction ts with
  | nil => rfl
  | cons t ts ih =>
    obtain ⟨first, others⟩ := List.forall_mem_cons.1 h
    rw [List.foldl_cons, Around.past_of_isFlat first, ih others]

theorem located_of_isFlat (h : ∀ t ∈ ts, t.kind.isFlat = true) :
    located a ts = ts.map (·, a) := by
  induction ts with
  | nil => rfl
  | cons t ts ih =>
    obtain ⟨first, others⟩ := List.forall_mem_cons.1 h
    rw [located, Around.past_of_isFlat first, ih others, List.map_cons]

/-- The first server comment or directive in a tag or in a directive is nested. -/
theorem plain_of_unnested (inside : a ≠ .outside) (tame : Tame ts)
    (unnested : ∀ x ∈ located a ts, x.1.kind.interrupts = true → x.2 = .outside) :
    ∀ t ∈ ts, t.kind.isPlain = true := by
  have none : ts.find? (! ·.kind.isPlain) = none := by
    refine Option.eq_none_iff_forall_ne_some.2 fun t ht => ?_
    obtain ⟨-, before, after, rfl, plain⟩ := List.find?_eq_some_iff_append.1 ht
    have flat : ∀ u ∈ before, u.kind.isFlat = true :=
      fun u hu => TokenKind.isFlat_of_isPlain (by simpa using plain u hu)
    refine inside (unnested (t, a) ?_ (tame t ht))
    rw [located_append, foldl_past_of_isFlat flat, located]
    simp
  intro t ht
  simpa using List.find?_eq_none.1 none t ht

theorem Unnested.append (h : Unnested (ts ++ us))
    (closed : ts.foldl Around.past .outside = .outside) : Unnested ts ∧ Unnested us := by
  rw [Unnested, located_append, closed] at h
  exact List.forall_mem_append.1 h

theorem outsideFrom_append (a : Around) (ts us : List Token) :
    outsideFrom a (ts ++ us) = outsideFrom a ts ++ outsideFrom (ts.foldl Around.past a) us := by
  rw [outsideFrom, located_append, List.filter_append, List.map_append, outsideFrom, outsideFrom]

/-- Inside nothing is outside, up to the token that ends what one is in. -/
theorem outsideFrom_of_inside {last : List Token} (inside : a ≠ .outside)
    (h : ∀ t ∈ ts, t.kind.isFlat = true) (ends : last.length ≤ 1) :
    outsideFrom a (ts ++ last) = [] := by
  have none : outsideFrom a ts = [] := by
    rw [outsideFrom, located_of_isFlat h]
    simp [inside]
  rw [outsideFrom_append, none, foldl_past_of_isFlat h, List.nil_append]
  match last, ends with
  | [], _ => rfl
  | [e], _ => simp [outsideFrom, located, inside]

theorem mem_of_mem_located {x : Token × Around} (h : x ∈ located a ts) : x.1 ∈ ts := by
  induction ts generalizing a with
  | nil => simp [located] at h
  | cons t ts ih =>
    rcases List.mem_cons.1 h with rfl | h
    · exact List.mem_cons_self
    · exact List.mem_cons_of_mem _ (ih h)

theorem mem_of_mem_outsideFrom (h : t ∈ outsideFrom a ts) : t ∈ ts := by
  obtain ⟨x, hx, rfl⟩ := List.mem_map.1 h
  exact mem_of_mem_located (List.mem_of_mem_filter hx)

theorem outsideFrom_cons (t : Token) (ts : List Token) :
    outsideFrom .outside (t :: ts) = t :: outsideFrom (Around.past .outside t) ts := by
  simp [outsideFrom, located]

theorem codesOutside_append (closed : ts.foldl Around.past .outside = .outside) :
    codesOutside (ts ++ us) = codesOutside ts ++ codesOutside us := by
  rw [codesOutside, outsideFrom_append, closed, List.filterMap_append, codesOutside, codesOutside]

theorem ownCodes_append (is js : List Item) : ownCodes (is ++ js) = ownCodes is ++ ownCodes js := by
  rw [ownCodes, List.flatMap_append, List.filter_append, ownCodes, ownCodes]

end

/-! ### Directives -/

section
variable {s : Source} {part : Part} {c d : Cursor} {t : Token} {ts us : List Token}

/-- A directive: attributes that are tame, from a name on, and its mark unless the source ends. -/
theorem Reads.shape_of_directive (h : Reads s .directive c ts d) :
    ∃ us last, ts = us ++ last ∧ Tame us ∧
      (∀ t, us.head? = some t → t.kind = .attribute) ∧
      (last = [] ∧ d.rest = [] ∨ ∃ e : Token, last = [e] ∧ e.kind = .endDirective) := by
  generalize hp : Part.directive = p at h
  have none : Tame [] := tame_of_plain (by simp)
  induction h with
  | directiveCut atEnd => exact ⟨[], [], rfl, none, by simp, .inl ⟨rfl, atEnd⟩⟩
  | directiveEnd => exact ⟨[], _, rfl, none, by simp, .inr ⟨_, rfl, rfl⟩⟩
  | directiveAttribute first _ _ ih =>
    obtain ⟨us, last, rfl, tame, -, ends⟩ := ih hp
    refine ⟨_ ++ us, last, (List.append_assoc ..).symm, (first.tame trivial).append tame, ?_, ends⟩
    obtain ⟨t, vs, rfl, name⟩ := first.head_of_attribute
    intro u hu
    obtain rfl := Option.some.inj hu
    exact name
  | directiveStray _ _ _ _ ih => exact ih hp
  | _ => simp at hp

/-- A plain token behind a value is the name of the next attribute. -/
theorem Item.kind_of_head?_drop_valueTokens
    (h : (ts.drop (valueTokens ts).length).head? = some t) (plain : t.kind.isPlain = true) :
    t.kind = .attribute := by
  have next := List.head?_dropWhile_not (fun t => (ValuePart.ofToken? t).isSome) ts
  rw [drop_valueTokens] at h
  rw [h] at next
  have none : (ValuePart.ofToken? t).isSome = false := next
  rw [isSome_ofToken?] at none
  cases hk : t.kind <;> simp_all [TokenKind.isPlain, Token.isCode, TokenKind.isCode]

/-- Attributes and then a mark belong to one directive as a whole. -/
theorem Item.directiveAttributes_whole (names : ∀ t, ts.head? = some t →
      t.kind = .attribute ∨ t.kind = .endDirective)
    (kinds : ∀ t ∈ ts, t.kind.isPlain = true ∨ t.kind = .endDirective)
    (last : ts.Pairwise fun t _ => t.kind.isPlain = true) :
    (directiveAttributes ts).2 = ts.length := by
  fun_induction directiveAttributes ts with
  | case1 => rfl
  | case2 t ts hk size as n hr ih =>
    obtain ⟨-, last⟩ := List.pairwise_cons.1 last
    obtain ⟨-, kinds⟩ := List.forall_mem_cons.1 kinds
    have le : size ≤ ts.length := (List.takeWhile_prefix _).length_le
    have rest : n = (ts.drop size).length := by
      rw [hr] at ih
      refine ih ?_ (fun u hu => kinds u (List.mem_of_mem_drop hu)) last.drop
      intro u hu
      exact (kinds u (List.mem_of_mem_drop (List.mem_of_head? hu))).imp_left
        (kind_of_head?_drop_valueTokens hu)
    rw [rest, List.length_drop, List.length_cons]
    omega
  | case3 t ts hk =>
    cases ts with
    | nil => rfl
    | cons u us =>
      have plain := (List.pairwise_cons.1 last).1 u List.mem_cons_self
      simp [hk, TokenKind.isPlain] at plain
  | case4 t ts ha hd =>
    rcases names t rfl with hk | hk
    · exact absurd hk ha
    · exact absurd hk hd

/-- A directive outside holds no code outside, and is one item. -/
theorem aligned_directive (h : Reads s .directive c ts d) (hk : t.kind = .startDirective)
    (unnested : Unnested (t :: ts)) :
    codesOutside (t :: ts) = ownCodes (itemsOf (t :: ts)) ∧
      ((t :: ts).foldl Around.past .outside = .outside ∨ d.rest = []) := by
  obtain ⟨us, last, rfl, tame, names, ends⟩ := h.shape_of_directive
  have past : Around.past .outside t = ⟨false, 1⟩ := by rw [Around.past, hk]; rfl
  have inside : (⟨false, 1⟩ : Around) ≠ .outside := by decide
  have plain : ∀ u ∈ us, u.kind.isPlain = true := by
    refine plain_of_unnested inside tame fun x hx => unnested x ?_
    rw [located, past, located_append]
    exact List.mem_cons_of_mem _ (List.mem_append_left _ hx)
  have flat : ∀ u ∈ us, u.kind.isFlat = true := fun u hu => TokenKind.isFlat_of_isPlain (plain u hu)
  have mark : ∀ e ∈ last, e.kind = .endDirective := by
    rcases ends with ⟨rfl, -⟩ | ⟨e, rfl, he⟩
    · simp
    · exact List.forall_mem_singleton.2 he
  have alone : last.length ≤ 1 := by rcases ends with ⟨rfl, -⟩ | ⟨e, rfl, -⟩ <;> simp
  have whole : (Item.directiveAttributes (us ++ last)).2 = (us ++ last).length := by
    refine Item.directiveAttributes_whole (fun u hu => ?_) ?_ ?_
    · rw [List.head?_append, Option.or_eq_some_iff] at hu
      exact hu.imp (names u) fun hu => mark u (List.mem_of_head? hu.2)
    · exact List.forall_mem_append.2 ⟨fun u hu => .inl (plain u hu), fun u hu => .inr (mark u hu)⟩
    · refine List.pairwise_iff_getElem.2 fun i j hi hj hij => ?_
      have before : i < us.length := by
        rw [List.length_append] at hj
        omega
      rw [List.getElem_append_left before]
      exact plain _ (List.getElem_mem before)
  constructor
  · have items : ownCodes (itemsOf (t :: (us ++ last))) = [] := by
      rw [itemsOf_cons]
      simp [Item.read, hk, whole, itemsOf, ownCodes, ItemForm.leaves, LeafContent.isCode]
    have codes : outsideFrom .outside (t :: (us ++ last)) = [t] := by
      rw [outsideFrom_cons, past, outsideFrom_of_inside inside flat alone]
    rw [items, codesOutside, codes]
    simp [Token.codeLeaf?, hk]
  · rw [List.foldl_cons, past, List.foldl_append, foldl_past_of_isFlat flat]
    rcases ends with ⟨-, atEnd⟩ | ⟨e, rfl, he⟩
    · exact .inr atEnd
    · left
      rw [List.foldl_cons, List.foldl_nil, Around.past, he]
      rfl

/-- A construct outside is code, or holds no code outside. -/
theorem aligned_construct (h : Reads s .construct c ts d) (unnested : Unnested ts) :
    codesOutside ts = ownCodes (itemsOf ts) ∧
      (ts.foldl Around.past .outside = .outside ∨ d.rest = []) := by
  cases h with
  | comment =>
    refine ⟨?_, .inl rfl⟩
    rw [itemsOf_cons]
    simp [Item.read, Source.commentToken, itemsOf, ownCodes, ItemForm.leaves, codesOutside,
      outsideFrom, located, Token.codeLeaf?]
  | code found =>
    refine ⟨?_, .inl rfl⟩
    rw [itemsOf_cons]
    simp only [Item.read, Source.codeToken, List.take_zero, List.drop_zero, itemsOf]
    rfl
  | directive found inner => exact aligned_directive inner rfl unnested

end

/-! ### Steps of the lexer -/

namespace LexerState

/-- The items of a step are aligned with what stands outside: the code blocks outside are items of
their own, and behind the step one is outside again or nothing comes. -/
structure Aligned (s : Source) (ts : List Token) (next : LexerState) : Prop where
  clean : CleanTags ts
  codes : codesOutside ts = ownCodes (itemsOf ts)
  after : ts.foldl Around.past .outside = .outside ∨ next.tokens s = []

variable {s : Source} {st next : LexerState} {t : Token} {ts us : List Token}

theorem aligned_nil : Aligned s [] next :=
  ⟨by simp [CleanTags], by simp [itemsOf, codesOutside, outsideFrom, located, ownCodes], .inl rfl⟩

/-- A text, a comment or a document type is no code. -/
theorem aligned_text (h : t.kind = .text ∨ t.kind = .comment ∨ t.kind = .docType) :
    Aligned s [t] next := by
  refine ⟨?_, ?_, .inl ?_⟩
  · rintro ⟨u, hu, hk⟩
    obtain rfl := List.mem_singleton.1 hu
    rw [hk] at h
    rcases h with h | h | h <;> cases h
  · rw [itemsOf_cons_of_text h, itemsOf]
    rcases h with h | h | h <;>
      simp [codesOutside, outsideFrom, located, Token.codeLeaf?, h, ownCodes, ItemForm.leaves,
        LeafContent.isCode]
  · rcases h with h | h | h <;> rw [List.foldl_cons, Around.past, h] <;> rfl

theorem isFlat_gathered : ∀ t ∈ st.gathered s, t.kind.isFlat = true :=
  fun t ht => by rw [kind_gathered ht]; rfl

theorem isFlat_nameTokens (e : Excerpt) : ∀ t ∈ nameTokens e, t.kind.isFlat = true := by
  intro t ht
  rcases kind_nameTokens ht with hk | hk <;> rw [hk] <;> rfl

theorem unnested_of_gathered (h : Unnested (st.gathered s ++ ts)) : Unnested ts :=
  (h.append (foldl_past_of_isFlat isFlat_gathered)).2

theorem aligned_gathered (next : LexerState) : Aligned s (st.gathered s) next := by
  unfold gathered
  split
  · exact aligned_text (.inl rfl)
  · exact aligned_nil

/-- Gathered text before it changes nothing. -/
theorem Aligned.gathered (h : Aligned s ts next) : Aligned s (st.gathered s ++ ts) next := by
  have closed : (st.gathered s).foldl Around.past .outside = .outside :=
    foldl_past_of_isFlat isFlat_gathered
  constructor
  · rintro ⟨t, ht, hk⟩ u hu
    have tag : ∃ t ∈ ts, t.kind = .tagOpen := by
      refine ⟨t, (List.mem_append.1 ht).resolve_left fun ht => ?_, hk⟩
      simp [kind_gathered ht] at hk
    rcases List.mem_append.1 hu with hu | hu
    · rw [kind_gathered hu]
      rfl
    · exact h.clean tag u hu
  · rw [codesOutside_append closed, itemsOf_gathered_append, ownCodes_append,
      (aligned_gathered next).codes, h.codes]
  · rw [List.foldl_append, closed]
    exact h.after

/-- The construct at the cursor, whatever text comes before it. -/
theorem Aligned.of_construct {c d : Cursor} (inner : Reads s .construct c ts d)
    (unnested : Unnested ts) (cursor : next.cursor = d) (text : next.text = d) :
    Aligned s ts next := by
  obtain ⟨codes, after⟩ := aligned_construct inner unnested
  refine ⟨?_, codes, after.imp_right fun atEnd => ?_⟩
  · rintro ⟨t, ht, hk⟩
    exact absurd hk (TokenKind.ne_of_isInner (inner.inner trivial t ht) rfl)
  · exact tokens_eq_nil (by rw [cursor, atEnd]) (by rw [text, cursor])

/-- A start tag outside holds no code outside, and is one item. -/
theorem aligned_startTag {ending : TagEnd} {c d : Cursor} (inner : Reads s (.body ending) c us d)
    (unnested : Unnested (st.startTokens s ++ us)) (cut : ending = .cut → next.tokens s = []) :
    Aligned s (st.startTokens s ++ us) next := by
  obtain ⟨vs, last, rfl, kinds, tame, -, -⟩ := inner.shape
  have inside : (⟨true, 0⟩ : Around) ≠ .outside := by decide
  have name := isFlat_nameTokens (s.excerpt (st.cursor.skip 1) st.startName.length)
  have entered : (st.startTokens s).foldl Around.past .outside = ⟨true, 0⟩ := by
    rw [startTokens, List.foldl_cons]
    exact foldl_past_of_isFlat name
  have plain : ∀ v ∈ vs, v.kind.isPlain = true := by
    refine plain_of_unnested inside tame fun x hx => unnested x ?_
    rw [located_append, entered, located_append]
    exact List.mem_append_right _ (List.mem_append_left _ hx)
  have flat : ∀ v ∈ vs, v.kind.isFlat = true := fun v hv => TokenKind.isFlat_of_isPlain (plain v hv)
  have closing : ∀ e ∈ last, e.kind = .tagClose ∨ e.kind = .tagSlashClose := by
    intro e he
    have hk : e.kind ∈ ending.kinds := kinds ▸ List.mem_map_of_mem he
    cases ending <;> simp_all [TagEnd.kinds]
  have alone : last.length ≤ 1 := by
    rw [← List.length_map Token.kind, kinds]
    cases ending <;> simp [TagEnd.kinds]
  have clean : CleanTags (st.startTokens s ++ (vs ++ last)) := by
    rintro - u hu
    rcases List.mem_append.1 hu with hu | hu
    · rcases List.mem_cons.1 hu with rfl | hu
      · rfl
      · rcases kind_nameTokens hu with hk | hk <;> rw [hk] <;> rfl
    · rcases List.mem_append.1 hu with hu | hu
      · have := plain u hu
        cases hk : u.kind <;> simp_all [TokenKind.isPlain, TokenKind.interrupts]
      · rcases closing u hu with hk | hk <;> rw [hk] <;> rfl
  refine ⟨clean, ?_, ?_⟩
  · have mark : outsideFrom .outside (st.startTokens s) =
        [.whole .tagOpen (s.excerpt st.cursor 1)] := by
      have none : outsideFrom ⟨true, 0⟩ (nameTokens _ ++ []) = [] :=
        outsideFrom_of_inside inside name (Nat.zero_le _)
      rw [List.append_nil] at none
      rw [startTokens, outsideFrom_cons]
      exact congrArg _ none
    rw [itemsOf_startTokens_alone inner clean, codesOutside, outsideFrom_append, entered, mark,
      outsideFrom_of_inside inside flat alone]
    rfl
  · rw [List.foldl_append, entered, List.foldl_append, foldl_past_of_isFlat flat]
    cases ending with
    | cut => exact .inr (cut rfl)
    | opened | selfClosed =>
      obtain ⟨e, rfl, he⟩ := List.map_eq_singleton_iff.1 kinds
      left
      rw [List.foldl_cons, List.foldl_nil, Around.past, he]
      rfl

/-- A closing tag holds no code. -/
theorem aligned_endTag {c d : Cursor} (inner : Reads s .closing c us d) :
    Aligned s (st.endTokens s ++ us) next := by
  have name := isFlat_nameTokens (s.excerpt (st.cursor.skip 2) st.endName.length)
  have left : (st.endTokens s).foldl Around.past .outside = .outside := by
    rw [endTokens, List.foldl_cons]
    exact foldl_past_of_isFlat name
  have codes : ∀ t ∈ st.endTokens s ++ us, t.codeLeaf? = none := by
    refine List.forall_mem_append.2 ⟨List.forall_mem_cons.2 ⟨rfl, fun t ht => ?_⟩, fun t ht => ?_⟩
    · rcases kind_nameTokens ht with hk | hk <;> simp [Token.codeLeaf?, hk]
    · simp [Token.codeLeaf?, inner.kind_closing t ht]
  refine ⟨?_, ?_, .inl ?_⟩
  · rintro - t ht
    rcases List.mem_append.1 ht with ht | ht
    · rcases List.mem_cons.1 ht with rfl | ht
      · rfl
      · rcases kind_nameTokens ht with hk | hk <;> rw [hk] <;> rfl
    · rw [inner.kind_closing t ht]
      rfl
  · rw [itemsOf_endTokens_alone inner, codesOutside]
    exact List.filterMap_eq_nil_iff.2 fun t ht => codes t (mem_of_mem_outsideFrom ht)
  · rw [List.foldl_append, left]
    cases inner <;> rfl

theorem Takes.aligned (h : Takes s st ts next) (unnested : Unnested ts) : Aligned s ts next := by
  cases h with
  | whole isWhole _ _ => exact aligned_text (.inr isWhole)
  | construct inner => exact .of_construct inner unnested rfl rfl
  | openingTag _ _ _ inner => exact aligned_startTag inner unnested (by simp)
  | @loneTag ending _ _ _ _ _ inner =>
    refine aligned_startTag inner unnested ?_
    rintro rfl
    exact tokens_eq_nil inner.rest_of_cut rfl
  | closingTag _ _ _ inner => exact aligned_endTag inner

/-- Each step is aligned. -/
theorem Goes.aligned (h : Goes s st ts next) (unnested : Unnested ts) : Aligned s ts next := by
  cases h with
  | text | literalTag | literalEnd | rawEnd => exact aligned_nil
  | rawConstruct _ inner =>
    exact (Aligned.of_construct inner (unnested_of_gathered unnested) rfl rfl).gathered
  | taken _ takes => exact (takes.aligned (unnested_of_gathered unnested)).gathered

/-- **Outside, the code blocks of a page are its items of code.** -/
theorem codes_outside (unnested : Unnested (st.tokens s)) :
    codesOutside (st.tokens s) = ownCodes (itemsOf (st.tokens s)) := by
  fun_induction tokens s st with
  | case1 st ts hs =>
    obtain ⟨-, -, rfl⟩ := eq_gathered_of_step hs
    exact (aligned_gathered st).codes
  | case2 st ts next hs ih =>
    have goes := goes_of_step hs
    have first : Unnested ts := fun x hx => unnested x (by
      rw [located_append]
      exact List.mem_append_left _ hx)
    have aligned := goes.aligned first
    rw [goes.itemsOf_append aligned.clean, ownCodes_append, ← aligned.codes]
    rcases aligned.after with closed | none
    · rw [codesOutside_append closed, ih (unnested.append closed).2]
    · simp [none, itemsOf, ownCodes]

end LexerState
end ServerMarkup
