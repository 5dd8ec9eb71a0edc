/-
# Where start tags end

The lexer takes a start tag apart up to its `>` or `/>`, whatever stands in it, or to the end of the
source.  The parser reads the tag anew from the tokens, and stops at a server comment or directive
in it.  `ending_eq_iff` says when the two agree on how the tag ends: if no such construct stands in
the tag, or the source ends in it anyhow.
-/

import ServerMarkup.Proofs.Lexer.Moves
import ServerMarkup.Proofs.Parse.Reading

namespace ServerMarkup

/-- How the lexer has ended a tag: its last token says it. -/
def lexedEnding (ts : List Token) : TagEnd :=
  .ofKind (ts.getLast?.map Token.kind)

/-- The lexer takes a start tag of the text apart: `t` is its first token and `ts` are the others,
`rest` are the tokens after the tag, and `stop` is where the lexer goes on. -/
def LexesTag (file text : String) (t : Token) (ts rest : List Token) (stop : Cursor) : Prop :=
  ∃ ms m ns before, (LexerState.start (.of file text)).moves (.of file text) = ms ++ m :: ns ∧
    m.tokens = before ++ t :: ts ∧ t.kind = .tagOpen ∧ rest = ns.flatMap Move.tokens ∧
    stop = m.after.cursor

/-- A list is split at its only element of a kind in one way. -/
theorem eq_of_append_cons {α : Type} {p : α → Prop} {x y : α} {as bs xs ys : List α}
    (h : as ++ x :: xs = bs ++ y :: ys) (hx : p x) (hb : ∀ z ∈ bs, ¬ p z) (hy : ∀ z ∈ ys, ¬ p z) :
    as = bs ∧ x = y ∧ xs = ys := by
  rcases List.append_eq_append_iff.1 h with ⟨zs, rfl, hz⟩ | ⟨zs, rfl, hz⟩
  · cases zs with
    | nil =>
      obtain ⟨rfl, rfl⟩ := List.cons.inj hz
      simp
    | cons z zs =>
      obtain ⟨rfl, rfl⟩ := List.cons.inj hz
      exact absurd hx (hb x (by simp))
  · cases zs with
    | nil =>
      obtain ⟨rfl, rfl⟩ := List.cons.inj hz
      simp
    | cons z zs =>
      obtain ⟨rfl, rfl⟩ := List.cons.inj hz
      exact absurd hx (hy x (by simp))

namespace LexerState

variable {s : Source} {st next : LexerState} {t : Token} {before ts : List Token}

/-- A start tag among the tokens of a step: its name, its body, that it is left open if it ends so
and can have content, and that it stands at the cursor. -/
theorem Goes.opensTag (h : Goes s st (before ++ t :: ts) next) (hk : t.kind = .tagOpen) :
    ∃ ending body, Reads s (.body ending) (st.cursor.skip (st.startName.length + 1)) body
        next.cursor ∧
      ts = nameTokens (s.excerpt (st.cursor.skip 1) st.startName.length) ++ body ∧
      next.text = next.cursor ∧ st.AtStartTag ∧ (ending ≠ .opened → next.opened = st.opened) ∧
      (ending = .opened → isVoidTag st.startName = false →
        ∃ role, role ≠ .literal ∧ next.opened = ⟨st.startName, role⟩ :: st.opened ∧
          next.raw = if isRawTextElement st.startName then some st.startName else none) ∧
      t.start = st.cursor.offset := by
  generalize hus : before ++ t :: ts = us at h
  have ht : t ∈ us := hus ▸ List.mem_append_right _ List.mem_cons_self
  have notGathered {st : LexerState} {u : Token} (hu : u ∈ st.gathered s) : u.kind ≠ .tagOpen := by
    simp [kind_gathered hu]
  have notInner {u : Token} (hu : u.kind.isInner = true) : u.kind ≠ .tagOpen :=
    TokenKind.ne_of_isInner hu rfl
  have tag {ending : TagEnd} {body : List Token} {d : Cursor}
      (inner : Reads s (.body ending) (st.cursor.skip (st.startName.length + 1)) body d)
      (hus : before ++ t :: ts = st.gathered s ++ (st.startTokens s ++ body)) :
      t.start = st.cursor.offset ∧
        ts = nameTokens (s.excerpt (st.cursor.skip 1) st.startName.length) ++ body := by
    refine (eq_of_append_cons (p := fun u => u.kind = .tagOpen) hus hk (fun u => notGathered)
      (List.forall_mem_append.2 ⟨fun u hu => ?_, fun u hu => ?_⟩)).2.imp_left fun same => ?_
    · rcases kind_nameTokens hu with hk | hk <;> simp [hk]
    · rcases inner.kind_body u hu with hu | hk | hk
      · exact notInner hu
      · simp [hk]
      · simp [hk]
    · rw [same]
      rfl
  cases h with
  | text | literalTag | literalEnd | rawEnd => simp at ht
  | rawConstruct _ inner =>
    rcases List.mem_append.1 ht with ht | ht
    · exact absurd hk (notGathered ht)
    · exact absurd hk (notInner (inner.inner trivial t ht))
  | taken _ takes =>
    rcases List.mem_append.1 ht with ht | ht
    · exact absurd hk (notGathered ht)
    cases takes with
    | whole isWhole _ _ =>
      obtain rfl := List.mem_singleton.1 ht
      rcases isWhole with rfl | rfl <;> cases hk
    | construct inner => exact absurd hk (notInner (inner.inner trivial t ht))
    | openingTag start role _ inner =>
      exact ⟨.opened, _, inner, (tag inner hus).2, rfl, start, fun other => absurd rfl other,
        fun _ _ => ⟨_, role, rfl, rfl⟩, (tag inner hus).1⟩
    | loneTag start _ empty inner =>
      exact ⟨_, _, inner, (tag inner hus).2, rfl, start, fun _ => rfl,
        fun opened filled => by simp [empty opened] at filled, (tag inner hus).1⟩
    | closingTag _ _ _ inner =>
      rcases List.mem_cons.1 ht with rfl | ht
      · cases hk
      rcases List.mem_append.1 ht with ht | ht
      · rcases kind_nameTokens ht with hk' | hk' <;> simp [hk'] at hk
      · simp [inner.kind_closing t ht] at hk

/-- The tokens of a start tag among those of a step: its name and its body. -/
theorem Goes.startTag (h : Goes s st (before ++ t :: ts) next) (hk : t.kind = .tagOpen) :
    ∃ e ending body, Reads s (.body ending) (st.cursor.skip (st.startName.length + 1)) body
        next.cursor ∧ ts = nameTokens e ++ body ∧
      next.text = next.cursor := by
  obtain ⟨ending, body, inner, hts, emptied, -⟩ := h.opensTag hk
  exact ⟨_, ending, body, inner, hts, emptied⟩

end LexerState

/-- The last token of a tag says how the lexer has ended it. -/
theorem lexedEnding_eq {s : Source} {c d : Cursor} {ending : TagEnd} {body : List Token}
    (h : Reads s (.body ending) c body d) (e : Excerpt) :
    lexedEnding (nameTokens e ++ body) = ending := by
  obtain ⟨us, last, rfl, kinds, -, -, inner⟩ := h.shape
  cases ending with
  | opened | selfClosed =>
    obtain ⟨x, rfl, hx⟩ := List.map_eq_singleton_iff.1 kinds
    simp [lexedEnding, hx, TagEnd.ofKind, ← List.append_assoc]
  | cut =>
    obtain rfl := List.map_eq_nil_iff.1 kinds
    rw [List.append_nil, lexedEnding]
    cases hl : (nameTokens e ++ us).getLast? with
    | none => rfl
    | some t =>
      rcases List.mem_append.1 (List.mem_of_getLast? hl) with ht | ht
      · rcases kind_nameTokens ht with hk | hk <;> simp [hk, TagEnd.ofKind]
      · have := inner t ht
        cases hk : t.kind <;>
          simp_all [TagEnd.ofKind, TokenKind.isInner, TokenKind.isPlain, TokenKind.interrupts]

/-- A text that begins with a start tag, by the kinds of its tokens. -/
theorem lexesTag_of_kinds (file text : String) (ks : List TokenKind)
    (h : ((LexerState.start (.of file text)).moves (.of file text)).head?.map
      (·.tokens.map Token.kind) = some (.tagOpen :: ks)) :
    ∃ t ts rest stop, LexesTag file text t ts rest stop ∧ ts.map Token.kind = ks := by
  obtain ⟨m, hm, kinds⟩ := Option.map_eq_some_iff.1 h
  obtain ⟨ns, hms⟩ := List.head?_eq_some_iff.1 hm
  obtain ⟨t, ts, htokens, hk, rfl⟩ := List.map_eq_cons_iff.1 kinds
  exact ⟨t, ts, _, _, ⟨[], m, ns, [], hms, htokens, hk, rfl, rfl⟩, rfl⟩

/-- **The parser ends a start tag as the lexer has, unless a server comment or directive stands in
it.**  Such a construct in the tag or in an attribute value of it ends the tag for the parser, so the
two agree then only if the source ends in the tag. -/
theorem ending_eq_iff {file text : String} {t : Token} {ts rest : List Token} {stop : Cursor}
    (h : LexesTag file text t ts rest stop) :
    ∃ tag n, Item.read t (ts ++ rest) = (.startTag tag, n) ∧
      (tag.ending = lexedEnding ts ↔
        lexedEnding ts = .cut ∨ ∀ u ∈ ts, u.kind ≠ .serverComment ∧ u.kind ≠ .startDirective) ∧
      (lexedEnding ts = .cut → stop.rest = [] ∧ rest = []) := by
  obtain ⟨ms, m, ns, before, hm, htokens, hk, rfl, rfl⟩ := h
  obtain ⟨-, ⟨goes, rfl⟩ | ⟨last, rfl⟩⟩ := LexerState.goes_of_moves (LexerState.on_start _) hm
  · rw [htokens] at goes
    obtain ⟨e, ending, body, inner, rfl, emptied⟩ := goes.startTag hk
    have lexed := lexedEnding_eq inner e
    have cut : ending = .cut → (m.after.moves (.of file text)).flatMap Move.tokens = [] := by
      rintro rfl
      rw [← LexerState.tokens_eq_flatMap_moves]
      exact LexerState.tokens_eq_nil inner.rest_of_cut emptied
    refine ⟨_, _, by rw [List.append_assoc, Item.read_tagOpen hk], ?_, fun hc => ?_⟩
    · rw [lexed, Item.tagAttributes_body inner cut]
      dsimp only
      by_cases pure : ∀ u ∈ body, u.kind.interrupts = false
      · rw [Item.tagAttributes_pure inner pure]
        refine iff_of_true rfl (.inr (List.forall_mem_append.2 ⟨fun u hu => ?_, fun u hu => ?_⟩))
        · rcases kind_nameTokens hu with hk | hk <;> simp [hk]
        · have := pure u hu
          constructor <;> rintro hk <;> simp [hk, TokenKind.interrupts] at this
      · obtain ⟨u, hu, interrupts⟩ : ∃ u ∈ body, u.kind.interrupts = true := by simpa using pure
        rw [Item.tagAttributes_cut inner hu interrupts]
        constructor
        · exact fun same => .inl same.symm
        · rintro (hc | other)
          · exact hc.symm
          · obtain ⟨notComment, notDirective⟩ := other u (List.mem_append_right _ hu)
            unfold TokenKind.interrupts at interrupts
            split at interrupts <;> contradiction
    · obtain rfl : ending = .cut := lexed.symm.trans hc
      exact ⟨inner.rest_of_cut, cut rfl⟩
  · have ht : t ∈ m.before.gathered (.of file text) := by
      rw [← last.tokens_eq, htokens]
      simp
    simp [LexerState.kind_gathered ht] at hk

/-- The two agree on a tag with an attribute. -/
theorem ending_attribute : ∃ t ts rest stop, LexesTag "page.aspx" "<Panel id=p>x" t ts rest stop ∧
    ∃ tag n, Item.read t (ts ++ rest) = (.startTag tag, n) ∧ tag.ending = lexedEnding ts := by
  obtain ⟨t, ts, rest, stop, tag, kinds⟩ := lexesTag_of_kinds "page.aspx" "<Panel id=p>x"
    [.elementName, .attribute, .attributeValue, .tagClose] (by decide +kernel)
  obtain ⟨start, n, read, agree, -⟩ := ending_eq_iff tag
  refine ⟨t, ts, rest, stop, tag, start, n, read, agree.2 (.inr ?_)⟩
  intro u hu
  have := List.mem_map_of_mem (f := Token.kind) hu
  rw [kinds] at this
  constructor <;> rintro hk <;> simp [hk] at this

/-- A server comment in a tag cuts the tag off: the lexer reads it up to its `>`, the parser does
not. -/
theorem comment_cuts_tag : ¬ ∀ t ts rest stop,
    LexesTag "page.aspx" "<Panel <%----%>>x</Panel>" t ts rest stop →
      ∃ tag n, Item.read t (ts ++ rest) = (.startTag tag, n) ∧ tag.ending = lexedEnding ts := by
  obtain ⟨t, ts, rest, stop, tag, kinds⟩ := lexesTag_of_kinds "page.aspx"
    "<Panel <%----%>>x</Panel>" [.elementName, .serverComment, .tagClose] (by decide +kernel)
  obtain ⟨name, _, rfl, hname, kinds⟩ := List.map_eq_cons_iff.1 kinds
  obtain ⟨comment, _, rfl, hcomment, kinds⟩ := List.map_eq_cons_iff.1 kinds
  obtain ⟨close, rfl, hclose⟩ := List.map_eq_singleton_iff.1 kinds
  intro h
  obtain ⟨start, n, read, same⟩ := h _ _ _ _ tag
  obtain ⟨-, -, -, -, -, -, hk, -, -⟩ := tag
  simp only [Item.read, hk, List.cons_append, Item.tagName?, hname, List.drop_succ_cons,
    List.drop_zero, Item.tagAttributes, hcomment, Prod.mk.injEq, ItemForm.startTag.injEq] at read
  rw [← read.1, lexedEnding] at same
  simp [hclose, TagEnd.ofKind] at same

end ServerMarkup
