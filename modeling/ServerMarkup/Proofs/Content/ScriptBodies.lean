/-
# What follows a script's start tag

The parser takes the first closing tag after the start tag of a server script for the script's end,
and text and code before it for the script's parts.  `ScriptBody` says that this is all there is:
the tokens before that closing tag are text and constructs, and the closing tag has a name.  It
holds behind each start tag that the parser takes for that of a script, wherever it stands among the
tokens (`scriptsClosed_tokens`): the lexer has read the same tag to the same end, and then the body.
-/

import ServerMarkup.Proofs.Nesting.Scripts
import ServerMarkup.Proofs.Parse.TagEndings

namespace ServerMarkup

/-- The tokens begin with the body of a script: text and constructs up to a closing tag, or to the
end. -/
inductive ScriptBody : List Token → Prop where
  | nil : ScriptBody []
  | cons {t ts} (loose : t.kind = .text ∨ t.kind.isInner = true) (rest : ScriptBody ts) :
      ScriptBody (t :: ts)
  | closed {t ts} (mark : t.kind = .tagOpenSlash) (named : (Item.tagName? ts).isSome = true) :
      ScriptBody (t :: ts)

/-- The body of a script follows each start tag among the tokens that can open one. -/
def ScriptsClosed (ts : List Token) : Prop :=
  ∀ before t us tag n, ts = before ++ t :: us → Item.read t us = (.startTag tag, n) →
    Builder.OpensScript tag → ScriptBody (us.drop n)

theorem ScriptBody.append {ts us : List Token}
    (h : ∀ t ∈ ts, t.kind = .text ∨ t.kind.isInner = true) (rest : ScriptBody us) :
    ScriptBody (ts ++ us) := by
  induction ts with
  | nil => exact rest
  | cons t ts ih =>
    obtain ⟨first, others⟩ := List.forall_mem_cons.1 h
    exact .cons first (ih others)

theorem ScriptsClosed.drop {ts : List Token} (h : ScriptsClosed ts) (n : Nat) :
    ScriptsClosed (ts.drop n) := by
  intro before t us tag m hts
  refine h (ts.take n ++ before) t us tag m ?_
  rw [List.append_assoc, ← hts, List.take_append_drop]

theorem ScriptsClosed.tail {t : Token} {ts : List Token} (h : ScriptsClosed (t :: ts)) :
    ScriptsClosed ts :=
  h.drop 1

/-- Start tags begin with their mark. -/
theorem Item.kind_of_startTag {t : Token} {ts : List Token} {tag : StartTag} {n : Nat}
    (h : read t ts = (.startTag tag, n)) : t.kind = .tagOpen := by
  unfold read at h
  split at h
  · simp at h
  · simp at h
  · simp at h
  · simp at h
  · simp at h
  · simp at h
  · assumption
  · split at h <;> simp at h
  · simp at h

namespace LexerState

variable {s : Source} {st next : LexerState} {t : OpenTag} {ts : List Token}

/-- The lexer reads the body of a script. -/
theorem InScript.scriptBody (h : st.InScript t) : ScriptBody (st.tokens s) := by
  fun_induction tokens s st with
  | case1 st ts hs =>
    obtain ⟨-, -, rfl⟩ := eq_gathered_of_step hs
    have body : ScriptBody (st.gathered s ++ []) :=
      ScriptBody.nil.append fun u hu => .inl (kind_gathered hu)
    rwa [List.append_nil] at body
  | case2 st ts next hs ih =>
    rcases h.step hs with ⟨-, loose, inside, -⟩ | ⟨-, us, rfl⟩
    · exact (ih inside).append loose
    · rw [List.append_assoc]
      refine ScriptBody.append (fun u hu => .inl (kind_gathered hu)) (.closed rfl ?_)
      change (Item.tagName? (nameTokens _ ++ us ++ _)).isSome = true
      rw [List.append_assoc, Item.tagName?_nameTokens]
      rfl

variable {u : Token} {before us : List Token} {tag : StartTag} {n : Nat}

/-- What the parser takes for the start tag of a script, the lexer has read to the same end. -/
theorem Goes.scriptBody (h : Goes s st (before ++ u :: us) next)
    (read : Item.read u (us ++ next.tokens s) = (.startTag tag, n))
    (script : Builder.OpensScript tag) : n = us.length ∧ ScriptBody (next.tokens s) := by
  have hk := Item.kind_of_startTag read
  obtain ⟨ending, body, inner, hus, emptied, -, -, opens, -⟩ := h.opensTag hk
  have cut : ending = .cut → next.tokens s = [] := by
    rintro rfl
    exact tokens_eq_nil inner.rest_of_cut emptied
  rw [hus, List.append_assoc, Item.read_tagOpen hk, Item.tagAttributes_body inner cut] at read
  obtain ⟨hform, hn⟩ := Prod.mk.inj read
  have hstart := ItemForm.startTag.inj hform
  have htag : tag.tag = .ofExcerpt (s.excerpt (st.cursor.skip 1) st.startName.length) := by
    rw [← hstart]
  have opened : (Item.tagAttributes body).2.1 = .opened := by rw [← script.opened, ← hstart]
  -- A server comment or a directive in the tag would have cut it off.
  have pure : ∀ v ∈ body, v.kind.interrupts = false := by
    intro v hv
    cases hi : v.kind.interrupts with
    | false => rfl
    | true => simp [Item.tagAttributes_cut inner hv hi] at opened
  have whole := Item.tagAttributes_pure inner pure
  rw [whole] at opened
  have name : (s.excerpt (st.cursor.skip 1) st.startName.length).value = st.startName :=
    st.ofList_take_startName
  have filled : isVoidTag st.startName = false := by
    have content := script.hasContent
    rw [Builder.hasContent, htag, TagName.isVoid_ofExcerpt, name] at content
    simpa using (Bool.and_eq_true_iff.1 content).2
  obtain ⟨role, taken, hopened, raw⟩ := opens opened filled
  refine ⟨by rw [← hn, whole, hus, List.length_append], ?_⟩
  exact (inScript_of_opensScript script ⟨_, htag, name⟩ taken hopened raw).scriptBody

/-- **Behind each start tag that opens a script comes its body.** -/
theorem scriptsClosed_tokens (on : st.On s) : ScriptsClosed (st.tokens s) := by
  fun_induction tokens s st with
  | case1 st ts hs =>
    obtain ⟨-, -, rfl⟩ := eq_gathered_of_step hs
    intro before u us tag n hts read _
    have hk := Item.kind_of_startTag read
    have mem : u ∈ st.gathered s := by simp [hts]
    simp [kind_gathered mem] at hk
  | case2 st ts next hs ih =>
    have goes := goes_of_step hs
    intro before u us tag n hts read script
    have later {before' : List Token} (rest : next.tokens s = before' ++ u :: us) :
        ScriptBody (us.drop n) :=
      ih (goes.on on) before' u us tag n rest read script
    rcases List.append_eq_append_iff.1 hts with ⟨before', -, rest⟩ | ⟨us', hb, rest⟩
    · exact later rest
    · cases us' with
      | nil =>
        have here : next.tokens s = [] ++ u :: us := rest.symm
        exact later here
      | cons v vs =>
        obtain ⟨rfl, rfl⟩ := List.cons.inj rest
        rw [hb] at goes
        obtain ⟨rfl, body⟩ := goes.scriptBody read script
        have after : (vs ++ next.tokens s).drop vs.length = next.tokens s := List.drop_left
        rw [← after] at body
        exact body

end LexerState
end ServerMarkup
