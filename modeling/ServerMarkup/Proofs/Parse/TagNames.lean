/-
# Tag names of the lexer and of the parser

The lexer cuts the name of a tag at its first colon, and the parser takes the two parts for a prefix
and a local name.  Nothing is lost by that: the name is written as it stands in the source
(`TagName.text_ofExcerpt`), two tags agree exactly if their whole names do
(`TagName.agrees_ofExcerpt`), and the two sides take the same tags for void
(`TagName.isVoid_ofExcerpt`).
-/

import ServerMarkup.Parse.Item
import ServerMarkup.Proofs.Lexer.Steps
import ServerMarkup.Proofs.Source.LetterCase

namespace ServerMarkup

theorem colon_mem_small_iff {a : String} : ':' ∈ small a ↔ ':' ∈ a.toList := by
  simp only [small, List.mem_map, toLower_eq_iff (x := ':') (by decide)]
  simp

theorem append_colon_inj {as bs cs ds : List Char} (ha : ':' ∉ as) (hc : ':' ∉ cs) :
    as ++ ':' :: bs = cs ++ ':' :: ds ↔ as = cs ∧ bs = ds := by
  refine ⟨fun h => ?_, fun ⟨h, h'⟩ => h ▸ h' ▸ rfl⟩
  rcases List.append_eq_append_iff.1 h with ⟨es, rfl, he⟩ | ⟨es, rfl, he⟩
  · cases es with
    | nil => simpa using he
    | cons e es => simp [← (List.cons.inj he).1] at hc
  · cases es with
    | nil => simpa [eq_comm] using he
    | cons e es => simp [← (List.cons.inj he).1] at ha

namespace TagName

/-- The tag name that the parser makes of a stretch of source. -/
def ofExcerpt (e : Excerpt) : TagName :=
  match e.chars.findIdx? (· == ':') with
  | some i => ⟨some (e.slice 0 i), e.slice (i + 1) e.length⟩
  | none => ⟨none, e⟩

/-- A tag name with a prefix has it before the first colon; one without has no colon. -/
theorem ofExcerpt_cases (e : Excerpt) :
    (∃ f g, ofExcerpt e = ⟨some f, g⟩ ∧ ':' ∉ f.chars ∧ e.chars = f.chars ++ ':' :: g.chars) ∨
      ofExcerpt e = ⟨none, e⟩ ∧ ':' ∉ e.chars := by
  unfold ofExcerpt
  split
  · next i hi =>
    obtain ⟨hlt, colon, before⟩ := List.findIdx?_eq_some_iff_getElem.1 hi
    refine .inl ⟨_, _, rfl, ?_, ?_⟩
    · rw [Excerpt.chars_slice, List.drop_zero]
      intro hm
      obtain ⟨j, hj, hc⟩ := List.mem_take_iff_getElem.1 hm
      have := before j (by omega)
      simp [hc] at this
    · have hcolon : e.chars[i] = ':' := by simpa using colon
      rw [Excerpt.chars_slice, Excerpt.chars_slice, List.drop_zero, Excerpt.length,
        List.take_length, ← hcolon, ← List.drop_eq_getElem_cons hlt, List.take_append_drop]
  · next hi =>
    refine .inr ⟨rfl, ?_⟩
    intro hm
    have := List.findIdx?_eq_none_iff.1 hi ':' hm
    simp at this

/-- A tag name is written as it stands in the source. -/
theorem text_ofExcerpt (e : Excerpt) : (ofExcerpt e).text = e.value := by
  rcases ofExcerpt_cases e with ⟨f, g, hfg, -, hsplit⟩ | ⟨he, -⟩
  · rw [hfg]
    apply String.toList_injective
    change (f.value ++ ":" ++ g.value).toList = e.chars
    rw [hsplit, String.toList_append, String.toList_append]
    exact List.append_assoc ..
  · rw [he]
    rfl

theorem localName_ofExcerpt {e : Excerpt} (h : (ofExcerpt e).tagPrefix = none) :
    (ofExcerpt e).localName = e.value := by
  rcases ofExcerpt_cases e with ⟨f, g, hfg, -, -⟩ | ⟨he, -⟩
  · simp [hfg] at h
  · rw [he]
    rfl

/-- The parser and the lexer take the same tags for void. -/
theorem isVoid_ofExcerpt (e : Excerpt) :
    ((ofExcerpt e).tagPrefix.isSome || !isVoidElement (ofExcerpt e).localName) =
      !isVoidTag e.value := by
  unfold isVoidTag
  rcases ofExcerpt_cases e with ⟨f, g, hfg, -, hsplit⟩ | ⟨he, plain⟩
  · have colon : ':' ∈ e.chars := by simp [hsplit]
    simp [hfg, show ':' ∈ e.value.toList from colon]
  · simp [he, show ':' ∉ e.value.toList from plain, localName]

/-- Prefixes and local names agree if and only if the whole names do. -/
theorem agrees_ofExcerpt (e e' : Excerpt) :
    (ofExcerpt e).agrees (ofExcerpt e') = sameName e.value e'.value := by
  have split {e f g : Excerpt} (h : e.chars = f.chars ++ ':' :: g.chars) :
      small e.value = small f.value ++ ':' :: small g.value := by
    change e.chars.map Char.toLower = _
    rw [h, List.map_append]
    rfl
  rw [Bool.eq_iff_iff, sameName_iff_small]
  rcases ofExcerpt_cases e with ⟨f, g, hfg, hf, he⟩ | ⟨hn, he⟩ <;>
    rcases ofExcerpt_cases e' with ⟨f', g', hfg', hf', he'⟩ | ⟨hn', he'⟩
  · rw [hfg, hfg', split he, split he', append_colon_inj (mt colon_mem_small_iff.1 hf)
      (mt colon_mem_small_iff.1 hf'), ← sameName_iff_small, ← sameName_iff_small]
    simp [agrees, localName]
  · rw [hfg, hn']
    refine iff_of_false (by simp [agrees]) fun same => he' (colon_mem_small_iff.1 ?_)
    rw [← same, split he]
    simp
  · rw [hn, hfg']
    refine iff_of_false (by simp [agrees]) fun same => he (colon_mem_small_iff.1 ?_)
    rw [same, split he']
    simp
  · rw [hn, hn', ← sameName_iff_small]
    simp [agrees, localName]

end TagName

end ServerMarkup
