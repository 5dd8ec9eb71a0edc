/-
# The attributes of a tag, gathered from behind

The parser goes over the tokens of a tag and gives each attribute the value tokens that follow it.
Read from behind this is a fold (`Gathered.of`): the parts of a value are held until the name before
them is met.  The fold shows what a stretch of tokens does, whatever follows: plain tokens with an
attribute among them put the parts held into the last attribute of theirs (`foldr_of_attribute`), and
behind a token that is not plain nothing is read (`foldr_of_notPlain`).

Places do not matter here, so tokens and attributes stand without them (`Token.content`,
`Attribute.content`).
-/

import ServerMarkup.Proofs.Lexer.Alike
import ServerMarkup.Proofs.Parse.Reading

namespace ServerMarkup

/-- What a part of a value is, but for its place. -/
def ValuePart.content : ValuePart → TokenKind × String
  | .text e => (.attributeValue, e.value)
  | .code kind e => (.code kind, e.value)

/-- What an attribute is, but for its place: its name and the parts of its value. -/
def Attribute.content (a : Attribute) : String × List (TokenKind × String) :=
  (a.name.value, a.value.parts.map ValuePart.content)

/-- What a part of a tag amounts to: the parts of a value before its first attribute, and its
attributes. -/
structure Gathered where
  held : List (TokenKind × String)
  attributes : List (String × List (TokenKind × String))
deriving DecidableEq, Repr

namespace Gathered

/-- What a part of a tag amounts to with one more token before it. -/
def add (t : TokenKind × String) (x : Gathered) : Gathered :=
  match t.1 with
  | .attribute => ⟨[], (t.2, x.held) :: x.attributes⟩
  | .attributeValue | .code _ => ⟨t :: x.held, x.attributes⟩
  | _ => ⟨[], []⟩

/-- What the tokens amount to. -/
def of (ts : List (TokenKind × String)) : Gathered :=
  ts.foldr add ⟨[], []⟩

variable {t : TokenKind × String} {ts : List (TokenKind × String)} {x : Gathered}

theorem add_of_notPlain (h : t.1.isPlain = false) : add t x = ⟨[], []⟩ := by
  unfold add
  split
  · next hk => simp [hk, TokenKind.isPlain] at h
  · next hk => simp [hk, TokenKind.isPlain] at h
  · next hk => simp [hk, TokenKind.isPlain] at h
  · rfl

theorem add_of_value (plain : t.1.isPlain = true) (h : t.1 ≠ .attribute) :
    add t x = ⟨t :: x.held, x.attributes⟩ := by
  unfold add
  split
  · next hk => exact absurd hk h
  · rfl
  · rfl
  · next other => cases hk : t.1 <;> simp_all [TokenKind.isPlain]

/-- Behind a token that is not plain nothing is read. -/
theorem foldr_of_notPlain (h : ∃ t ∈ ts, t.1.isPlain = false) (x y : Gathered) :
    ts.foldr add x = ts.foldr add y := by
  induction ts with
  | nil => simp at h
  | cons t ts ih =>
    rw [List.foldr_cons, List.foldr_cons]
    by_cases plain : t.1.isPlain = false
    · rw [add_of_notPlain plain, add_of_notPlain plain]
    · obtain ⟨u, mem, other⟩ := h
      rcases List.mem_cons.1 mem with rfl | mem
      · exact absurd other plain
      · rw [ih ⟨u, mem, other⟩]

/-- Without an attribute, all are held. -/
theorem foldr_of_value (plain : ∀ t ∈ ts, t.1.isPlain = true) (h : ∀ t ∈ ts, t.1 ≠ .attribute)
    (x : Gathered) : ts.foldr add x = ⟨ts ++ x.held, x.attributes⟩ := by
  induction ts with
  | nil => rfl
  | cons t ts ih =>
    rw [List.forall_mem_cons] at plain h
    rw [List.foldr_cons, ih plain.2 h.2, add_of_value plain.1 h.1, List.cons_append]

/-- The last attribute takes what is held behind it. -/
theorem foldr_of_attribute (plain : ∀ t ∈ ts, t.1.isPlain = true)
    (h : ∃ t ∈ ts, t.1 = .attribute) : ∃ held as name parts, ∀ x : Gathered,
      ts.foldr add x = ⟨held, as ++ (name, parts ++ x.held) :: x.attributes⟩ := by
  induction ts with
  | nil => simp at h
  | cons t ts ih =>
    rw [List.forall_mem_cons] at plain
    by_cases later : ∃ u ∈ ts, u.1 = .attribute
    · obtain ⟨held, as, name, parts, does⟩ := ih plain.2 later
      by_cases first : t.1 = .attribute
      · refine ⟨[], (t.2, held) :: as, name, parts, fun x => ?_⟩
        rw [List.foldr_cons, does, add, first]
        rfl
      · refine ⟨t :: held, as, name, parts, fun x => ?_⟩
        rw [List.foldr_cons, does, add_of_value plain.1 first]
    · have values : ∀ u ∈ ts, u.1 ≠ .attribute := fun u mem hk => later ⟨u, mem, hk⟩
      have first : t.1 = .attribute := by
        obtain ⟨u, mem, hk⟩ := h
        rcases List.mem_cons.1 mem with rfl | mem
        · exact hk
        · exact absurd hk (values u mem)
      refine ⟨[], [], t.2, ts, fun x => ?_⟩
      rw [List.foldr_cons, foldr_of_value plain.2 values, add, first]
      rfl

end Gathered

namespace Item

theorem content_ofToken? {t : Token} {p : ValuePart} (h : ValuePart.ofToken? t = some p) :
    p.content = t.content ∧ t.kind.isPlain = true ∧ t.kind ≠ .attribute := by
  unfold ValuePart.ofToken? at h
  split at h
  · next hk =>
    obtain rfl := Option.some.inj h
    exact ⟨Prod.ext hk.symm rfl, by rw [hk]; rfl, by rw [hk]; exact TokenKind.noConfusion⟩
  · next kind hk =>
    obtain rfl := Option.some.inj h
    exact ⟨Prod.ext hk.symm rfl, by rw [hk]; rfl, by rw [hk]; exact TokenKind.noConfusion⟩
  · cases h

/-- What is held before the first attribute is the value that the tokens begin with. -/
theorem gathered_valueTokens (ts : List Token) : Gathered.of (ts.map Token.content) =
    ⟨(valueOf ts).parts.map ValuePart.content ++
        (Gathered.of ((ts.drop (valueTokens ts).length).map Token.content)).held,
      (Gathered.of ((ts.drop (valueTokens ts).length).map Token.content)).attributes⟩ := by
  induction ts with
  | nil => rfl
  | cons t ts ih =>
    cases part : ValuePart.ofToken? t with
    | none => simp [valueOf, valueTokens, part]
    | some p =>
      obtain ⟨same, plain, other⟩ := content_ofToken? part
      have more : valueTokens (t :: ts) = t :: valueTokens ts := by simp [valueTokens, part]
      rw [Gathered.of] at ih
      rw [valueOf, more, List.length_cons, List.drop_succ_cons, List.filterMap_cons_some part,
        List.map_cons, Gathered.of, List.foldr_cons, ih, Gathered.add_of_value plain other]
      dsimp only
      rw [List.map_cons, same]
      rfl

/-- No value token is left behind a value. -/
theorem held_drop_valueTokens (ts : List Token) :
    (Gathered.of ((ts.drop (valueTokens ts).length).map Token.content)).held = [] := by
  have next := List.head?_dropWhile_not (fun t => (ValuePart.ofToken? t).isSome) ts
  rw [drop_valueTokens]
  cases hd : ts.dropWhile fun t => (ValuePart.ofToken? t).isSome with
  | nil => rfl
  | cons u us =>
    rw [hd] at next
    change (ValuePart.ofToken? u).isSome = false at next
    rw [isSome_ofToken?, Bool.or_eq_false_iff, beq_eq_false_iff_ne] at next
    rw [List.map_cons, Gathered.of, List.foldr_cons]
    by_cases plain : u.kind.isPlain = true
    · have name : u.kind = .attribute := by
        obtain ⟨code, value⟩ := next
        rw [Token.isCode] at code
        cases hk : u.kind <;> simp_all [TokenKind.isPlain, TokenKind.isCode]
      rw [Gathered.add]
      simp only [Token.content, name]
    · rw [Gathered.add_of_notPlain (Bool.eq_false_iff.2 plain)]

/-- **The attributes of a tag are gathered from behind.** -/
theorem contents_tagAttributes {ts : List Token} (led : Led ts) :
    (tagAttributes ts).1.map Attribute.content =
      (Gathered.of (ts.map Token.content)).attributes := by
  fun_induction tagAttributes ts with
  | case1 => rfl
  | case2 t ts kind hk as ending n hr ih =>
    have code : t.isCode = true := by rw [Token.isCode, hk]; rfl
    have rest := ih fun u hu => led u (by simp [code, hu])
    rw [hr] at rest
    rw [List.map_cons, Gathered.of, List.foldr_cons, Gathered.add]
    simp only [Token.content, hk]
    exact rest
  | case3 t ts hk size as ending n hr ih =>
    have rest := ih (led_drop_valueTokens ts)
    rw [hr] at rest
    have value := gathered_valueTokens ts
    rw [held_drop_valueTokens, List.append_nil, ← rest, Gathered.of] at value
    rw [List.map_cons, List.map_cons, Gathered.of, List.foldr_cons, value, Gathered.add]
    simp only [Token.content, hk]
    rfl
  | case4 t ts hk | case5 t ts hk =>
    have plain : t.kind.isPlain = false := by rw [hk]; rfl
    rw [List.map_cons, Gathered.of, List.foldr_cons, Gathered.add_of_notPlain plain]
    rfl
  | case6 t ts code name opened selfClosed =>
    have first : t.kind ≠ .attributeValue := by
      refine led t ?_
      have other : t.isCode = false := by
        rw [Token.isCode]
        cases hk : t.kind <;> simp_all [TokenKind.isCode]
      simp [other]
    have plain : t.kind.isPlain = false := by
      cases hk : t.kind <;> simp_all [TokenKind.isPlain]
    rw [List.map_cons, Gathered.of, List.foldr_cons, Gathered.add_of_notPlain plain]
    rfl

end Item

end ServerMarkup
