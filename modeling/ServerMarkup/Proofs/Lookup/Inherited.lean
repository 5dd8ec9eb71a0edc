/-
# Inherited members

A type has the members and interfaces of its own definition and of those along its bases
(`Catalog.lineage`).  A base is a name, so the bases of a type can come back to a definition they
have passed, and then the walk along them has no end.  It need not have one: from a definition that
comes again it goes on as it did before, so each definition on it comes up in the first `n` steps if
there are `n` of them at most (`Catalog.exists_lt_of_few`).

That is why it is enough to look at as many definitions as `Catalog.maxAncestors` says: for a type
with no more definitions than that, `inherited_complete` says that the nearest one with a member
counts, and that nothing is missed.
-/

import Mathlib.Data.Set.Card
import ServerMarkup.Proofs.Source.Cuts
import ServerMarkup.Types.Catalog

namespace ServerMarkup

/-! ### Names of types -/

/-- The full name is the wanted one without letter case: the whole of it if there is a dot in what
is wanted, and its part behind the last dot otherwise. -/
def IsCalled (full wanted : String) : Prop :=
  if '.' ∈ wanted.toList then sameName full wanted = true
  else ∃ simple, sameName simple wanted = true ∧ '.' ∉ simple.toList ∧
    (full = simple ∨ ∃ before, full = before ++ "." ++ simple)

theorem isCalled_iff {full wanted : String} :
    Catalog.isCalled full wanted = true ↔ IsCalled full wanted := by
  unfold Catalog.isCalled IsCalled
  by_cases dot : '.' ∈ wanted.toList
  · rw [if_pos (List.contains_iff_mem.2 dot), if_pos dot]
  rw [if_neg (mt List.contains_iff_mem.1 dot), if_neg dot]
  constructor
  · intro same
    obtain ⟨free, parts⟩ := afterLast_eq_iff.1 (rfl : afterLast '.' full.toList = _)
    refine ⟨_, same, by rwa [String.toList_ofList], parts.imp (fun whole => ?_) ?_⟩
    · rw [← String.toList_inj, String.toList_ofList, ← whole]
    · rintro ⟨before, whole⟩
      refine ⟨String.ofList before, String.toList_inj.1 (whole.trans ?_)⟩
      simp
  · rintro ⟨simple, same, free, parts⟩
    have last : afterLast '.' full.toList = simple.toList := by
      refine afterLast_eq_iff.2 ⟨free, parts.imp (congrArg String.toList) ?_⟩
      rintro ⟨before, rfl⟩
      exact ⟨before.toList, by simp⟩
    rwa [last, String.ofList_toList]

namespace Catalog

/-- The definition of the base of a definition. -/
def baseOf? (c : Catalog) (d : TypeDef) : Option TypeDef :=
  d.base.bind c.definition?

/-- The definition that is `n` steps along the bases of a type from the type's own. -/
def inherited? (c : Catalog) (type : TypeRef) : (n : Nat) → Option TypeDef
  | 0 => c.definition? type
  | n + 1 => (c.inherited? type n).bind c.baseOf?

/-- The definitions along the bases of a type, its own with them. -/
def lineage (c : Catalog) (type : TypeRef) : Set TypeDef :=
  {d | ∃ n, c.inherited? type n = some d}

variable {c : Catalog} {type : TypeRef}

/-! ### The walk along the bases -/

theorem inherited?_succ (c : Catalog) (type : TypeRef) (n : Nat) : c.inherited? type (n + 1) =
    (c.definition? type).bind fun d => d.base.bind fun base => c.inherited? base n := by
  induction n with
  | zero => rfl
  | succ n ih =>
    rw [inherited?, ih, Option.bind_assoc]
    refine congrArg _ (funext fun d => ?_)
    rw [Option.bind_assoc]
    rfl

/-- The definitions that are looked at are the first ones of the walk. -/
theorem getElem?_ancestorsUpTo (c : Catalog) (size : Nat) (type : TypeRef) (n : Nat) :
    (c.ancestorsUpTo size type)[n]? = if n < size then c.inherited? type n else none := by
  induction size generalizing type n with
  | zero => rfl
  | succ size ih =>
    unfold ancestorsUpTo
    cases n with
    | zero => cases h : c.definition? type <;> simp [inherited?, h]
    | succ n =>
      rw [inherited?_succ]
      cases c.definition? type with
      | none => simp
      | some d =>
        cases hb : d.base with
        | none => simp [hb]
        | some base => simp [hb, ih]

theorem getElem?_ancestors {n : Nat} (h : n < maxAncestors) :
    (c.ancestors type)[n]? = c.inherited? type n := by
  rw [ancestors, getElem?_ancestorsUpTo, if_pos h]

theorem mem_lineage_of_mem_ancestors {d : TypeDef} (h : d ∈ c.ancestors type) :
    d ∈ c.lineage type := by
  obtain ⟨n, hn⟩ := List.mem_iff_getElem?.1 h
  rw [ancestors, getElem?_ancestorsUpTo] at hn
  split at hn
  · exact ⟨n, hn⟩
  · cases hn

/-- From two places with one definition the walk goes on alike. -/
theorem inherited?_add {i j : Nat} (same : c.inherited? type i = c.inherited? type j) (n : Nat) :
    c.inherited? type (i + n) = c.inherited? type (j + n) := by
  induction n with
  | zero => exact same
  | succ n ih => rw [← Nat.add_assoc, ← Nat.add_assoc, inherited?, inherited?, ih]

/-- Before a definition of the walk there is no end of it. -/
theorem exists_inherited?_of_le {m n : Nat} {d : TypeDef} (le : m ≤ n)
    (h : c.inherited? type n = some d) : ∃ e, c.inherited? type m = some e := by
  induction n generalizing d with
  | zero =>
    obtain rfl := Nat.le_zero.1 le
    exact ⟨d, h⟩
  | succ n ih =>
    rcases Nat.le_succ_iff.1 le with le | rfl
    · obtain ⟨e, he, -⟩ := Option.bind_eq_some_iff.1 h
      exact ih le he
    · exact ⟨d, h⟩

/-- If there are `size` definitions on the walk at most, it comes back to one in `size` steps. -/
theorem exists_repeat {size n : Nat} {d : TypeDef} (few : (c.lineage type).encard ≤ size)
    (le : size ≤ n) (h : c.inherited? type n = some d) :
    ∃ i j, i < j ∧ j ≤ size ∧ c.inherited? type i = c.inherited? type j := by
  have fits : (some '' c.lineage type).encard < (Finset.range (size + 1) : Set Nat).encard := by
    rw [Set.encard_coe_eq_coe_finsetCard, Finset.card_range]
    exact lt_of_le_of_lt ((Set.encard_image_le _ _).trans few)
      (by exact_mod_cast Nat.lt_succ_self _)
  have within :
      Set.MapsTo (c.inherited? type) (Finset.range (size + 1)) (some '' c.lineage type) := by
    intro i hi
    obtain ⟨e, he⟩ := exists_inherited?_of_le
      ((Nat.lt_succ_iff.1 (Finset.mem_range.1 hi)).trans le) h
    exact ⟨e, ⟨i, he⟩, he.symm⟩
  obtain ⟨i, hi, j, hj, other, same⟩ :=
    Set.exists_ne_map_eq_of_encard_lt_of_maps_to fits within
  have hi := Nat.lt_succ_iff.1 (Finset.mem_range.1 hi)
  have hj := Nat.lt_succ_iff.1 (Finset.mem_range.1 hj)
  rcases Nat.lt_or_gt_of_ne other with lt | lt
  · exact ⟨i, j, lt, hj, same⟩
  · exact ⟨j, i, lt, hi, same.symm⟩

/-- If there are `size` definitions on the walk at most, each comes up in its first `size` steps. -/
theorem exists_lt_of_few {size n : Nat} {d : TypeDef} (few : (c.lineage type).encard ≤ size)
    (h : c.inherited? type n = some d) : ∃ m < size, c.inherited? type m = some d := by
  induction n using Nat.strong_induction_on with
  | _ n ih =>
    rcases Nat.lt_or_ge n size with lt | le
    · exact ⟨n, lt, h⟩
    · obtain ⟨i, j, lt, hj, same⟩ := exists_repeat few le h
      have back := inherited?_add same (n - j)
      rw [Nat.add_sub_of_le (hj.trans le), h] at back
      exact ih (i + (n - j)) (by omega) back

/-- **Nothing is missed**: of a type with few definitions all of them are looked at. -/
theorem mem_ancestors_iff (few : (c.lineage type).encard ≤ maxAncestors) {d : TypeDef} :
    d ∈ c.ancestors type ↔ d ∈ c.lineage type := by
  refine ⟨mem_lineage_of_mem_ancestors, fun ⟨n, h⟩ => ?_⟩
  obtain ⟨m, lt, hm⟩ := exists_lt_of_few few h
  exact List.mem_iff_getElem?.2 ⟨m, (getElem?_ancestors lt).trans hm⟩

/-! ### Members and interfaces -/

/-- The member is the first with the name in the nearest definition that has one. -/
def IsNearest (c : Catalog) (type : TypeRef) (name : String) (m : Member) : Prop :=
  ∃ n d, c.inherited? type n = some d ∧ d.members.find? (sameName ·.name name) = some m ∧
    ∀ k < n, ∀ e, c.inherited? type k = some e → ∀ x ∈ e.members, sameName x.name name = false

theorem find?_eq_none_iff {d : TypeDef} {name : String} :
    d.members.find? (sameName ·.name name) = none ↔
      ∀ m ∈ d.members, sameName m.name name = false := by
  simp only [List.find?_eq_none, Bool.not_eq_true]

theorem IsNearest.unique {name : String} {m m' : Member} (h : c.IsNearest type name m)
    (h' : c.IsNearest type name m') : m = m' := by
  obtain ⟨n, d, hn, own, before⟩ := h
  obtain ⟨n', d', hn', own', before'⟩ := h'
  rcases Nat.lt_trichotomy n n' with lt | rfl | lt
  · have none := find?_eq_none_iff.2 (before' n lt d hn)
    cases own.symm.trans none
  · cases hn.symm.trans hn'
    exact Option.some.inj (own.symm.trans own')
  · have none := find?_eq_none_iff.2 (before n' lt d' hn')
    cases own'.symm.trans none

/-- A member that is found is the nearest one. -/
theorem isNearest_of_memberOf {name : String} {m : Member} (h : c.memberOf type name = some m) :
    c.IsNearest type name m := by
  obtain ⟨before, d, after, whole, own, none⟩ := List.findSome?_eq_some_iff.1 h
  have place {n : Nat} {e : TypeDef} (at_n : (c.ancestors type)[n]? = some e) :
      n < maxAncestors ∧ c.inherited? type n = some e := by
    rw [ancestors, getElem?_ancestorsUpTo] at at_n
    split at at_n
    · next lt => exact ⟨lt, at_n⟩
    · cases at_n
  obtain ⟨lt, hd⟩ := place (n := before.length) (e := d) (by simp [whole])
  refine ⟨before.length, d, hd, own, fun k hk e he => find?_eq_none_iff.1 (none e ?_)⟩
  rw [← getElem?_ancestors (hk.trans lt), whole, List.getElem?_append_left hk] at he
  exact List.mem_of_getElem? he

/-- No member is found if no definition has one. -/
theorem memberOf_eq_none_iff (few : (c.lineage type).encard ≤ maxAncestors) {name : String} :
    c.memberOf type name = none ↔
      ∀ d ∈ c.lineage type, ∀ m ∈ d.members, sameName m.name name = false := by
  rw [memberOf, List.findSome?_eq_none_iff]
  exact forall_congr' fun d => by rw [mem_ancestors_iff few, find?_eq_none_iff]

/-- The nearest member is found. -/
theorem memberOf_eq_some_iff (few : (c.lineage type).encard ≤ maxAncestors) {name : String}
    {m : Member} : c.memberOf type name = some m ↔ c.IsNearest type name m := by
  refine ⟨isNearest_of_memberOf, fun nearest => ?_⟩
  cases found : c.memberOf type name with
  | none =>
    obtain ⟨n, d, hn, own, -⟩ := nearest
    have none := find?_eq_none_iff.2 ((memberOf_eq_none_iff few).1 found d ⟨n, hn⟩)
    cases own.symm.trans none
  | some m' => rw [(isNearest_of_memberOf found).unique nearest]

theorem isAssignableTo_iff (few : (c.lineage type).encard ≤ maxAncestors) {name : String} :
    c.isAssignableTo type name = true ↔ ∃ d ∈ c.lineage type,
      IsCalled d.type.fullName name ∨ ∃ i ∈ d.interfaces, IsCalled i name := by
  rw [isAssignableTo, List.any_eq_true]
  refine exists_congr fun d => ?_
  rw [mem_ancestors_iff few, Bool.or_eq_true, List.any_eq_true, isCalled_iff]
  simp only [isCalled_iff]

/-- There are no more definitions along the bases of a type than in the catalog. -/
theorem encard_lineage_le (c : Catalog) (type : TypeRef) :
    (c.lineage type).encard ≤ c.types.length := by
  have within : c.lineage type ⊆ c.types.toFinset := by
    rintro d ⟨n, hn⟩
    rw [Finset.mem_coe, List.mem_toFinset]
    cases n with
    | zero => exact List.mem_of_find?_eq_some hn
    | succ n =>
      obtain ⟨e, -, base⟩ := Option.bind_eq_some_iff.1 hn
      obtain ⟨t, -, found⟩ := Option.bind_eq_some_iff.1 base
      exact List.mem_of_find?_eq_some found
  refine (Set.encard_le_encard within).trans ?_
  rw [Set.encard_coe_eq_coe_finsetCard]
  exact_mod_cast List.toFinset_card_le c.types

/-- **Inheritance is complete.**  However the bases of a type go on, at most 64 definitions are
looked at; and if there are no more than that, in a chain with an end or in a circle, the member
with a name is the first one of the nearest definition that has one, there is none exactly if no
definition along the bases has one, and the type counts as another exactly if some definition along
the bases has its name or implements an interface with it. -/
theorem inherited_complete (c : Catalog) (type : TypeRef) :
    (c.ancestors type).length ≤ 64 ∧
    ((c.lineage type).encard ≤ 64 →
      (∀ name m, c.memberOf type name = some m ↔ c.IsNearest type name m) ∧
      (∀ name, c.memberOf type name = none ↔
        ∀ d ∈ c.lineage type, ∀ m ∈ d.members, sameName m.name name = false) ∧
      ∀ name, c.isAssignableTo type name = true ↔ ∃ d ∈ c.lineage type,
        IsCalled d.type.fullName name ∨ ∃ i ∈ d.interfaces, IsCalled i name) :=
  ⟨c.length_ancestorsUpTo_le maxAncestors type, fun few =>
    ⟨fun _ _ => memberOf_eq_some_iff few, fun _ => memberOf_eq_none_iff few,
      fun _ => isAssignableTo_iff few⟩⟩

/-- A box that derives from a label, which derives from the box. -/
def circular : Catalog :=
  let box := (TypeDef.empty "Site" "Box").withBase "site.label"
  let label := ((TypeDef.empty "Site" "Label").withBase "Site.Box").withInterface "UI.IFocus"
  (empty.add (box.withProperty "Text" "System.String")).add
    ((label.withProperty "TEXT" "System.Object").withProperty "Wrap" "System.Boolean")

/-- Types that derive from one another inherit from one another. -/
theorem inherited_circular :
    (circular.lineage (.plain "Site" "Box")).encard ≤ 64 ∧
      circular.IsNearest (.plain "Site" "Box") "wrap"
        (.property "Wrap" (.plain "System" "Boolean")) ∧
      (∀ d ∈ circular.lineage (.plain "Site" "Box"), ∀ m ∈ d.members,
        sameName m.name "Color" = false) ∧
      ∃ d ∈ circular.lineage (.plain "Site" "Box"),
        IsCalled d.type.fullName "ifocus" ∨ ∃ i ∈ d.interfaces, IsCalled i "ifocus" := by
  have few : (circular.lineage (.plain "Site" "Box")).encard ≤ 64 :=
    (encard_lineage_le _ _).trans (by decide)
  obtain ⟨-, complete⟩ := inherited_complete circular (.plain "Site" "Box")
  obtain ⟨nearest, missing, assignable⟩ := complete few
  exact ⟨few, (nearest _ _).1 (by decide +kernel), (missing _).1 (by decide +kernel),
    (assignable _).1 (by decide +kernel)⟩

end Catalog

end ServerMarkup
