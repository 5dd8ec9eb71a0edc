/-
# The nodes below a typed node, by their paths

An attribute sees of a typed node its type, what is bound on it and the nodes below it: a `Spot`.
From a spot the names of properties lead down to collections (`Spot.at?`), so the nodes below are
told by three functions of a path: the type of the node there, what is bound on it, and the
properties of the collections in it.

Binding something at the end of a path of members (`bindPath`) changes little of them:

| at the path `q` | after binding at the end of `path` |
| --- | --- |
| `typeAt?` | the same, and that of a member of `path` where there was no node |
| `bindingsAt` | the same, changed if `q` is the path of the names |
| `propertiesAt` | the same, with the next name of the path at the end if it is a new one |
-/

import ServerMarkup.Proofs.History.Included
import ServerMarkup.Proofs.Tree.Labels

namespace ServerMarkup

/-- What attributes see of a typed node. -/
structure Spot where
  type : TypeRef
  var : String
  bindings : Bindings
  children : List Node

/-- The spot of a collection. -/
def CollectionHead.spot (h : CollectionHead) (ns : List Node) : Spot :=
  ⟨h.type, h.var, h.bindings, ns⟩

/-- The spot of a node that attributes have been bound to. -/
def Bound.spot (owner : Owner) (b : Bound) : Spot :=
  ⟨owner.type, owner.var, b.bindings, b.children⟩

/-- The spot of the first collection for the property among the nodes. -/
def spotOf? (name : String) (ns : List Node) : Option Spot :=
  (collection? name ns).map fun x => x.1.spot x.2

/-- The bindings of a node and the nodes below it with `change` done to the bindings at the end of
a path of members; a collection on the way that is not there is made, with the span. -/
def bindPath (change : Bindings → Bindings) (span : Span) :
    List Member → String → Bindings → List Node → Bindings × List Node
  | [], _, b, ns => (change b, ns)
  | m :: path, var, b, ns =>
    let fresh : CollectionHead := ⟨span, var ++ "_" ++ m.name, m.name, m.type, .empty⟩
    (b, changeCollection
      (fun h ns =>
        let (b, ns) := bindPath change span path h.var h.bindings ns
        ({ h with bindings := b }, ns))
      fresh ns)

namespace Spot

/-- The node at the end of a path of properties. -/
def at? (x : Spot) : List String → Option Spot
  | [] => some x
  | name :: names => (spotOf? name x.children).bind fun y => y.at? names

/-- The type of the node at the end of a path. -/
def typeAt? (x : Spot) (q : List String) : Option TypeRef :=
  (x.at? q).map type

/-- What is bound on the node at the end of a path. -/
def bindingsAt (x : Spot) (q : List String) : Bindings :=
  ((x.at? q).map bindings).getD .empty

/-- The properties of the collections in the node at the end of a path. -/
def propertiesAt (x : Spot) (q : List String) : List String :=
  ((x.at? q).map fun y => propertiesOf y.children).getD []

/-- The spot of a new collection for the member. -/
def fresh (x : Spot) (m : Member) : Spot :=
  ⟨m.type, x.var ++ "_" ++ m.name, .empty, []⟩

/-- The spot with `change` done to the bindings at the end of a path of members. -/
def bindPath (x : Spot) (change : Bindings → Bindings) (span : Span) (path : List Member) : Spot :=
  let y := ServerMarkup.bindPath change span path x.var x.bindings x.children
  { x with bindings := y.1, children := y.2 }

end Spot

/-- The type that the path has at the end of `q`, if it leads there. -/
def typeAlong (q : List String) (path : List Member) : Option TypeRef :=
  if q <+: path.map Member.name then (path.take q.length).getLast?.map Member.type else none

/-- The property to which the path leads next behind `q`, if it leads there. -/
def nextAlong (q : List String) (path : List Member) : Option String :=
  if q <+: path.map Member.name then (path.map Member.name)[q.length]? else none

section
variable (q : List String) (m : Member) (path : List Member)

@[simp] theorem typeAlong_nil_left : typeAlong [] path = none := by
  simp [typeAlong]

@[simp] theorem typeAlong_nil_right : typeAlong q [] = none := by
  simp [typeAlong]

/-- The type behind a name is found if the path begins with a member of that name. -/
theorem typeAlong_cons (name : String) : typeAlong (name :: q) (m :: path) =
    if name = m.name then if q = [] then some m.type else typeAlong q path else none := by
  unfold typeAlong
  by_cases same : name = m.name
  · subst same
    cases q with
    | nil => simp
    | cons k q =>
      cases path with
      | nil => simp
      | cons m' path => simp [List.getLast?_cons_cons]
  · simp [same]

@[simp] theorem nextAlong_nil_right : nextAlong q [] = none := by
  simp [nextAlong]

@[simp] theorem nextAlong_nil_cons : nextAlong [] (m :: path) = some m.name := by
  simp [nextAlong]

/-- The next name behind a name is found if the path begins with a member of that name. -/
theorem nextAlong_cons (name : String) : nextAlong (name :: q) (m :: path) =
    if name = m.name then nextAlong q path else none := by
  by_cases same : name = m.name <;> simp [nextAlong, same]

end

/-! ### One collection changed -/

section
variable {change : CollectionHead → List Node → CollectionHead × List Node} {fresh : CollectionHead}

/-- The first collection is looked at first. -/
theorem spotOf?_collection (name : String) (h : CollectionHead) (ts : List Template)
    (ns rest : List Node) : spotOf? name (.collection h ts ns :: rest) =
      if h.property = name then some (h.spot ns) else spotOf? name rest := by
  unfold spotOf?
  rw [collection?]
  split <;> rfl

/-- Changing a collection changes the spot for its property, or makes it, and no other spot. -/
theorem spotOf?_changeCollection {f : Spot → Spot}
    (same : ∀ h ns, (change h ns).1.property = h.property)
    (does : ∀ h ns, (change h ns).1.spot (change h ns).2 = f (h.spot ns))
    (name : String) (ns : List Node) : spotOf? name (changeCollection change fresh ns) =
      if name = fresh.property then some (f ((spotOf? name ns).getD (fresh.spot [])))
      else spotOf? name ns := by
  fun_induction changeCollection change fresh ns with
  | case1 head below hc =>
    have kept : head.property = fresh.property := by
      simpa only [hc] using same fresh []
    have done : head.spot below = f (fresh.spot []) := by
      simpa only [hc] using does fresh []
    have none : spotOf? name [] = none := rfl
    rw [spotOf?_collection, kept, done]
    simp only [eq_comm, none, Option.getD_none]
  | case2 head ts below rest here head' below' hc =>
    have kept : head'.property = head.property := by
      simpa only [hc] using same head below
    have done : head'.spot below' = f (head.spot below) := by
      simpa only [hc] using does head below
    rw [spotOf?_collection, spotOf?_collection, kept, here, done]
    by_cases found : name = fresh.property
    · rw [if_pos found, if_pos found.symm, if_pos found.symm, Option.getD_some]
    · rw [if_neg found, if_neg (Ne.symm found), if_neg (Ne.symm found)]
  | case3 head ts below rest away ih =>
    rw [spotOf?_collection, spotOf?_collection, ih]
    by_cases first : head.property = name
    · have other : name ≠ fresh.property := fun h => away (first.trans h)
      rw [if_pos first, if_pos first, if_neg other]
    · rw [if_neg first, if_neg first]
  | case4 n rest plain ih =>
    have skipped (ns : List Node) : spotOf? name (n :: ns) = spotOf? name ns := by
      cases n with
      | collection h ts below => exact (plain h ts below rfl).elim
      | _ => rfl
    rw [skipped, skipped, ih]

end

/-! ### Binding at the end of a path -/

namespace Spot

section
variable (x : Spot) (change : Bindings → Bindings) (span : Span) (m : Member) (path : List Member)

/-- Binding along a path changes the spot of its first member, or makes it, and no other spot. -/
theorem spotOf?_bindPath (name : String) :
    spotOf? name (x.bindPath change span (m :: path)).children =
      if name = m.name then
        some (((spotOf? name x.children).getD (x.fresh m)).bindPath change span path)
      else spotOf? name x.children :=
  @spotOf?_changeCollection _ ⟨span, x.var ++ "_" ++ m.name, m.name, m.type, .empty⟩
    (fun y => y.bindPath change span path) (fun _ _ => rfl) (fun _ _ => rfl) name x.children

/-- Binding along a path adds the property of its first member if it is a new one. -/
theorem propertiesOf_bindPath :
    propertiesOf (x.bindPath change span (m :: path)).children =
      if m.name ∈ propertiesOf x.children then propertiesOf x.children
      else propertiesOf x.children ++ [m.name] :=
  @propertiesOf_changeCollection _ ⟨span, x.var ++ "_" ++ m.name, m.name, m.type, .empty⟩
    (fun _ _ => rfl) x.children

end

section
variable (x : Spot) (name : String) (q : List String)

/-- A path of names is followed name by name. -/
theorem typeAt?_cons : x.typeAt? (name :: q) =
    (spotOf? name x.children).bind fun y => y.typeAt? q :=
  Option.map_bind ..

/-- Bindings behind a name are those of its spot. -/
theorem bindingsAt_cons : x.bindingsAt (name :: q) =
    ((spotOf? name x.children).map fun y => y.bindingsAt q).getD .empty := by
  rw [bindingsAt, at?]
  cases spotOf? name x.children <;> rfl

/-- Properties behind a name are those of its spot. -/
theorem propertiesAt_cons : x.propertiesAt (name :: q) =
    ((spotOf? name x.children).map fun y => y.propertiesAt q).getD [] := by
  rw [propertiesAt, at?]
  cases spotOf? name x.children <;> rfl

end

section
variable (x : Spot) (m : Member) (q : List String)

/-- Nothing is bound on a new collection. -/
theorem bindingsAt_fresh : (x.fresh m).bindingsAt q = .empty := by
  cases q <;> rfl

/-- Nothing stands in a new collection. -/
theorem propertiesAt_fresh : (x.fresh m).propertiesAt q = [] := by
  cases q <;> rfl

/-- A new collection has the type of its member. -/
theorem typeAt?_fresh : (x.fresh m).typeAt? q = if q = [] then some m.type else none := by
  cases q <;> rfl

end

section
variable (x : Spot) (change : Bindings → Bindings) (span : Span) (path : List Member)
  (q : List String)

/-- A path makes the nodes on its way that are not there, with the types of its members. -/
theorem typeAt?_bindPath :
    (x.bindPath change span path).typeAt? q = (x.typeAt? q).or (typeAlong q path) := by
  induction path generalizing x q with
  | nil =>
    rw [typeAlong_nil_right, Option.or_none]
    cases q <;> rfl
  | cons m path ih =>
    cases q with
    | nil => rfl
    | cons name q =>
      rw [typeAt?_cons, typeAt?_cons, spotOf?_bindPath, typeAlong_cons]
      by_cases here : name = m.name
      · rw [if_pos here, if_pos here, Option.bind_some, ih]
        cases spotOf? name x.children with
        | none =>
          rw [Option.getD_none, Option.bind_none, Option.none_or, typeAt?_fresh]
          cases q <;> simp
        | some y =>
          rw [Option.getD_some, Option.bind_some]
          cases q with
          | nil => rfl
          | cons k q => rfl
      · rw [if_neg here, if_neg here, Option.or_none]

/-- A path changes the bindings of the node at its end only. -/
theorem bindingsAt_bindPath : (x.bindPath change span path).bindingsAt q =
    if path.map Member.name = q then change (x.bindingsAt q) else x.bindingsAt q := by
  induction path generalizing x q with
  | nil => cases q <;> rfl
  | cons m path ih =>
    cases q with
    | nil => rfl
    | cons name q =>
      rw [bindingsAt_cons, bindingsAt_cons, spotOf?_bindPath, List.map_cons]
      by_cases here : name = m.name
      · have below : ((spotOf? name x.children).getD (x.fresh m)).bindingsAt q =
            ((spotOf? name x.children).map fun y => y.bindingsAt q).getD .empty := by
          cases spotOf? name x.children with
          | none => exact bindingsAt_fresh x m q
          | some y => rfl
        rw [if_pos here, Option.map_some, Option.getD_some, ih, below]
        simp only [List.cons.injEq, here, true_and]
      · have other : ¬(m.name :: path.map Member.name = name :: q) := fun h =>
          here (List.cons.inj h).1.symm
        rw [if_neg here, if_neg other]

/-- A path adds the collection that it leads to next, if there is none. -/
theorem propertiesAt_bindPath {used : List String} (h : x.propertiesAt q = used.eraseDups) :
    (x.bindPath change span path).propertiesAt q =
      (used ++ (nextAlong q path).toList).eraseDups := by
  induction path generalizing x q with
  | nil =>
    rw [nextAlong_nil_right, Option.toList_none, List.append_nil, ← h]
    cases q <;> rfl
  | cons m path ih =>
    cases q with
    | nil =>
      have listed : propertiesOf x.children = used.eraseDups := h
      have after := propertiesOf_bindPath x change span m path
      simp only [listed, List.mem_eraseDups] at after
      rw [nextAlong_nil_cons, Option.toList_some, eraseDups_concat]
      exact after
    | cons name q =>
      rw [propertiesAt_cons] at h
      rw [propertiesAt_cons, spotOf?_bindPath, nextAlong_cons]
      by_cases here : name = m.name
      · rw [if_pos here, if_pos here, Option.map_some, Option.getD_some]
        refine ih _ _ ?_
        cases found : spotOf? name x.children with
        | none =>
          rw [found] at h
          exact (propertiesAt_fresh x m q).trans h
        | some y =>
          rw [found] at h
          exact h
      · rw [if_neg here, if_neg here, Option.toList_none, List.append_nil, h]

end

end Spot

end ServerMarkup
