/-
# Walks along declared collections

The parts of a hyphenated name are looked up as they are declared, and then the nodes are walked by
their own types.  A node may have been made for an attribute before this one, which has named
another member; so in general a walk comes to other types than the declared ones, and may lose its
attribute on the way.

It does not with a lawful resolver.  Members of one name in one type are the same member there, so
every node has the type that its path says (`Typed`), and the walk comes to the end of the declared
path (`bindAlong_eq`, `endAlong?_eq`).  Then the attribute is bound there, or it is reported with
the type that is declared there (`bindAttribute_eq`).
-/

import ServerMarkup.Proofs.Binding.Spots
import ServerMarkup.Types.Catalog

namespace ServerMarkup

/-- The type at the end of a path of members that begins in the type. -/
def endType (type : TypeRef) (path : List Member) : TypeRef :=
  (path.getLast?.map Member.type).getD type

/-- The end of a path is that of its rest. -/
theorem endType_cons (type : TypeRef) (m : Member) (path : List Member) :
    endType type (m :: path) = endType m.type path := by
  cases path with
  | nil => rfl
  | cons m' path => simp [endType, List.getLast?_cons]

section
variable {r : TypeResolver} {type : TypeRef} {name : String} {names : List String} {m : Member}
  {path : List Member}

/-- A path is declared member by member. -/
theorem collectionPath?_cons_iff : collectionPath? r type (name :: names) = some path ↔
    ∃ m rest, r.memberOf type name = some m ∧ m.isCollection = true ∧
      collectionPath? r m.type names = some rest ∧ path = m :: rest := by
  rw [collectionPath?]
  cases h : (r.memberOf type name).filter Member.isCollection with
  | none =>
    constructor
    · intro leads
      cases leads
    · rintro ⟨m, rest, found, collection, -, -⟩
      rw [found, Option.filter_some, if_pos collection] at h
      cases h
  | some m =>
    obtain ⟨found, collection⟩ := Option.filter_eq_some_iff.1 h
    constructor
    · intro leads
      obtain ⟨rest, inner, rfl⟩ := Option.map_eq_some_iff.1 leads
      exact ⟨m, rest, found, collection, inner, rfl⟩
    · rintro ⟨m', rest, found', -, inner, rfl⟩
      cases found.symm.trans found'
      exact Option.map_eq_some_iff.2 ⟨rest, inner, rfl⟩

end

/-! ### The types of the nodes -/

/-- Each collection among the nodes is for a collection member of the type and has the type of that
member, and so do the collections in it. -/
inductive Typed (r : TypeResolver) : TypeRef → List Node → Prop where
  | nil {type} : Typed r type []
  | cons {type name m h ts below rest} (member : r.memberOf type name = some m)
      (collection : m.isCollection = true) (property : h.property = m.name)
      (own : h.type = m.type) (inner : Typed r h.type below) (more : Typed r type rest) :
      Typed r type (.collection h ts below :: rest)

section
variable {r : TypeResolver} {type : TypeRef} {ns : List Node} {m : Member} {name : String}

/-- The collection for a member has the member's type. -/
theorem Typed.of_collection? (lawful : r.Lawful) (member : r.memberOf type name = some m)
    {head : CollectionHead} {below : List Node} (h : Typed r type ns)
    (found : collection? m.name ns = some (head, below)) :
    head.type = m.type ∧ Typed r m.type below := by
  induction h with
  | nil => cases found
  | cons member' _ property own inner _ _ ih =>
    rw [collection?] at found
    split at found
    · next here =>
      cases found
      cases lawful.eq_of_name member' member (property.symm.trans here)
      exact ⟨own, own ▸ inner⟩
    · exact ih member found

/-- The names of the collections are those of collection members. -/
theorem Typed.chained {var : String} {named : String → Prop}
    (names : ∀ type name m, r.memberOf type name = some m → m.isCollection = true → named m.name)
    (h : Typed r type ns) (places : Chained (fun _ => True) var ns) : Chained named var ns := by
  induction h generalizing var with
  | nil => exact .nil
  | cons member collection property _ _ _ ihInner ihMore =>
    cases places with
    | cons hvar _ other inner more =>
      have name := names _ _ _ member collection
      exact .cons hvar (property ▸ name) other (ihInner inner) (ihMore more)

variable {change : CollectionHead → List Node → CollectionHead × List Node} {fresh : CollectionHead}

/-- Nodes stay typed if the collection for a member is changed, and that is for typed nodes what it
does below. -/
theorem Typed.changeCollection (lawful : r.Lawful) (member : r.memberOf type name = some m)
    (collection : m.isCollection = true) (property : fresh.property = m.name)
    (own : fresh.type = m.type)
    (keeps : ∀ h ns, (change h ns).1.property = h.property ∧ (change h ns).1.type = h.type ∧
      (h.type = m.type → Typed r m.type ns → Typed r m.type (change h ns).2))
    (h : Typed r type ns) : Typed r type (ServerMarkup.changeCollection change fresh ns) := by
  induction h with
  | nil =>
    obtain ⟨sameProperty, sameType, kept⟩ := keeps fresh []
    rw [ServerMarkup.changeCollection]
    have type_eq := sameType.trans own
    exact .cons member collection (sameProperty.trans property) type_eq
      (type_eq ▸ kept own .nil) .nil
  | @cons type name' m' head ts below rest member' collection' property' own' inner more _ ih =>
    rw [ServerMarkup.changeCollection]
    split
    · next here =>
      obtain ⟨sameProperty, sameType, kept⟩ := keeps head below
      cases lawful.eq_of_name member' member (property'.symm.trans (here.trans property))
      have type_eq := sameType.trans own'
      exact .cons member collection (sameProperty.trans property') type_eq
        (type_eq ▸ kept own' (own' ▸ inner)) more
    · exact .cons member' collection' property' own' inner (ih member)

/-- A declared path keeps the nodes typed. -/
theorem Typed.bindPath (lawful : r.Lawful) (change : Bindings → Bindings) (span : Span)
    {names : List String} {path : List Member} (leads : collectionPath? r type names = some path)
    (var : String) (b : Bindings) (h : Typed r type ns) :
    Typed r type (ServerMarkup.bindPath change span path var b ns).2 := by
  induction names generalizing type path var b ns with
  | nil =>
    cases leads
    exact h
  | cons name names ih =>
    obtain ⟨m, rest, member, collection, inner, rfl⟩ := collectionPath?_cons_iff.1 leads
    exact h.changeCollection lawful member collection rfl rfl fun head below =>
      ⟨rfl, rfl, fun _ typed => ih inner head.var head.bindings typed⟩

/-- Changing a collection is changing the first one for the property, or the new one. -/
theorem changeCollection_congr
    {change' : CollectionHead → List Node → CollectionHead × List Node}
    (new : change fresh [] = change' fresh [])
    (there : ∀ h below, collection? fresh.property ns = some (h, below) →
      change h below = change' h below) :
    changeCollection change fresh ns = changeCollection change' fresh ns := by
  induction ns with
  | nil => rw [changeCollection, changeCollection, new]
  | cons n rest ih =>
    cases n with
    | collection h ts below =>
      rw [collection?] at there
      rw [changeCollection, changeCollection]
      split
      · next here => rw [there h below (if_pos here)]
      · next away =>
        rw [if_neg away] at there
        rw [ih there]
    | _ =>
      rw [changeCollection, changeCollection, ih there]
      all_goals
        intro _ _ _ same
        cases same

end

/-! ### A walk comes to the end of its path -/

section
variable {r : TypeResolver} {type : TypeRef} {names : List String} {path : List Member}
  {ns : List Node}

/-- **A walk along a declared path binds at its end.** -/
theorem bindAlong_eq (lawful : r.Lawful) (change : TypeRef → Bindings → Bindings) (span : Span)
    (leads : collectionPath? r type names = some path) (var : String) (b : Bindings)
    (h : Typed r type ns) : bindAlong r change span names type var b ns =
      bindPath (change (endType type path)) span path var b ns := by
  induction names generalizing type path var b ns with
  | nil =>
    cases leads
    rfl
  | cons name names ih =>
    obtain ⟨m, rest, member, -, inner, rfl⟩ := collectionPath?_cons_iff.1 leads
    rw [bindAlong, member, bindPath, endType_cons]
    refine congrArg (Prod.mk b) (changeCollection_congr ?_ ?_)
    · rw [ih inner _ _ .nil]
    · intro head below found
      obtain ⟨own, typed⟩ := h.of_collection? lawful member found
      rw [own, ih inner _ _ typed]

/-- A walk along a declared path comes to a node, which has the type at the end of the path. -/
theorem endAlong?_eq (lawful : r.Lawful) (leads : collectionPath? r type names = some path)
    (h : Typed r type ns) : endAlong? r names type ns = some (endType type path) := by
  induction names generalizing type path ns with
  | nil =>
    cases leads
    rfl
  | cons name names ih =>
    obtain ⟨m, rest, member, -, inner, rfl⟩ := collectionPath?_cons_iff.1 leads
    rw [endType_cons, endAlong?, typesAlong, member, List.length_cons, List.getElem?_cons_succ]
    dsimp only
    cases found : collection? m.name ns with
    | none => exact ih inner .nil
    | some x =>
      obtain ⟨own, typed⟩ := h.of_collection? lawful member found
      dsimp only
      rw [own]
      exact ih inner typed

end

/-! ### Attributes -/

section
variable {r : TypeResolver} {owner : Owner} {type : TypeRef} {a leaf : Attribute}
  {names : List String} {path : List Member}

/-- The path of an attribute is declared by all parts of its name but the last one. -/
theorem path?_eq_some_iff : Effect.path? r type a = some path ↔ ∃ first last,
    hyphenated a.name = first ++ [last] ∧ first ≠ [] ∧
      collectionPath? r type first = some path := by
  unfold Effect.path?
  dsimp only
  have filled : hyphenated a.name ≠ [] := by
    rw [hyphenated, Ne, List.map_eq_nil_iff]
    exact pieces_ne_nil '-' a.name.chars
  obtain ⟨first, last, parts⟩ := (List.eq_nil_or_concat' _).resolve_left filled
  rw [parts, List.dropLast_concat, List.length_append, List.length_singleton]
  constructor
  · intro leads
    split at leads
    · cases leads
    · next long =>
      refine ⟨first, last, rfl, ?_, leads⟩
      rintro rfl
      exact long (Nat.lt_succ_self 1)
  · rintro ⟨first', last', same, several, leads⟩
    obtain ⟨rfl, -⟩ := List.append_inj' same rfl
    rw [if_neg, leads]
    have := List.length_pos_iff.2 several
    omega

/-- An attribute that has its place on a node goes along a declared path, with its last part, or
stays on the node. -/
theorem path_of_place {d : Document} (h : Effect.of r d owner a = .place names leaf) :
    (∃ path, Effect.path? r owner.type a = some path ∧
      collectionPath? r owner.type names = some path ∧ leaf = lastPart a) ∨
    Effect.path? r owner.type a = none ∧ names = [] ∧ leaf = a := by
  unfold Effect.of at h
  split at h
  · cases h
  split at h
  · next path leads =>
    cases h
    obtain ⟨first, last, split, -, declared⟩ := path?_eq_some_iff.1 leads
    rw [split, List.dropLast_concat]
    exact .inl ⟨path, leads, declared, rfl⟩
  next single =>
  split at h
  · cases h
  split at h
  · cases h
  · cases h
    exact .inr ⟨single, rfl, rfl⟩

/-- The names that an attribute goes along are declared. -/
theorem collectionPath?_of_place {d : Document} (h : Effect.of r d owner a = .place names leaf) :
    ∃ path, collectionPath? r owner.type names = some path := by
  obtain ⟨path, -, declared, -⟩ | ⟨-, rfl, -⟩ := path_of_place h
  · exact ⟨path, declared⟩
  · exact ⟨[], rfl⟩

/-- The session and the node after something has been bound at the end of a path of members. -/
def bindAt (r : TypeResolver) (owner : Owner) (s : Session) (b : Bound) (span : Span)
    (path : List Member) (leaf : Attribute) : Session × Bound :=
  let type := endType owner.type path
  let placement := Placement.of r type leaf
  let (bindings, children) := bindPath placement.addTo span path owner.var b.bindings b.children
  (if placement = .unknown then s.reportUnknown type leaf.name else s,
    { b with bindings, children })

variable (s : Session) (b : Bound)

/-- **An attribute comes to the end of its declared path**, and is bound or reported there. -/
theorem bindAttribute_eq (lawful : r.Lawful) (typed : Typed r owner.type b.children)
    (effect : Effect.of r s.document owner a = .place names leaf)
    (leads : collectionPath? r owner.type names = some path) :
    bindAttribute r owner s b a = bindAt r owner s b a.span path leaf := by
  unfold bindAttribute bindAt
  rw [effect]
  dsimp only
  rw [bindAlong_eq lawful _ _ leads _ _ typed, endAlong?_eq lawful leads typed,
    Option.filter_some]
  by_cases unknown : Placement.of r (endType owner.type path) leaf = .unknown
  · rw [if_pos (by simp [unknown]), if_pos unknown]
  · rw [if_neg (by simp [unknown]), if_neg unknown]

/-- An attribute that names no collection changes no node below. -/
theorem children_bindAttribute (single : Effect.path? r owner.type a = none) :
    (bindAttribute r owner s b a).2.children = b.children := by
  unfold bindAttribute
  split
  · rfl
  · rfl
  · rfl
  · next names leaf effect =>
    obtain ⟨path, leads, -⟩ | ⟨-, rfl, -⟩ := path_of_place effect
    · rw [single] at leads
      cases leads
    · rfl

/-- An attribute keeps the nodes typed. -/
theorem typed_bindAttribute (lawful : r.Lawful) (a : Attribute)
    (typed : Typed r owner.type b.children) :
    Typed r owner.type (bindAttribute r owner s b a).2.children := by
  cases effect : Effect.of r s.document owner a with
  | place names leaf =>
    obtain ⟨path, leads⟩ := collectionPath?_of_place effect
    rw [bindAttribute_eq s b lawful typed effect leads]
    exact typed.bindPath lawful _ _ leads _ _
  | _ =>
    unfold bindAttribute
    rw [effect]
    exact typed

/-- The last attribute is bound behind the others. -/
theorem bindAttributes_concat (r : TypeResolver) (owner : Owner) (as : List Attribute)
    (a : Attribute) : bindAttributes r owner s (as ++ [a]) =
      bindAttribute r owner (bindAttributes r owner s as).1 (bindAttributes r owner s as).2 a := by
  unfold bindAttributes
  rw [List.foldl_append]
  rfl

/-- **The nodes that attributes make are typed.** -/
theorem typed_bindAttributes (lawful : r.Lawful) (as : List Attribute) :
    Typed r owner.type (bindAttributes r owner s as).2.children := by
  induction as using List.reverseRecOn with
  | nil => exact .nil
  | append_singleton as a ih =>
    rw [bindAttributes_concat]
    exact typed_bindAttribute _ _ lawful a ih

end

/-! ### Grids -/

/-- The attributes of the start tag in the text, whose name has a prefix. -/
def attributesIn (tag : String) : List Attribute :=
  (Item.tagAttributes ((tokenize "page.aspx" tag).drop 3)).1

/-- Grids of rows, which are made of cells. -/
def gridTypes : Catalog :=
  Catalog.empty
    |>.add ((TypeDef.ofDotted "Web.Row").withProperty "Text" "System.String"
      |>.withMember (.collection "Cells" (.ofDotted "Web.Row")))
    |>.add ((TypeDef.ofDotted "WebForms.UI.WebControls.Grid").withProperty "ID" "System.String"
      |>.withMember (.event "Sort")
      |>.withMember (.template "Head")
      |>.withMember (.collection "Rows" (.ofDotted "Web.Row"))
      |>.withInterface attributeAccessor)

/-- A grid on a page. -/
def gridOwner : Owner :=
  ⟨.ofDotted "WebForms.UI.WebControls.Grid", "ctrl_0", true, false⟩

/-- Attributes that come to different things on the grid. -/
def gridAttributes : List Attribute :=
  attributesIn ("<asp:Grid runat=server id=g rows-cells-text=x Rows-text=y onsort=Go style=z " ++
    "rows-none=w>")

-- A resolver that is not lawful knows rows as lines, too, and says that these are made of words.
-- The rows that are there have none, and so the second attribute is lost without a report.
example :
    let r := { gridTypes.resolver with
      memberOf := fun type name =>
        if name = "lines" then some (.collection "Rows" (.ofDotted "Web.Line"))
        else if name = "words" ∧ type = .ofDotted "Web.Line" then
          some (.collection "Words" (.ofDotted "Web.Row"))
        else gridTypes.memberOf type name }
    let s := Session.start .standard "page.aspx" "" .empty
    let as := attributesIn "<asp:Grid runat=server rows-text=x lines-words-text=y>"
    let (s', b) := bindAttributes r gridOwner s as
    s'.diagnostics = [] ∧ propertiesOf b.children = ["Rows"] ∧
      ((b.spot gridOwner).bindingsAt ["Rows"]).properties.length = 1 ∧
      (b.spot gridOwner).propertiesAt ["Rows"] = [] := by
  decide +kernel

end ServerMarkup
