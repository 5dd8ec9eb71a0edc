/-
# Hyphenated attributes make a trie

With a lawful resolver, an attribute whose name leads through collections (`Effect.path?`) is bound
at the end of its declared path, and the collections on the way that are not there are made.  So the
nodes that the attributes of a typed node make are the trie of their paths (`Spot.TrieOf`): there is
one collection for each beginning of a path, in the order of their first use, and an attribute is
bound on the one at the end of its own path.

Attributes of other names change nothing below the node.
-/

import ServerMarkup.Proofs.Binding.Walks
import ServerMarkup.Proofs.Fields.Declared
import ServerMarkup.Proofs.Include.Paths
import ServerMarkup.Proofs.Source.Excerpts

namespace ServerMarkup

/-! ### The last part of a name -/

/-- The last piece stands at the end of the text. -/
theorem suffix_of_getLast?_pieces {sep : Char} {cs p : List Char}
    (h : (pieces sep cs).getLast? = some p) : p <:+ cs := by
  induction cs generalizing p with
  | nil =>
    cases h
    exact List.suffix_rfl
  | cons c cs ih =>
    rw [pieces] at h
    split at h
    · rw [List.getLast?_cons_of_ne_nil (pieces_ne_nil sep cs)] at h
      exact (ih h).trans (List.suffix_cons c cs)
    · cases hp : pieces sep cs with
      | nil => exact absurd hp (pieces_ne_nil sep cs)
      | cons q qs =>
        rw [hp] at h ih
        cases qs with
        | nil =>
          cases h
          have whole : q = cs := by
            rw [← joined_pieces sep cs, hp, joined]
          rw [whole]
          exact List.suffix_rfl
        | cons q' qs =>
          rw [List.getLast?_cons_of_ne_nil (List.cons_ne_nil _ _)] at h ih
          exact (ih h).trans (List.suffix_cons c cs)

/-- The attribute under the last part of its name has the text of that part. -/
theorem value_lastPart {a : Attribute} {first : List String} {last : String}
    (h : hyphenated a.name = first ++ [last]) : (lastPart a).name.value = last := by
  have part : (hyphenated a.name).getLast? = some last := by
    rw [h, List.getLast?_concat]
  have cut : (lastPart a).name.chars = a.name.chars.drop (a.name.chars.length - last.length) := by
    unfold lastPart
    rw [part, Option.map_some, Option.getD_some, Excerpt.chars_slice, Excerpt.length,
      List.take_length]
  rw [hyphenated, List.getLast?_map, Option.map_eq_some_iff] at part
  obtain ⟨p, tail, rfl⟩ := part
  rw [String.length_ofList, ← List.suffix_iff_eq_drop.1 (suffix_of_getLast?_pieces tail)] at cut
  rw [← cut]
  exact String.ofList_toList.symm

/-- The last part of a name stands at the end of the name, in the source as well. -/
theorem verbatim_lastPart {a : Attribute} {src : Source} (within : a.name.Verbatim src)
    (closed : a.name.Closed src) : (lastPart a).name.Verbatim src ∧
      (lastPart a).name.span.stop = a.name.span.stop := by
  refine ⟨within.slice closed _ _, ?_⟩
  have length := within.length_eq
  have ordered := within.within.start_le
  have stop : (lastPart a).name.span.stop = a.name.positionAt (min a.name.length a.name.length) :=
    rfl
  rw [stop, Nat.min_self, within.positionAt_eq closed le_rfl, within.within.stop_eq]
  congr 1
  omega

/-! ### Paths -/

section
variable {r : TypeResolver} {owner : Owner} {type : TypeRef} {a : Attribute} {path : List Member}

/-- An attribute named `runat` leads nowhere. -/
theorem path?_of_runat (named : a.name.isNamed "runat" = true) : Effect.path? r type a = none := by
  have plain : '-' ∉ a.name.chars := by
    intro mem
    rw [Excerpt.isNamed, sameName_iff] at named
    have mem' : '-'.toLower ∈ (lowered a.name.value).toList := by
      rw [lowered, String.toList_ofList]
      exact List.mem_map_of_mem mem
    rw [named] at mem'
    revert mem'
    decide +kernel
  have parts : hyphenated a.name = [String.ofList a.name.chars] := by
    rw [hyphenated, pieces_of_notMem plain, List.map_singleton]
  rw [Effect.path?, parts]
  rfl

/-- An attribute whose name leads through collections goes along its parts with the last one. -/
theorem of_of_path (d : Document) (leads : Effect.path? r owner.type a = some path) :
    Effect.of r d owner a = .place (hyphenated a.name).dropLast (lastPart a) := by
  have other : a.name.isNamed "runat" = false := by
    rw [Bool.eq_false_iff]
    intro named
    rw [path?_of_runat named] at leads
    cases leads
  rw [Effect.of, other, leads]
  rfl

/-- Paths of a lawful resolver have one type at one place. -/
theorem typeAlong_congr (lawful : r.Lawful) {names names' q : List String}
    {path' : List Member} (leads : collectionPath? r type names = some path)
    (leads' : collectionPath? r type names' = some path') {t t' : TypeRef}
    (h : typeAlong q path = some t) (h' : typeAlong q path' = some t') : t = t' := by
  induction q generalizing type names names' path path' with
  | nil =>
    rw [typeAlong_nil_left] at h
    cases h
  | cons name q ih =>
    cases names with
    | nil =>
      cases leads
      rw [typeAlong_nil_right] at h
      cases h
    | cons n names =>
    cases names' with
    | nil =>
      cases leads'
      rw [typeAlong_nil_right] at h'
      cases h'
    | cons n' names' =>
    obtain ⟨m, rest, member, -, inner, rfl⟩ := collectionPath?_cons_iff.1 leads
    obtain ⟨m', rest', member', -, inner', rfl⟩ := collectionPath?_cons_iff.1 leads'
    rw [typeAlong_cons] at h h'
    split at h
    · next same =>
      split at h'
      · next same' =>
        cases lawful.eq_of_name member member' (same.symm.trans same')
        split at h
        · next none =>
          rw [if_pos none] at h'
          exact (Option.some.inj h).symm.trans (Option.some.inj h')
        · next more =>
          rw [if_neg more] at h'
          exact ih inner inner' h h'
      · cases h'
    · cases h

end

/-! ### One attribute -/

/-- What an attribute comes to on the collection at the end of `q`, if it leads there. -/
def placementAt? (r : TypeResolver) (type : TypeRef) (q : List String) (a : Attribute) :
    Option Placement :=
  (Effect.path? r type a).bind fun path =>
    if path.map Member.name = q then some (.of r (endType type path) (lastPart a)) else none

/-- What stands below a spot is told by its nodes. -/
theorem Spot.at?_congr {x y : Spot} (same : x.children = y.children) {name : String}
    {q : List String} : x.at? (name :: q) = y.at? (name :: q) := by
  rw [at?, at?, same]

section
variable {r : TypeResolver} {owner : Owner} {a : Attribute} {path : List Member} (s : Session)
  (b : Bound) (lawful : r.Lawful) (typed : Typed r owner.type b.children)
include lawful typed

/-- An attribute that leads through collections is bound at the end of its path. -/
theorem spot_bindAttribute (leads : Effect.path? r owner.type a = some path) :
    (bindAttribute r owner s b a).2.spot owner = (b.spot owner).bindPath
      (Placement.of r (endType owner.type path) (lastPart a)).addTo a.span path := by
  obtain ⟨parts, last, split, -, declared⟩ := path?_eq_some_iff.1 leads
  have effect := of_of_path s.document leads
  rw [split, List.dropLast_concat] at effect
  rw [bindAttribute_eq s b lawful typed effect declared]
  rfl

/-- An attribute makes nodes where it leads and there were none, with the types of its path. -/
theorem typeAt?_bindAttribute (q : List String) :
    ((bindAttribute r owner s b a).2.spot owner).typeAt? q =
      ((b.spot owner).typeAt? q).or ((Effect.path? r owner.type a).bind (typeAlong q)) := by
  cases leads : Effect.path? r owner.type a with
  | some path =>
    rw [spot_bindAttribute s b lawful typed leads, Spot.typeAt?_bindPath]
    rfl
  | none =>
    have same : ((bindAttribute r owner s b a).2.spot owner).children = (b.spot owner).children :=
      children_bindAttribute s b leads
    rw [Option.bind_none, Option.or_none]
    cases q with
    | nil => rfl
    | cons name q =>
      rw [Spot.typeAt?, Spot.at?_congr same]
      rfl

/-- An attribute adds the next name of its path to the properties, if it is a new one. -/
theorem propertiesAt_bindAttribute {q used : List String}
    (h : (b.spot owner).propertiesAt q = used.eraseDups) :
    ((bindAttribute r owner s b a).2.spot owner).propertiesAt q =
      (used ++ ((Effect.path? r owner.type a).bind (nextAlong q)).toList).eraseDups := by
  cases leads : Effect.path? r owner.type a with
  | some path =>
    rw [spot_bindAttribute s b lawful typed leads]
    exact Spot.propertiesAt_bindPath _ _ _ _ _ h
  | none =>
    have same : ((bindAttribute r owner s b a).2.spot owner).children = (b.spot owner).children :=
      children_bindAttribute s b leads
    rw [Option.bind_none, Option.toList_none, List.append_nil, ← h]
    cases q with
    | nil => exact congrArg propertiesOf same
    | cons name q =>
      rw [Spot.propertiesAt, Spot.at?_congr same]
      rfl

/-- An attribute is bound at the end of its path, and changes no other bindings below the node. -/
theorem bindingsAt_bindAttribute {q : List String} (below : q ≠ []) :
    ((bindAttribute r owner s b a).2.spot owner).bindingsAt q =
      (placementAt? r owner.type q a).toList.foldl Placement.addTo
        ((b.spot owner).bindingsAt q) := by
  unfold placementAt?
  cases leads : Effect.path? r owner.type a with
  | some path =>
    rw [spot_bindAttribute s b lawful typed leads, Spot.bindingsAt_bindPath, Option.bind_some]
    split <;> rfl
  | none =>
    have same : ((bindAttribute r owner s b a).2.spot owner).children = (b.spot owner).children :=
      children_bindAttribute s b leads
    obtain ⟨name, q, rfl⟩ := List.exists_cons_of_ne_nil below
    rw [Spot.bindingsAt, Spot.at?_congr same]
    rfl

end

/-! ### All attributes -/

/-- The property of a collection. -/
def Node.property? : Node → Option String
  | .collection h _ _ => some h.property
  | _ => none

namespace Chained

variable {named : String → Prop} {var : String} {ns : List Node}

/-- Nothing but collections stands among the nodes that attributes make. -/
theorem map_property? (h : Chained named var ns) :
    ns.map Node.property? = (propertiesOf ns).map some := by
  induction h with
  | nil => rfl
  | cons _ _ _ _ _ _ more =>
    rw [List.map_cons, more, propertiesOf_collection, List.map_cons]
    rfl

/-- The nodes below the spot of a property are such nodes as well. -/
theorem of_spotOf? {name : String} {y : Spot} (h : Chained named var ns)
    (found : spotOf? name ns = some y) : Chained named y.var y.children := by
  induction h with
  | nil => cases found
  | cons _ _ _ inner _ _ more =>
    rw [spotOf?_collection] at found
    split at found
    · cases found
      exact inner
    · exact more found

/-- The nodes below the end of a path are such nodes as well. -/
theorem of_at? {x y : Spot} {q : List String} (h : Chained named x.var x.children)
    (found : x.at? q = some y) : Chained named y.var y.children := by
  induction q generalizing x with
  | nil =>
    cases found
    exact h
  | cons name q ih =>
    rw [Spot.at?] at found
    obtain ⟨z, here, below⟩ := Option.bind_eq_some_iff.1 found
    exact ih (h.of_spotOf? here) below

end Chained

/-- A path has a type at the end of each of its beginnings. -/
theorem typeAlong_isSome {q : List String} {path : List Member} :
    (typeAlong q path).isSome ↔ q ≠ [] ∧ q <+: path.map Member.name := by
  unfold typeAlong
  split
  · next leads =>
    cases q with
    | nil => simp
    | cons name q =>
      cases path with
      | nil => simp at leads
      | cons m path =>
        rw [List.map_cons, List.cons_prefix_cons] at leads
        simp [leads, List.getLast?_cons]
  · next away => simp [away]

/-- The nodes below the spot are the trie of the paths of the attributes. -/
structure Spot.TrieOf (r : TypeResolver) (as : List Attribute) (x : Spot) : Prop where
  /-- There is a node for each beginning of a path. -/
  there : ∀ q, (x.at? q).isSome ↔
    q = [] ∨ ∃ path ∈ as.filterMap (Effect.path? r x.type), q <+: path.map Member.name
  /-- Nothing stands in a node but one collection for each property to which a path leads next, in
  the order of their first use. -/
  next : ∀ q y, x.at? q = some y → y.children.map Node.property? =
    (((as.filterMap (Effect.path? r x.type)).filterMap (nextAlong q)).eraseDups).map some
  /-- A collection has the declared type of its member, in all the paths that lead there. -/
  declared : ∀ q y, q ≠ [] → x.at? q = some y →
    ∀ t ∈ (as.filterMap (Effect.path? r x.type)).filterMap (typeAlong q), t = y.type
  /-- The attributes are bound at the ends of their paths, in their order. -/
  bound : ∀ q, q ≠ [] → x.bindingsAt q =
    (as.filterMap (placementAt? r x.type q)).foldl Placement.addTo .empty
  /-- A path is told by all parts of a name but the last, and the last is the name of what is bound,
  at its place in the source. -/
  leaf : ∀ a ∈ as, ∀ path, Effect.path? r x.type a = some path → ∃ parts last,
    hyphenated a.name = parts ++ [last] ∧ parts ≠ [] ∧
    collectionPath? r x.type parts = some path ∧ (lastPart a).name.value = last ∧
    ∀ src, a.name.Verbatim src → a.name.Closed src → (lastPart a).name.Verbatim src ∧
      (lastPart a).name.span.stop = a.name.span.stop

section
variable {r : TypeResolver} (lawful : r.Lawful) (owner : Owner) (s : Session) (as : List Attribute)
include lawful

/-- The type at a path is that of the first attribute that leads there. -/
theorem typeAt?_bindAttributes {q : List String} (below : q ≠ []) :
    ((bindAttributes r owner s as).2.spot owner).typeAt? q =
      ((as.filterMap (Effect.path? r owner.type)).filterMap (typeAlong q)).head? := by
  induction as using List.reverseRecOn with
  | nil =>
    obtain ⟨name, q, rfl⟩ := List.exists_cons_of_ne_nil below
    rfl
  | append_singleton as a ih =>
    have typed : Typed r owner.type (bindAttributes r owner s as).2.children :=
      typed_bindAttributes s lawful as
    rw [bindAttributes_concat, typeAt?_bindAttribute _ _ lawful typed, ih, List.filterMap_append,
      List.filterMap_append, List.head?_append]
    cases leads : Effect.path? r owner.type a with
    | none => simp [leads]
    | some path => cases h : typeAlong q path <;> simp [leads, h]

/-- The properties at a path are the next names of the attributes that lead there, each once. -/
theorem propertiesAt_bindAttributes (q : List String) :
    ((bindAttributes r owner s as).2.spot owner).propertiesAt q =
      ((as.filterMap (Effect.path? r owner.type)).filterMap (nextAlong q)).eraseDups := by
  induction as using List.reverseRecOn with
  | nil => cases q <;> rfl
  | append_singleton as a ih =>
    have typed : Typed r owner.type (bindAttributes r owner s as).2.children :=
      typed_bindAttributes s lawful as
    rw [bindAttributes_concat, propertiesAt_bindAttribute _ _ lawful typed ih,
      List.filterMap_append, List.filterMap_append]
    cases leads : Effect.path? r owner.type a with
    | none => simp [leads]
    | some path => cases h : nextAlong q path <;> simp [leads, h]

/-- The bindings at a path are those of the attributes that end there. -/
theorem bindingsAt_bindAttributes {q : List String} (below : q ≠ []) :
    ((bindAttributes r owner s as).2.spot owner).bindingsAt q =
      (as.filterMap (placementAt? r owner.type q)).foldl Placement.addTo .empty := by
  induction as using List.reverseRecOn with
  | nil =>
    obtain ⟨name, q, rfl⟩ := List.exists_cons_of_ne_nil below
    rfl
  | append_singleton as a ih =>
    have typed : Typed r owner.type (bindAttributes r owner s as).2.children :=
      typed_bindAttributes s lawful as
    rw [bindAttributes_concat, bindingsAt_bindAttribute _ _ lawful typed below, ih,
      List.filterMap_append, List.foldl_append]
    cases h : placementAt? r owner.type q a <;> simp [h]

/-- **The nodes that attributes make are the trie of their paths**, with a lawful resolver. -/
theorem trieOf_bindAttributes : ((bindAttributes r owner s as).2.spot owner).TrieOf r as where
  there := by
    intro q
    by_cases top : q = []
    · simp [top, Spot.at?]
    · have types := congrArg Option.isSome (typeAt?_bindAttributes lawful owner s as top)
      rw [Spot.typeAt?, Option.isSome_map] at types
      rw [types, or_iff_right top, List.isSome_head?, Ne, List.filterMap_eq_nil_iff]
      simp only [not_forall, ← Option.isSome_iff_ne_none, typeAlong_isSome, exists_prop]
      exact exists_congr fun path => and_congr_right fun _ => and_iff_right top
  next := by
    intro q y found
    have chained := chained_bindAttributes r owner s as
    have listed := propertiesAt_bindAttributes lawful owner s as q
    rw [Spot.propertiesAt, found, Option.map_some, Option.getD_some] at listed
    rw [(chained.of_at? (x := (bindAttributes r owner s as).2.spot owner) found).map_property?]
    exact congrArg (List.map some) listed
  declared := by
    intro q y below found t mem
    have first := typeAt?_bindAttributes lawful owner s as below
    rw [Spot.typeAt?, found] at first
    have mem' := List.mem_of_head? first.symm
    simp only [List.mem_filterMap] at mem mem'
    obtain ⟨path, ⟨a, -, leads⟩, here⟩ := mem
    obtain ⟨path', ⟨a', -, leads'⟩, here'⟩ := mem'
    obtain ⟨parts, -, -, -, leads⟩ := path?_eq_some_iff.1 leads
    obtain ⟨parts', -, -, -, leads'⟩ := path?_eq_some_iff.1 leads'
    exact typeAlong_congr lawful leads leads' here here'
  bound q below := bindingsAt_bindAttributes lawful owner s as below
  leaf := by
    intro a _ path leads
    obtain ⟨parts, last, split, several, leads⟩ := path?_eq_some_iff.1 leads
    exact ⟨parts, last, split, several, leads, value_lastPart split, fun _ => verbatim_lastPart⟩

end

/-- Three attributes of the grid lead through its rows, and one of them on to cells. -/
theorem trieOf_bindAttributes_grid : gridTypes.resolver.Lawful ∧
    let s := Session.start .standard "page.aspx" "" .empty
    let x := (bindAttributes gridTypes.resolver gridOwner s gridAttributes).2.spot gridOwner
    x.TrieOf gridTypes.resolver gridAttributes ∧
      (gridAttributes.filterMap (Effect.path? gridTypes.resolver x.type)).map
        (·.map Member.name) = [["Rows", "Cells"], ["Rows"], ["Rows"]] ∧
      x.typeAt? ["Rows", "Cells"] = some (.ofDotted "Web.Row") :=
  ⟨gridTypes.lawful_resolver, trieOf_bindAttributes gridTypes.lawful_resolver gridOwner _ _,
    by decide +kernel, by decide +kernel⟩

end ServerMarkup
