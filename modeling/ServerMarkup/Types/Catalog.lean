/-
# Catalogs of types

A catalog is a table of type definitions and of compiled views, and answers the questions of a
`TypeResolver`.  Names are looked up without letter case; among definitions of one key the latest
counts.  Members and interfaces are inherited along the base types: `ancestors` follows them for at
most `maxAncestors` definitions, which also ends the walk when types derive from one another.
-/

import ServerMarkup.Path
import ServerMarkup.Types.Resolver

namespace ServerMarkup

/-- The definition of a type: its name, the number of its type parameters, its base, the interfaces
it implements and its own members, in the order of their declaration. -/
structure TypeDef where
  type : TypeRef
  arity : Nat
  base : Option TypeRef
  interfaces : List String
  members : List Member
deriving DecidableEq, Repr

namespace TypeDef

/-- A type without base, interfaces and members. -/
def empty (space name : String) : TypeDef :=
  ⟨.plain space name, 0, none, [], []⟩

/-- The same with a dotted name. -/
def ofDotted (full : String) : TypeDef :=
  let t := TypeRef.ofDotted full
  empty t.space t.name

/-- The definition with that many type parameters. -/
def withArity (d : TypeDef) (arity : Nat) : TypeDef :=
  { d with arity }

/-- The definition with the base of that dotted name. -/
def withBase (d : TypeDef) (full : String) : TypeDef :=
  { d with base := some (.ofDotted full) }

/-- The definition with one more interface. -/
def withInterface (d : TypeDef) (name : String) : TypeDef :=
  { d with interfaces := d.interfaces ++ [name] }

/-- The definition with one more member. -/
def withMember (d : TypeDef) (m : Member) : TypeDef :=
  { d with members := d.members ++ [m] }

/-- The definition with one more property of the type with that dotted name. -/
def withProperty (d : TypeDef) (name type : String) : TypeDef :=
  d.withMember (.property name (.ofDotted type))

/-- Whether the definition is found under the namespace, the name and the arity. -/
def isKeyed (d : TypeDef) (space name : String) (arity : Nat) : Bool :=
  sameName d.type.space space && sameName d.type.name name && d.arity == arity

end TypeDef

/-- A path without the marks of the project root at its start. -/
def rootless : List Char → List Char
  | '~' :: '/' :: cs => rootless cs
  | cs => cs.dropWhile (· == '/')

/-- The key of a view: its path from the project root with slashes and small letters. -/
def viewKey (path : String) : String :=
  lowered (String.ofList (slashed (rootless path.toList)))

/-- Type definitions, the latest first, and the types of views by their keys, the latest first. -/
structure Catalog where
  types : List TypeDef
  views : List (String × TypeRef)
deriving Repr

namespace Catalog

/-- The catalog without types and views. -/
def empty : Catalog :=
  ⟨[], []⟩

/-- The catalog with one more definition. -/
def add (c : Catalog) (d : TypeDef) : Catalog :=
  { c with types := d :: c.types }

/-- The catalog with one more view. -/
def addView (c : Catalog) (path : String) (type : TypeRef) : Catalog :=
  { c with views := (viewKey path, type) :: c.views }

/-- The latest definition under the namespace, the name and the arity. -/
def get? (c : Catalog) (space name : String) (arity : Nat) : Option TypeDef :=
  c.types.find? (·.isKeyed space name arity)

/-- The definition of a type. -/
def definition? (c : Catalog) (type : TypeRef) : Option TypeDef :=
  c.get? type.space type.name type.args.length

/-- The number of definitions that are looked at along the base types. -/
def maxAncestors : Nat :=
  64

/-- A type's definition and those of its base types, `n` at most. -/
def ancestorsUpTo (c : Catalog) : (n : Nat) → TypeRef → List TypeDef
  | 0, _ => []
  | n + 1, type =>
    match c.definition? type with
    | none => []
    | some d =>
      d :: match d.base with
        | none => []
        | some base => ancestorsUpTo c n base

/-- A type's definition and those of its base types. -/
def ancestors (c : Catalog) (type : TypeRef) : List TypeDef :=
  c.ancestorsUpTo maxAncestors type

/-- Whether a type's full name is the wanted one; a wanted name without a dot is compared with the
last part of the full name. -/
def isCalled (full wanted : String) : Bool :=
  if wanted.toList.contains '.' then sameName full wanted
  else sameName (String.ofList (afterLast '.' full.toList)) wanted

/-- The type with the namespace and the name. -/
def resolve (c : Catalog) (space name : String) : Option TypeRef :=
  (c.get? space name 0).map TypeDef.type

/-- The generic type with the namespace, the name and the arity. -/
def resolveGeneric (c : Catalog) (space name : String) (arity : Nat) : Option GenericType :=
  if arity = 0 then none
  else (c.get? space name arity).map fun d => ⟨d.type.space, d.type.name, arity⟩

/-- The first member with the name, in the nearest definition that has one. -/
def memberOf (c : Catalog) (type : TypeRef) (name : String) : Option Member :=
  (c.ancestors type).findSome? fun d => d.members.find? (sameName ·.name name)

/-- Whether the type is, derives from or implements the named one. -/
def isAssignableTo (c : Catalog) (type : TypeRef) (name : String) : Bool :=
  (c.ancestors type).any fun d =>
    isCalled d.type.fullName name || d.interfaces.any (isCalled · name)

/-- The type of the view with the path. -/
def resolveView (c : Catalog) (path : String) : Option TypeRef :=
  (c.views.find? (·.1 == viewKey path)).map Prod.snd

/-- The answers of a catalog. -/
def resolver (c : Catalog) : TypeResolver where
  resolve space name := .ok (c.resolve space name)
  resolveGeneric := c.resolveGeneric
  construct := GenericType.apply
  memberOf := c.memberOf
  isAssignableTo := c.isAssignableTo
  resolveView := c.resolveView

theorem length_ancestorsUpTo_le (c : Catalog) (n : Nat) (type : TypeRef) :
    (c.ancestorsUpTo n type).length ≤ n := by
  induction n generalizing type with
  | zero => simp [ancestorsUpTo]
  | succ n ih =>
    unfold ancestorsUpTo
    split
    · simp
    · split
      · simp
      · have := ih
        simp [ih]

variable {c : Catalog} {type : TypeRef} {name : String}

theorem sameName_of_memberOf {m : Member} (h : c.memberOf type name = some m) :
    sameName m.name name = true := by
  rw [memberOf] at h
  generalize c.ancestors type = ds at h
  obtain ⟨d, -, found⟩ := List.exists_of_findSome?_eq_some h
  have named := List.find?_some found
  exact named

theorem memberOf_congr {name' : String} (h : sameName name name' = true) :
    c.memberOf type name = c.memberOf type name' := by
  have test : (fun m : Member => sameName m.name name) = fun m => sameName m.name name' := by
    funext m
    rw [Bool.eq_iff_iff, sameName_iff, sameName_iff, sameName_iff.1 h]
  rw [memberOf, memberOf, test]

/-- A catalog keeps what is asked of a resolver. -/
theorem lawful_resolver (c : Catalog) : c.resolver.Lawful :=
  TypeResolver.lawful_of_caseless sameName_of_memberOf memberOf_congr

end Catalog

end ServerMarkup
