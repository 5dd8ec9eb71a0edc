/-
# Asking for types and members

The parser knows no types of its own: it asks a `TypeResolver`.  Any question can break down, with a
text that says why.  The question for a type by its name gives that text in place of an answer; for
the other questions `breakdown` tells it, and an answer counts only where there is none.

Hosts bring resolvers of their own.  Nothing is taken for granted of their answers but that members
are looked up by name (`TypeResolver.Lawful`), and that only where it is said.
-/

import ServerMarkup.Text.Name
import ServerMarkup.Types.Member

namespace ServerMarkup

/-- The questions about types besides that for a type by its name. -/
inductive Question where
  | generic (space name : String) (arity : Nat)
  | construct (generic : GenericType) (args : List TypeRef)
  | member (type : TypeRef) (name : String)
  | assignable (type : TypeRef) (name : String)
  | view (path : String)
deriving DecidableEq, Repr

/-- Answers to questions about types. -/
structure TypeResolver where
  /-- The type with the namespace and the name, or why the question could not be answered. -/
  resolve : (space name : String) → Except String (Option TypeRef)
  /-- The generic type with the namespace, the name and the number of type arguments. -/
  resolveGeneric : (space name : String) → (arity : Nat) → Option GenericType
  /-- The type that a generic type makes of its arguments. -/
  construct : GenericType → List TypeRef → TypeRef
  /-- The member of the type, or of a type it derives from, with the name. -/
  memberOf : (type : TypeRef) → (name : String) → Option Member
  /-- Whether the type is, derives from or implements the named one. -/
  isAssignableTo : (type : TypeRef) → (name : String) → Bool
  /-- The type of the view that has been compiled from the path. -/
  resolveView : (path : String) → Option TypeRef
  /-- Why a question could not be answered, if it could not. -/
  breakdown : Question → Option String := fun _ => none

namespace TypeResolver

/-- What is asked of a resolver: a member is looked up by its name, whatever the letter case.  So
one that is found is found under its own name as well. -/
structure Lawful (r : TypeResolver) : Prop where
  own : ∀ {type name m}, r.memberOf type name = some m → r.memberOf type m.name = some m

/-- A resolver is lawful if it finds members whose names are the same but for the letter case, and
finds the same member under all such names. -/
theorem lawful_of_caseless {r : TypeResolver}
    (named : ∀ {type name m}, r.memberOf type name = some m → sameName m.name name = true)
    (same : ∀ {type name name'}, sameName name name' = true →
      r.memberOf type name = r.memberOf type name') : r.Lawful :=
  ⟨fun found => (same (named found)).trans found⟩

/-- In a type, a member is told by its name. -/
theorem Lawful.eq_of_name {r : TypeResolver} (lawful : r.Lawful) {type : TypeRef}
    {name name' : String} {m m' : Member} (h : r.memberOf type name = some m)
    (h' : r.memberOf type name' = some m') (same : m.name = m'.name) : m = m' := by
  have found := lawful.own h
  rw [same, lawful.own h'] at found
  exact (Option.some.inj found).symm

/-- The resolver that breaks down when it is asked for a type with one of the names. -/
def failingOn (names : List String) (r : TypeResolver) : TypeResolver :=
  { r with
    resolve := fun space name =>
      if names.contains name then .error ("cannot resolve " ++ name) else r.resolve space name }

end TypeResolver

/-- The interface of controls that take attributes of any name. -/
def attributeAccessor : String :=
  "IAttributeAccessor"

end ServerMarkup
