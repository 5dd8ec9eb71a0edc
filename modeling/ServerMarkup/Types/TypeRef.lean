/-
# Names of types

A type has a namespace and a name, and a constructed generic type has type arguments.  A dotted
name is cut at its last dot (`TypeRef.ofDotted`), and a type is written as
`Namespace.Name<Argument, …>` (`TypeRef.fullName`); cutting what is written for a type without
arguments, whose name holds no dot, gives the type back.
-/

import ServerMarkup.Text.Name
import ServerMarkup.Text.Pieces

namespace ServerMarkup

/-- A type by namespace and name, with its type arguments. -/
structure TypeRef where
  space : String
  name : String
  args : List TypeRef
deriving Repr

namespace TypeRef

mutual

/-- Types are equal if namespace, name and arguments are. -/
def decEq : (t u : TypeRef) → Decidable (t = u)
  | ⟨s, n, as⟩, ⟨s', n', bs⟩ =>
    match decEqs as bs with
    | isTrue h =>
      if hn : s = s' ∧ n = n' then isTrue (by rw [hn.1, hn.2, h])
      else isFalse (by simp only [mk.injEq]; exact fun e => hn ⟨e.1, e.2.1⟩)
    | isFalse h => isFalse (by simp only [mk.injEq]; exact fun e => h e.2.2)

/-- Lists of types are equal if they agree place by place. -/
def decEqs : (ts us : List TypeRef) → Decidable (ts = us)
  | [], [] => isTrue rfl
  | [], _ :: _ => isFalse (by simp)
  | _ :: _, [] => isFalse (by simp)
  | t :: ts, u :: us =>
    match decEq t u, decEqs ts us with
    | isTrue h, isTrue hs => isTrue (by rw [h, hs])
    | isFalse h, _ => isFalse (by simp [h])
    | _, isFalse hs => isFalse (by simp [hs])

end

instance : DecidableEq TypeRef := decEq

/-- A type without type arguments. -/
def plain (space name : String) : TypeRef :=
  ⟨space, name, []⟩

/-- The type of a dotted name, whose last part is the name. -/
def ofDotted (full : String) : TypeRef :=
  match cutLast '.' full.toList with
  | some (space, name) => plain (String.ofList space) (String.ofList name)
  | none => plain "" full

/-- Whether the type has type arguments. -/
def isGeneric (t : TypeRef) : Bool :=
  !t.args.isEmpty

mutual

/-- The type as it is written in full. -/
def fullName : TypeRef → String
  | ⟨space, name, args⟩ =>
    (if space.isEmpty then "" else space ++ ".") ++ name ++
      (if args.isEmpty then "" else "<" ++ ", ".intercalate (fullNames args) ++ ">")

/-- Types as they are written in full. -/
def fullNames : List TypeRef → List String
  | [] => []
  | t :: ts => fullName t :: fullNames ts

end

example : (ofDotted "UI.Web.Repeater").space = "UI.Web" := by decide +kernel

end TypeRef

/-- A generic type that has not been given its type arguments. -/
structure GenericType where
  space : String
  name : String
  arity : Nat
deriving DecidableEq, Repr

/-- The type that a generic type makes of its arguments. -/
def GenericType.apply (g : GenericType) (args : List TypeRef) : TypeRef :=
  ⟨g.space, g.name, args⟩

end ServerMarkup
