/-
# Registered tags

`<%@ Register %>` makes a tag prefix stand for namespaces, or a tag with a prefix for one type.
Prefixes and names are compared without letter case.  Namespaces of a prefix are kept in order and
once each; a tag keeps the first type it gets, and another one is refused.
-/

import ServerMarkup.Options
import ServerMarkup.Types.TypeRef

namespace ServerMarkup

/-- The key of a tag with a prefix. -/
def tagKey (tagPrefix name : String) : String :=
  lowered tagPrefix ++ ":" ++ lowered name

/-- The prefix in the key of a tag: all before the first colon. -/
def prefixOfKey (key : String) : String :=
  String.ofList (key.toList.takeWhile (· != ':'))

/-- The namespaces of each prefix and the type of each tag, in order of their first registration. -/
structure Registry where
  namespaces : List (String × List String)
  controls : List (String × TypeRef)
deriving DecidableEq, Repr

namespace Registry

/-- Nothing registered. -/
def empty : Registry :=
  ⟨[], []⟩

/-- The namespaces of a prefix, in order. -/
def namespacesOf (r : Registry) (tagPrefix : String) : List String :=
  ((r.namespaces.find? (·.1 == lowered tagPrefix)).map Prod.snd).getD []

/-- The type of a tag. -/
def control? (r : Registry) (tagPrefix name : String) : Option TypeRef :=
  (r.controls.find? (·.1 == tagKey tagPrefix name)).map Prod.snd

/-- The namespaces with one more, unless it is there in some letter case. -/
def withNamespace (namespaces : List String) (space : String) : List String :=
  if nameIn namespaces space then namespaces else namespaces ++ [space]

/-- The registry with one more namespace for the prefix. -/
def addNamespace (r : Registry) (tagPrefix space : String) : Registry :=
  let key := lowered tagPrefix
  if r.namespaces.any (·.1 == key) then
    { r with namespaces := r.namespaces.map fun e =>
        if e.1 == key then (e.1, withNamespace e.2 space) else e }
  else { r with namespaces := r.namespaces ++ [(key, [space])] }

/-- The registry with a type for the tag, or the other type that the tag has already. -/
def addControl (r : Registry) (tagPrefix name : String) (type : TypeRef) :
    Except TypeRef Registry :=
  match r.control? tagPrefix name with
  | some existing => if existing = type then .ok r else .error existing
  | none => .ok { r with controls := r.controls ++ [(tagKey tagPrefix name, type)] }

/-- The registry with the prefix of the built-in controls. -/
def addDefaults (r : Registry) (o : Options) : Registry :=
  r.addNamespace o.webControlsPrefix o.webControlsNamespace

/-- The prefix of the built-in controls and nothing else. -/
def defaults (o : Options) : Registry :=
  empty.addDefaults o

/-- Whether anything is registered for the prefix. -/
def hasPrefix (r : Registry) (tagPrefix : String) : Bool :=
  r.namespaces.any (·.1 == lowered tagPrefix) ||
    r.controls.any (prefixOfKey ·.1 == lowered tagPrefix)

end Registry

end ServerMarkup
