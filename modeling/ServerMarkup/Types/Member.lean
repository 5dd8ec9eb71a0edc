/-
# Members of types

Markup fills the members of a type: an attribute sets a property or names the handler of an event,
and a nested element fills a property that holds a template or a collection.

| question | answered by |
| --- | --- |
| may an attribute set it? | `isWritableProperty` |
| may a nested element be its template? | `isTemplate` |
| may nested elements be its items? | `isCollection` |
-/

import ServerMarkup.Types.TypeRef

namespace ServerMarkup

/-- What a member is. -/
inductive MemberKind where
  | property
  | event
  | method
deriving DecidableEq, Repr

/-- What nested markup makes of a property. -/
inductive Capability where
  | none
  /-- The property holds a template, and takes a sub-tree. -/
  | template
  /-- The property holds a collection, and takes items. -/
  | collection
deriving DecidableEq, Repr

/-- What turns the text of an attribute into the value of a property. -/
inductive Converter where
  | named (name : String)
  | ofType (type : TypeRef)
deriving DecidableEq, Repr

/-- A member of a type; its own type is that of a property, of an event's handler, or of a method's
result. -/
structure Member where
  name : String
  kind : MemberKind
  type : TypeRef
  writable : Bool
  capability : Capability
  converter : Option Converter
deriving DecidableEq, Repr

namespace Member

/-- A property that can be set. -/
def property (name : String) (type : TypeRef) : Member :=
  ⟨name, .property, type, true, .none, none⟩

/-- An event. -/
def event (name : String) : Member :=
  ⟨name, .event, .plain "System" "EventHandler", false, .none, none⟩

/-- A method. -/
def method (name : String) : Member :=
  ⟨name, .method, .plain "System" "Void", false, .none, none⟩

/-- A property that holds a template. -/
def template (name : String) : Member :=
  { property name (.plain "WebForms.UI" "ITemplate") with capability := .template }

/-- A property that holds a collection of the type, and cannot be set. -/
def collection (name : String) (type : TypeRef) : Member :=
  { property name type with writable := false, capability := .collection }

/-- Whether an attribute may set the member. -/
def isWritableProperty (m : Member) : Bool :=
  m.kind == .property && m.writable

/-- Whether a nested element may be the member's template. -/
def isTemplate (m : Member) : Bool :=
  m.kind == .property && m.capability == .template

/-- Whether nested elements may be the member's items. -/
def isCollection (m : Member) : Bool :=
  m.kind == .property && m.capability == .collection

end Member

end ServerMarkup
