/-
# The type of a control

A tag without a prefix becomes one of the controls for plain tags.  A tag with a prefix is looked
for among the registered tags, then, if an `ItemType` names a type, among the generic types of the
prefix's namespaces, then among their other types.  A tag that is found nowhere is reported and
becomes the generic control for plain tags.
-/

import ServerMarkup.Html
import ServerMarkup.Parse.Session

namespace ServerMarkup

/-- The questions for a generic type with the name and one type argument, up to the namespace that
has it. -/
def genericQuestions (r : TypeResolver) (name : String) (item : TypeRef) :
    List String → List Question
  | [] => []
  | space :: spaces =>
    .generic space name 1 :: match r.resolveGeneric space name 1 with
      | some generic => [.construct generic [item]]
      | none => genericQuestions r name item spaces

namespace Project

/-- The control for plain tags that have none of their own. -/
def genericHtmlControl (p : Project) : Parse TypeRef := do
  let o := p.options
  match ← p.resolve o.htmlControlsNamespace o.genericHtmlControl with
  | some type => return type
  | none => return .plain o.htmlControlsNamespace o.genericHtmlControl

/-- The control for a plain tag. -/
def htmlControl (p : Project) (tag : String) : Parse TypeRef := do
  match htmlControlFor tag with
  | some name =>
    match ← p.resolve p.options.htmlControlsNamespace name with
    | some type => return type
    | none => p.genericHtmlControl
  | none => p.genericHtmlControl

/-- The type that the first `ItemType` attribute names. -/
def itemType (p : Project) (attributes : List Attribute) : Parse (Option TypeRef) :=
  match attributes.find? (·.name.isNamed "itemtype") with
  | some a =>
    match a.value.text? with
    | some name => p.resolveName name
    | none => return none
  | none => return none

/-- The type of a control's tag, and the attributes that are left to bind: an `ItemType` that has
given the type its argument is not. -/
def controlType (p : Project) (tag : TagName) (attributes : List Attribute) :
    Parse (TypeRef × List Attribute) := do
  match tag.tagPrefix with
  | none => return (← p.htmlControl tag.localName, attributes)
  | some tagPrefix =>
    let registry := (← get).registry
    match registry.control? tagPrefix.value tag.localName with
    | some type => return (type, attributes)
    | none =>
      match registry.namespacesOf tagPrefix.value with
      | [] =>
        report .controlNotFound tag.span [tag.text]
        return (← p.genericHtmlControl, attributes)
      | spaces =>
        let generic := spaces.findSome? (p.resolver.resolveGeneric · tag.localName 1)
        let item ← p.itemType attributes
        p.askAll (item.toList.flatMap (genericQuestions p.resolver tag.localName · spaces))
        match item, generic with
        | some item, some generic =>
          return (p.resolver.construct generic [item],
            attributes.eraseP (·.name.isNamed "itemtype"))
        | _, _ =>
          match ← p.resolveFirst (spaces.map (·, tag.localName)) with
          | some type => return (type, attributes)
          | none =>
            report .typeNotFoundInNamespace tag.span [tag.localName, ", ".intercalate spaces]
            return (← p.genericHtmlControl, attributes)

end Project

end ServerMarkup
