/-
# Acting on directives

The first Page, Control or Master directive of a parse says what the file inherits, in which
language its code is, and which properties of the page are set; later ones say nothing.  A Register
directive makes a prefix stand for a namespace, or a tag for the type of a user control.  That type
is looked for in the control's file without parsing it: `inheritedName?` finds the `Inherits` of
the first Page, Control or Master directive among the file's tokens.
-/

import ServerMarkup.Lexer.Tokens
import ServerMarkup.Parse.Session

namespace ServerMarkup

/-- The session with an attribute of the main directive set as a property of the page's base. -/
def Session.setPageProperty (r : TypeResolver) (base : TypeRef) (s : Session)
    (a : Excerpt × Excerpt) : Session :=
  if isIgnoredPageAttribute a.1.value then s
  else match (r.memberOf base a.1.value).filter Member.isWritableProperty with
    | some m =>
      s.withDocument fun d => { d with
        properties := d.properties ++ [.ofMember m (.ofExcerpt a.2) (a.1.span.join a.2.span)] }
    | none => s.report .propertyNotFound a.1.span [base.fullName, a.1.value]

/-- The questions for the member of the page's base that an attribute of the main directive sets. -/
def pagePropertyQuestions (base : TypeRef) (a : Excerpt × Excerpt) : List Question :=
  if isIgnoredPageAttribute a.1.value then [] else [.member base a.1.value]

/-- The attributes of a directive among its tokens, each with the value that follows it. -/
def valuedNames : List Token → List (Excerpt × Option Excerpt)
  | [] => []
  | t :: ts =>
    if t.kind = .attribute then
      (t.text, (ts.head?.filter (·.kind == .attributeValue)).map Token.text) :: valuedNames ts
    else valuedNames ts

/-- The kind of the directive with the attributes, if it has any: a first name without a value. -/
def kindOfNames (as : List (Excerpt × Option Excerpt)) : Option DirectiveKind :=
  as.head?.map fun (name, value) => if value.isSome then .page else .ofName name.value

/-- The value of the last `Inherits` of a directive. -/
def inheritedOfNames (as : List (Excerpt × Option Excerpt)) : Option Excerpt :=
  (as.filterMap fun (name, value) => if name.isNamed "inherits" then value else none).getLast?

/-- The `Inherits` of the first Page, Control or Master directive among the tokens. -/
def inheritedName? (ts : List Token) : Option Excerpt :=
  match _h : ts.dropWhile (·.kind != .startDirective) with
  | [] => none
  | _ :: rest =>
    let names := valuedNames (rest.takeWhile (·.kind != .endDirective))
    if (kindOfNames names).any DirectiveKind.isMain then inheritedOfNames names
    else inheritedName? (rest.dropWhile (·.kind != .endDirective))
termination_by ts.length
decreasing_by
  have h1 := congrArg List.length _h
  have h2 := (List.dropWhile_suffix (l := ts) (·.kind != .startDirective)).length_le
  have h3 := (List.dropWhile_suffix (l := rest) (·.kind != .endDirective)).length_le
  simp only [List.length_cons] at h1
  omega

namespace Project

/-- The type that the main directive of the kind says the page inherits, unless it is not found. -/
def inheritedType (p : Project) (kind : DirectiveKind) (as : DirectiveAttributes) :
    Parse (Option TypeRef) := do
  match as.find? "inherits" with
  | some name =>
    match ← p.resolveName name.value with
    | some type =>
      unless type.space.isEmpty do
        modify (·.withDocument fun d => { d with space := some type.space })
      return some type
    | none =>
      report .inheritNotFound name.span [name.value]
      return none
  | none =>
    return some (.ofDotted
      (if kind = .control then p.options.controlBaseType else p.options.pageBaseType))

/-- Sets the attributes of the main directive as properties of the page's base. -/
def setPageProperties (p : Project) (base : TypeRef) : DirectiveAttributes → Parse Unit
  | [] => return
  | a :: as => do
    p.askAll (pagePropertyQuestions base a)
    modify (·.setPageProperty p.resolver base a)
    p.setPageProperties base as

/-- Acts on the first Page, Control or Master directive. -/
def describe (p : Project) (kind : DirectiveKind) (as : DirectiveAttributes) : Parse Unit := do
  modify fun s => { s with described := true }
  if let some language := as.find? "language" then
    modify (·.withDocument fun d => { d with language := some language.value })
  let base ← p.inheritedType kind as
  if let some base := base then
    p.setPageProperties base as
  modify (·.withDocument fun d => { d with inherits := base })

/-- The text of a file that is there. -/
def readFile (p : Project) (path : String) : Parse String :=
  match p.files.read path with
  | .ok text => return text
  | .error reason => throw (.unreadable path reason)

/-- The base type of a user control, by the text of its file. -/
def declaredBase (p : Project) (path text : String) : Parse TypeRef := do
  let base ←
    match inheritedName? (tokenize path text) with
    | some name => p.resolveName name.value
    | none => pure none
  return base.getD (.ofDotted p.options.controlBaseType)

/-- The type of the user control at the path: by its file, or else as a compiled view. -/
def userControl (p : Project) (path : String) : Parse (Option TypeRef) := do
  if p.files.isFile path then
    return some (← p.declaredBase path (← p.readFile path))
  else
    p.ask (.view path)
    return p.resolver.resolveView path

/-- Acts on a Register directive in the file. -/
def register (p : Project) (file : String) (as : DirectiveAttributes) (span : Span) :
    Parse Unit := do
  let some tagPrefix := as.find? "tagprefix" | return
  let tagPrefix := trimmed tagPrefix.value
  match as.find? "namespace", as.find? "tagname", as.find? "src" with
  | some space, _, _ =>
    modify fun s =>
      { s with registry := s.registry.addNamespace tagPrefix (trimmed space.value) }
  | none, some name, some src =>
    let name := trimmed name.value
    let tag := tagPrefix ++ ":" ++ name
    match ← p.userControl (resolveReference file src.value) with
    | none => report .controlNotFound src.span [tag]
    | some type =>
      match (← get).registry.addControl tagPrefix name type with
      | .ok registry => modify fun s => { s with registry }
      | .error existing =>
        report .duplicateControlRegister span [tag, existing.fullName, type.fullName]
  | none, _, _ => return

/-- Acts on a directive in the file. -/
def direct (p : Project) (file : String) (kind : DirectiveKind) (as : DirectiveAttributes)
    (span : Span) : Parse Unit := do
  if kind.isMain then
    unless (← get).described do p.describe kind as
  else if kind = .register then p.register file as span
  else if kind = .imports then
    if let some space := as.find? "namespace" then
      modify (·.withDocument (·.addImport (trimmed space.value)))

end Project

end ServerMarkup
