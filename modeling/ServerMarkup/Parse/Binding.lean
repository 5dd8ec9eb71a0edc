/-
# Binding attributes to members

Each attribute of a typed node has one effect on it (`Effect.of`):

| attribute | effect |
| --- | --- |
| `runat` | none |
| `a-b-…-z`, where `a`, `b`, … are collections, one in the other | binds `z` along them |
| `OnClick`, where `Click` is an event and the page can have the handler | names the handler |
| `ID` of a control that can be set | declares the control |
| the name of a property that can be set | sets it |
| any other, on a type that takes any | is kept as it is |
| any other | is reported |

The collections of hyphenated attributes become nodes below the typed node, in the order in which
the attributes name them.  A hyphenated name is looked up twice.  First its parts are looked up as
they are declared, each in the type of the one before (`collectionPath?`): only if they lead through
collections is the last part bound along them.  Then the nodes are walked (`bindAlong`): each is
asked by its own type for the member with the next name, whatever kind of member it is, and the node
for that member is found or made.  A node that has no such member ends the walk; the attribute is
lost there, and nothing is reported.
-/

import ServerMarkup.Parse.Session

namespace ServerMarkup

/-- A typed node as its attributes see it. -/
structure Owner where
  type : TypeRef
  var : String
  /-- Whether an ID declares it; collections have none. -/
  declares : Bool
  /-- Whether it stands in a template, where an ID makes no page field. -/
  inTemplate : Bool
deriving DecidableEq, Repr

/-- What attributes have made of a typed node. -/
structure Bound where
  bindings : Bindings
  children : List Node
  id : Option Excerpt
  field : Option String

namespace Bound

/-- A typed node before its first attribute. -/
def start : Bound :=
  ⟨.empty, [], none, none⟩

end Bound

/-- What becomes of an attribute that is no event handler and no ID. -/
inductive Placement where
  | property (property : PropertyBinding)
  | raw (kept : Attribute)
  | unknown
deriving DecidableEq, Repr

namespace Placement

/-- What becomes of an attribute on a node of the type. -/
def of (r : TypeResolver) (type : TypeRef) (a : Attribute) : Placement :=
  match (r.memberOf type a.name.value).filter Member.isWritableProperty with
  | some m => .property (.ofMember m a.value a.span)
  | none => if r.isAssignableTo type attributeAccessor then .raw a else .unknown

/-- The bindings with the attribute in its place. -/
def addTo (b : Bindings) : Placement → Bindings
  | .property p => { b with properties := b.properties ++ [p] }
  | .raw a => { b with attributes := b.attributes ++ [a] }
  | .unknown => b

end Placement

/-- The collection members that the names lead through, each in the type of the one before. -/
def collectionPath? (r : TypeResolver) : TypeRef → List String → Option (List Member)
  | _, [] => some []
  | type, name :: names =>
    match (r.memberOf type name).filter Member.isCollection with
    | some m => (collectionPath? r m.type names).map (m :: ·)
    | none => none

/-- The parts of an attribute name between its hyphens. -/
def hyphenated (name : Excerpt) : List String :=
  (pieces '-' name.chars).map String.ofList

/-- The attribute under the last part of its hyphenated name. -/
def lastPart (a : Attribute) : Attribute :=
  let size := ((hyphenated a.name).getLast?.map String.length).getD 0
  { a with name := a.name.slice (a.name.length - size) a.name.length }

/-- The event that a name is the handler of: what follows `on`, unless nothing does. -/
def eventOf? (name : String) : Option String :=
  match name.toList with
  | o :: n :: e :: rest =>
    if namedAt ['o', 'n'] [o, n] then some (String.ofList (e :: rest)) else none
  | _ => none

/-- Whether the page can have a method with the name: nothing is known of its base type, or it has
a server script, or the base type has the method. -/
def canHandle (r : TypeResolver) (d : Document) (handler : String) : Bool :=
  match d.inherits with
  | none => true
  | some page =>
    !d.scripts.isEmpty || ((r.memberOf page (trimmed handler)).any fun m => m.kind == .method)

/-- The event and its handler that an attribute binds. -/
def eventBinding? (r : TypeResolver) (d : Document) (type : TypeRef) (a : Attribute) :
    Option EventBinding := do
  let event ← eventOf? a.name.value
  let m ← (r.memberOf type event).filter (·.kind == .event)
  let handler ← a.value.single?
  guard (canHandle r d handler.value)
  return ⟨m.name, handler.trim, a.span⟩

/-- The ID that an attribute declares. -/
def declaredId? (r : TypeResolver) (owner : Owner) (a : Attribute) : Option Excerpt := do
  guard (a.name.isNamed "id" && owner.declares)
  guard ((r.memberOf owner.type "ID").any Member.isWritableProperty)
  let id := (← a.value.single?).trim
  guard (!id.value.isEmpty)
  return id

/-- What an attribute does to the node that it stands on. -/
inductive Effect where
  | nothing
  | event (event : EventBinding)
  | declare (id : Excerpt)
  /-- Goes along the names of collections, or to the node itself. -/
  | place (names : List String) (leaf : Attribute)
deriving DecidableEq, Repr

namespace Effect

/-- The path of collections that a hyphenated name leads through. -/
def path? (r : TypeResolver) (type : TypeRef) (a : Attribute) : Option (List Member) :=
  let parts := hyphenated a.name
  if parts.length < 2 then none else collectionPath? r type parts.dropLast

/-- The effect of an attribute on its node. -/
def of (r : TypeResolver) (d : Document) (owner : Owner) (a : Attribute) : Effect :=
  if a.name.isNamed "runat" then .nothing
  else match path? r owner.type a with
    | some _ => .place (hyphenated a.name).dropLast (lastPart a)
    | none =>
      match eventBinding? r d owner.type a with
      | some handled => .event handled
      | none =>
        match declaredId? r owner a with
        | some id => .declare id
        | none => .place [] a

end Effect

/-! ### Walks -/

/-- The first collection for the property among the nodes, and the nodes in it. -/
def collection? (property : String) : List Node → Option (CollectionHead × List Node)
  | [] => none
  | .collection h _ ns :: rest =>
    if h.property = property then some (h, ns) else collection? property rest
  | _ :: rest => collection? property rest

/-- The types of the nodes to which the names lead, from a node of the type on, each asked for the
member with the next name.  There is one more than names, unless a node on the way has no such
member. -/
def typesAlong (r : TypeResolver) : List String → TypeRef → List Node → List TypeRef
  | [], type, _ => [type]
  | name :: names, type, ns =>
    type :: match r.memberOf type name with
      | none => []
      | some m =>
        match collection? m.name ns with
        | some (h, below) => typesAlong r names h.type below
        | none => typesAlong r names m.type []

/-- The type of the node at the end of the names, if they lead to one. -/
def endAlong? (r : TypeResolver) (names : List String) (type : TypeRef) (ns : List Node) :
    Option TypeRef :=
  (typesAlong r names type ns)[names.length]?

/-! ### Questions -/

/-- The questions for the collection members that the names lead through, up to one that is none. -/
def pathQuestions (r : TypeResolver) : TypeRef → List String → List Question
  | _, [] => []
  | type, name :: names =>
    .member type name :: match (r.memberOf type name).filter Member.isCollection with
      | some m => pathQuestions r m.type names
      | none => []

/-- The questions for an event that an attribute may name the handler of, and for the handler. -/
def eventQuestions (r : TypeResolver) (d : Document) (type : TypeRef) (a : Attribute) :
    List Question :=
  match eventOf? a.name.value with
  | none => []
  | some event =>
    .member type event ::
      match (r.memberOf type event).filter (·.kind == .event), a.value.single?, d.inherits with
      | some _, some handler, some page =>
        if d.scripts.isEmpty then [.member page (trimmed handler.value)] else []
      | _, _, _ => []

/-- The question for the `ID` of a node, if the attribute has that name. -/
def idQuestions (type : TypeRef) (a : Attribute) : List Question :=
  if a.name.isNamed "id" then [.member type "ID"] else []

/-- The questions for the place of an attribute on a node of the type. -/
def Placement.questions (r : TypeResolver) (type : TypeRef) (a : Attribute) : List Question :=
  .member type a.name.value ::
    match (r.memberOf type a.name.value).filter Member.isWritableProperty with
    | some _ => []
    | none => [.assignable type attributeAccessor]

/-- The questions for the members with the names, each put to the node to which those before it
lead, and for the place of the attribute at their end. -/
def walkQuestions (r : TypeResolver) (names : List String) (type : TypeRef) (ns : List Node)
    (leaf : Attribute) : List Question :=
  List.zipWith .member (typesAlong r names type ns) names ++
    ((endAlong? r names type ns).map (Placement.questions r · leaf)).getD []

/-- The questions that an attribute of a node asks, in their order; `ns` are the nodes that
attributes before it have made. -/
def Effect.questions (r : TypeResolver) (d : Document) (owner : Owner) (ns : List Node)
    (a : Attribute) : List Question :=
  pathQuestions r owner.type (hyphenated a.name).dropLast ++
    match Effect.of r d owner a with
    | .nothing => []
    | .event _ => eventQuestions r d owner.type a
    | .declare _ => eventQuestions r d owner.type a ++ idQuestions owner.type a
    | .place [] leaf =>
      eventQuestions r d owner.type a ++ idQuestions owner.type a ++
        Placement.questions r owner.type leaf
    | .place names leaf => walkQuestions r names owner.type ns leaf

/-! ### Attributes -/

/-- The nodes with `change` done to the first collection for a property, or to the fresh one at
their end. -/
def changeCollection (change : CollectionHead → List Node → CollectionHead × List Node)
    (fresh : CollectionHead) : List Node → List Node
  | [] => let (h, ns) := change fresh []; [.collection h [] ns]
  | .collection h ts ns :: rest =>
    if h.property = fresh.property then
      let (h, ns) := change h ns
      .collection h ts ns :: rest
    else .collection h ts ns :: changeCollection change fresh rest
  | n :: rest => n :: changeCollection change fresh rest

/-- The bindings of a node of the type and the nodes below it with an attribute bound along the
names: each node on the way is asked for the member with the next name, and the collection for it is
gone on with, or made, with the span.  `change` is done to the bindings of the node at the end,
according to its type. -/
def bindAlong (r : TypeResolver) (change : TypeRef → Bindings → Bindings) (span : Span) :
    List String → TypeRef → String → Bindings → List Node → Bindings × List Node
  | [], type, _, b, ns => (change type b, ns)
  | name :: names, type, var, b, ns =>
    match r.memberOf type name with
    | none => (b, ns)
    | some m =>
      let fresh : CollectionHead := ⟨span, var ++ "_" ++ m.name, m.name, m.type, .empty⟩
      (b, changeCollection
        (fun h ns =>
          let (b, ns) := bindAlong r change span names h.type h.var h.bindings ns
          ({ h with bindings := b }, ns))
        fresh ns)

namespace Session

/-- The session after an ID has been declared outside templates, and the page field it makes: none,
if another control has the ID. -/
def declareField (s : Session) (type : TypeRef) (id : Excerpt) : Session × Option String :=
  if (s.document.field? id.value).isSome then
    (s.report .duplicateControlId id.span [id.value], none)
  else
    (s.withDocument fun d => { d with fields := d.fields ++ [⟨id.value, type, id.span⟩] },
      some id.value)

/-- The session after an attribute for which the type has no place. -/
def reportUnknown (s : Session) (type : TypeRef) (name : Excerpt) : Session :=
  s.report .propertyNotFound name.span [type.fullName, name.value]

end Session

/-- The session and the node after one attribute. -/
def bindAttribute (r : TypeResolver) (owner : Owner) (s : Session) (b : Bound) (a : Attribute) :
    Session × Bound :=
  match Effect.of r s.document owner a with
  | .nothing => (s, b)
  | .event event =>
    (s, { b with bindings := { b.bindings with events := b.bindings.events ++ [event] } })
  | .declare id =>
    let (s, field) := if owner.inTemplate then (s, none) else s.declareField owner.type id
    (s, { b with id := some id, field })
  | .place names leaf =>
    let (bindings, children) :=
      bindAlong r (fun type => (Placement.of r type leaf).addTo) a.span names owner.type owner.var
        b.bindings b.children
    -- An attribute that is lost on its way is not reported.
    let s := match (endAlong? r names owner.type b.children).filter
        (Placement.of r · leaf == .unknown) with
      | some type => s.reportUnknown type leaf.name
      | none => s
    (s, { b with bindings, children })

/-- The session and the node after its attributes. -/
def bindAttributes (r : TypeResolver) (owner : Owner) (s : Session) (as : List Attribute) :
    Session × Bound :=
  as.foldl (fun (s, b) a => bindAttribute r owner s b a) (s, .start)

end ServerMarkup
