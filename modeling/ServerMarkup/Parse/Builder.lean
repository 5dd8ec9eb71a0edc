/-
# Building the tree of a file

The builder keeps the open tags of a file in frames, innermost first, over the body of the file
itself.  A start tag opens a frame if it can have content, a closing tag closes the innermost one
whatever its name, and the end of the file closes all that are left.  When a frame is closed its
node joins the body around it; a template joins the templates of the node around it, or, at the top
of an included file, those of the file.

While a server script is open, text and code go to the script and everything else is passed over,
up to the first closing tag.
-/

import ServerMarkup.Html
import ServerMarkup.Parse.Binding
import ServerMarkup.Parse.ControlType
import ServerMarkup.Parse.Directives
import ServerMarkup.Parse.Item

namespace ServerMarkup

/-- What stands in an open tag, or in the file: the variable that the variables of its nodes begin
with, the nodes and templates so far, and the number of the next variable. -/
structure Body where
  var : String
  children : List Node
  templates : List Template
  next : Nat

namespace Body

/-- The body before anything stands in it, but for the nodes that attributes have made. -/
def start (var : String) (children : List Node) : Body :=
  ⟨var, children, [], 0⟩

/-- The variable of the next node. -/
def nextVar (b : Body) : String :=
  b.var ++ "_" ++ toString b.next

/-- The body with nodes at its end. -/
def append (b : Body) (ns : List Node) : Body :=
  { b with children := b.children ++ ns }

end Body

/-- The node or template of an open tag. -/
inductive Opened where
  | element (head : ElementHead)
  | control (head : ControlHead)
  | collection (head : CollectionHead)
  | template (head : TemplateHead)

namespace Opened

/-- The variable of the node or template. -/
def var : Opened → String
  | element h => h.var
  | control h => h.var
  | collection h => h.var
  | template h => h.var

/-- Whether the tag is a template's. -/
def isTemplate : Opened → Bool
  | template _ => true
  | _ => false

/-- The same, ending at the position. -/
def endingAt (stop : Position) : Opened → Opened
  | element h => element { h with span := { h.span with stop } }
  | control h => control { h with span := { h.span with stop } }
  | collection h => collection { h with span := { h.span with stop } }
  | template h => template { h with span := { h.span with stop } }

end Opened

/-- An open tag and what stands in it. -/
structure Frame where
  opened : Opened
  tag : TagName
  body : Body

/-- What an included file knows of the place where it is included: the type of the node around it,
whether that is a collection, and whether it stands in a template. -/
structure Outer where
  type : Option TypeRef
  collection : Bool
  template : Bool
deriving DecidableEq, Repr

namespace Outer

/-- The place of a file that is not included. -/
def none : Outer :=
  ⟨Option.none, false, false⟩

end Outer

/-- A server script that is open: the variable that those of its parts begin with, where its tag
stands, and its parts so far. -/
structure OpenScript where
  var : String
  span : Span
  children : List Leaf
deriving DecidableEq, Repr

/-- The tree of a file as far as it has been built; the frames are innermost first. -/
structure Builder where
  file : String
  outer : Outer
  root : Body
  stack : List Frame
  script : Option OpenScript

namespace Builder

/-- The builder before the first item of a file. -/
def start (file var : String) (outer : Outer) : Builder :=
  ⟨file, outer, .start var [], [], none⟩

/-- The body that nodes join. -/
def body (b : Builder) : Body :=
  (b.stack.head?.map Frame.body).getD b.root

/-- The builder with the body that nodes join changed. -/
def withBody (b : Builder) (f : Body → Body) : Builder :=
  match b.stack with
  | [] => { b with root := f b.root }
  | top :: rest => { b with stack := { top with body := f top.body } :: rest }

/-- The next variable, and the builder after it has been given away. -/
def newVar (b : Builder) : String × Builder :=
  (b.body.nextVar, b.withBody fun body => { body with next := body.next + 1 })

/-- The builder with nodes at the end of the current body. -/
def append (b : Builder) (ns : List Node) : Builder :=
  b.withBody (·.append ns)

/-- The builder with a new leaf at the end of the current body. -/
def addLeaf (b : Builder) (span : Span) (content : LeafContent) : Builder :=
  let (var, b) := b.newVar
  b.append [.leaf ⟨span, var, content⟩]

/-- The type of the node around the current place, and whether it is a collection. -/
def enclosing (b : Builder) : Option TypeRef × Bool :=
  match b.stack with
  | [] => (b.outer.type, b.outer.collection)
  | top :: _ =>
    match top.opened with
    | .control h => (some h.type, false)
    | .collection h => (some h.type, true)
    | .element _ | .template _ => (none, false)

/-- Whether the current place is in a template. -/
def inTemplate (b : Builder) : Bool :=
  b.outer.template || b.stack.any (·.opened.isTemplate)

/-- The builder with a template at the current place: nodes that have no templates take its nodes as
their own. -/
def addTemplate (b : Builder) (t : Template) : Builder :=
  match b.stack.head?.map Frame.opened with
  | some (.element _) | some (.template _) => b.append t.children
  | _ => b.withBody fun body => { body with templates := body.templates ++ [t] }

/-- Adds what a closed frame has come to at the current place. -/
def attach (b : Builder) (f : Frame) : Parse Builder :=
  match f.opened with
  | .element h => return b.append [.element h f.body.children]
  | .control h => return b.append [.control h f.body.templates f.body.children]
  | .collection h => return b.append [.collection h f.body.templates f.body.children]
  | .template h => do
    modify (·.withDocument fun d =>
      { d with templates := d.templates ++ [⟨h.className, h.property, h.span⟩] })
    return b.addTemplate (.mk h f.body.children)

/-- Opens a frame for a tag that can have content, and adds what the tag alone is otherwise. -/
def enter (b : Builder) (hasContent : Bool) (f : Frame) : Parse Builder :=
  if hasContent then return { b with stack := f :: b.stack } else b.attach f

/-- Closes the innermost frame at the position. -/
def closeFrame (b : Builder) (stop : Position) : Parse Builder :=
  match b.stack with
  | [] => return b
  | top :: rest => { b with stack := rest }.attach { top with opened := top.opened.endingAt stop }

/-- Closes all frames at the position. -/
def closeFrames (stop : Position) : List Frame → Builder → Parse Builder
  | [], b => return b
  | _ :: rest, b => do closeFrames stop rest (← b.closeFrame stop)

/-! ### Tags -/

/-- Whether a tag can have content. -/
def hasContent (t : StartTag) : Bool :=
  t.ending == .opened && (t.tag.tagPrefix.isSome || !isVoidElement t.tag.localName)

/-- Binds an attribute to a typed node, when the questions that tell its effect are answered. -/
def bindOne (p : Project) (owner : Owner) (bound : Bound) (a : Attribute) : Parse Bound := do
  p.askAll (Effect.questions p.resolver (← get).document owner bound.children a)
  modifyGet fun s => let (s, bound) := bindAttribute p.resolver owner s bound a; (bound, s)

/-- Binds attributes to a typed node. -/
def bind (p : Project) (owner : Owner) (as : List Attribute) : Parse Bound :=
  as.foldlM (bindOne p owner) .start

/-- Opens a template of the node around it. -/
def openTemplate (b : Builder) (t : StartTag) (property : String) : Parse Builder :=
  let (var, b) := b.newVar
  b.enter (hasContent t)
    ⟨.template ⟨t.span, var, property, "Template_" ++ var⟩, t.tag, .start var []⟩

/-- Opens a collection of the node around it. -/
def openCollection (p : Project) (b : Builder) (t : StartTag) (m : Member) : Parse Builder := do
  let (var, b) := b.newVar
  let bound ← bind p ⟨m.type, var, false, b.inTemplate⟩ t.attributes
  b.enter (hasContent t)
    ⟨.collection ⟨t.span, var, m.name, m.type, bound.bindings⟩, t.tag, .start var bound.children⟩

/-- Opens a control. -/
def openControl (p : Project) (b : Builder) (t : StartTag) : Parse Builder := do
  let (type, attributes) ← p.controlType t.tag t.attributes
  let (var, b) := b.newVar
  let bound ← bind p ⟨type, var, true, b.inTemplate⟩ attributes
  b.enter (hasContent t)
    ⟨.control ⟨t.span, var, t.tag, type, bound.field, bound.id, bound.bindings⟩, t.tag,
      .start var bound.children⟩

/-- Opens an element. -/
def openElement (b : Builder) (t : StartTag) : Parse Builder :=
  let (var, b) := b.newVar
  b.enter (hasContent t)
    ⟨.element ⟨t.span, var, t.tag, t.attributes, t.ending == .selfClosed⟩, t.tag, .start var []⟩

/-- Adds a finished server script to the document. -/
def addScript (script : OpenScript) (stop : Position) : Parse Unit :=
  modify (·.withDocument fun d => { d with
    scripts := d.scripts ++ [⟨{ script.span with stop }, script.children⟩] })

/-- Opens a server script; one without content is finished at once. -/
def openScript (b : Builder) (t : StartTag) : Parse Builder := do
  let (var, b) := b.newVar
  let script : OpenScript := ⟨var, t.span, []⟩
  if t.ending == .opened then return { b with script := some script }
  else
    addScript script t.span.stop
    return b

/-- Opens what a start tag stands for: a template or a collection of the node around it, a server
script, a control, or an element. -/
def openAs (p : Project) (b : Builder) (t : StartTag) : Parse Builder :=
  let (around, inCollection) := b.enclosing
  let plain := t.tag.tagPrefix.isNone
  let runat := t.hasAttribute "runat"
  let member := if plain then around.bind (p.resolver.memberOf · t.tag.localName) else none
  match member.filter Member.isTemplate, member.filter Member.isCollection with
  | some m, _ => b.openTemplate t m.name
  | none, some m => b.openCollection p t m
  | none, none =>
    if plain && runat && sameName t.tag.localName "script" then b.openScript t
    else if runat || (!plain && inCollection) then b.openControl p t
    else b.openElement t

/-- The question for the member of the node around a tag that the tag may name. -/
def tagQuestions (b : Builder) (t : StartTag) : List Question :=
  if t.tag.tagPrefix.isNone then b.enclosing.1.toList.map (.member · t.tag.localName) else []

/-- Opens what a start tag stands for, when it is known whether it names a member. -/
def openTag (p : Project) (b : Builder) (t : StartTag) : Parse Builder := do
  p.askAll (b.tagQuestions t)
  b.openAs p t

/-- Closes the innermost frame, and reports a closing tag that does not fit. -/
def closeTag (b : Builder) (tag : TagName) (stop : Position) : Parse Builder := do
  match b.stack with
  | [] => return b
  | top :: _ =>
    unless top.tag.agrees tag do
      report .unexpectedClosingTag tag.span [tag.text, top.tag.text]
    b.closeFrame stop

/-! ### Scripts -/

/-- What a token is in a server script. -/
def scriptContent? (t : Token) : Option (Span × LeafContent) :=
  match t.kind with
  | .text => some (t.text.span, .text t.text)
  | .code kind => some (t.span, .code kind t.text)
  | _ => none

/-- The script with one more token. -/
def addToScript (script : OpenScript) (t : Token) : OpenScript :=
  match scriptContent? t with
  | some (span, content) =>
    let var := script.var ++ "_" ++ toString script.children.length
    { script with children := script.children ++ [⟨span, var, content⟩] }
  | none => script

/-- The builder after an item in a server script. -/
def scriptItem (b : Builder) (script : OpenScript) (item : Item) (stop : Position) :
    Parse Builder := do
  match item.form with
  | .endTag _ =>
    addScript script stop
    return { b with script := none }
  | _ => return { b with script := some (item.tokens.foldl addToScript script) }

/-- The body of the file, when its last token ends at the position. -/
def finish (b : Builder) (stop : Position) : Parse Body := do
  if let some script := b.script then addScript script stop
  return (← closeFrames stop b.stack b).root

end Builder

end ServerMarkup
