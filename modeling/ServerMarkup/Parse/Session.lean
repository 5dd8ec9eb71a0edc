/-
# The session of a parse

A file and the files it includes are parsed in one session: it gathers the document, the diagnostics
and the registered tags.  Problems in the markup are reported and the parse goes on; only a file
that cannot be read, or a resolver that breaks down, ends it (`Failure`).  A `Parse` keeps the
session also when it fails, so what has been gathered until then is known.
-/

import ServerMarkup.Diagnostic
import ServerMarkup.Files
import ServerMarkup.Registry
import ServerMarkup.Tree.Document
import ServerMarkup.Types.Resolver

namespace ServerMarkup

/-- What all parses of a project have in common. -/
structure Project where
  resolver : TypeResolver
  files : Files
  options : Options

/-- Why a parse has ended early. -/
inductive Failure where
  | unreadable (path : String) (reason : FileError)
  | resolver (message : String)
deriving DecidableEq, Repr

/-- What a failure says. -/
def Failure.message : Failure → String
  | .unreadable path reason => "failed to read " ++ path ++ ": " ++ reason.message
  | .resolver message => "internal error: " ++ message

/-- What a file and the files it includes have come to so far. -/
structure Session where
  document : Document
  diagnostics : List Diagnostic
  registry : Registry
  /-- Whether a Page, Control or Master directive has been met. -/
  described : Bool

namespace Session

/-- The session before the first token of a file's text. -/
def start (o : Options) (file text : String) (registry : Registry) : Session where
  document := { o.defaultImports.foldl Document.addImport
    (.empty ⟨file, .first, Position.first.across text.toList⟩) with space := o.defaultNamespace }
  diagnostics := []
  registry := registry
  described := false

/-- The session with one more diagnostic. -/
def report (s : Session) (code : DiagnosticCode) (span : Span) (args : List String) : Session :=
  { s with diagnostics := s.diagnostics ++ [⟨code, span, args⟩] }

/-- The session with its document changed. -/
def withDocument (s : Session) (f : Document → Document) : Session :=
  { s with document := f s.document }

end Session

/-- A step of a parse: it changes the session and may fail. -/
abbrev Parse := ExceptT Failure (StateM Session)

/-- Reports a problem. -/
def report (code : DiagnosticCode) (span : Span) (args : List String) : Parse Unit :=
  modify (·.report code span args)

namespace Project

/-- The type with the namespace and the name. -/
def resolve (p : Project) (space name : String) : Parse (Option TypeRef) :=
  match p.resolver.resolve space name with
  | .ok type => return type
  | .error message => throw (.resolver message)

/-- Asks whether a question can be answered. -/
def ask (p : Project) (q : Question) : Parse Unit :=
  match p.resolver.breakdown q with
  | none => return
  | some message => throw (.resolver message)

/-- Asks questions in order, up to the first that cannot be answered. -/
def askAll (p : Project) : List Question → Parse Unit
  | [] => return
  | q :: qs => do
    p.ask q
    p.askAll qs

/-- The first type that is found under one of the namespaces and names. -/
def resolveFirst (p : Project) : List (String × String) → Parse (Option TypeRef)
  | [] => return none
  | (space, name) :: rest => do
    match ← p.resolve space name with
    | some type => return some type
    | none => p.resolveFirst rest

/-- The names that a name in a page may stand for: itself, and in each imported namespace. -/
def candidates (imports : List String) (name : String) : List (String × String) :=
  let name := trimmed name
  if name.isEmpty then []
  else (name :: imports.map (· ++ "." ++ name)).map fun full =>
    let t := TypeRef.ofDotted full
    (t.space, t.name)

/-- The type that a name in a page stands for. -/
def resolveName (p : Project) (name : String) : Parse (Option TypeRef) := do
  p.resolveFirst (candidates (← get).document.imports name)

end Project

end ServerMarkup
