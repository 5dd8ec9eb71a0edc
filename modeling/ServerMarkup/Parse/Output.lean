/-
# What a parse gives

`Project.parse` parses the text of a file, from the registered tags of the project's options or from
others (`parseWith`).  It always gives a document: a failure leaves what the directives have said
and the diagnostics so far, drops the tree and what has come of it, and is reported as one more
diagnostic at the start of the file.
-/

import ServerMarkup.Parse.File

namespace ServerMarkup

/-- The document of a file, the problems in it, and the tags registered at its end. -/
structure ParseOutput where
  document : Document
  diagnostics : List Diagnostic
  registry : Registry

namespace Session

/-- What a session that has come to its end gives, with the nodes of the file. -/
def completed (s : Session) (children : List Node) : ParseOutput :=
  ⟨{ s.document with children }, s.diagnostics, s.registry⟩

/-- What a session that has failed gives. -/
def failed (s : Session) (failure : Failure) : ParseOutput :=
  let s := s.report .parseFailure (.empty s.document.span.file .first) [failure.message]
  ⟨s.document.withoutTree, s.diagnostics, s.registry⟩

end Session

namespace Project

/-- The run of a parse from the first session: how it ends, and the last session. -/
def run (p : Project) (path text : String) (registry : Registry) :
    Except Failure Body × Session :=
  let file := normalPath path
  (parseFile p (includeDepth p file text) [] file text "ctrl" .none).run.run
    (Session.start p.options file text (registry.addDefaults p.options))

/-- Parses a file with tags that are registered already. -/
def parseWith (p : Project) (path text : String) (registry : Registry) : ParseOutput :=
  match p.run path text registry with
  | (.ok body, s) => s.completed body.children
  | (.error failure, s) => s.failed failure

/-- Parses a file with the tags of the project's options. -/
def parse (p : Project) (path text : String) : ParseOutput :=
  p.parseWith path text (.defaults p.options)

/-- Parses files one by one, each as if it were alone. -/
def parseBatch (p : Project) (sources : List (String × String)) : List ParseOutput :=
  sources.map fun (path, text) => p.parse path text

end Project

end ServerMarkup
