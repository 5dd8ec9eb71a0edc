/-
# The document of a file

Besides the tree, a parse gives what the directives say of the file, and lists of what else has to
be known to make a type of it: its imports, the files it includes, the fields for its controls, the
classes for its templates and the bodies of its server scripts.  The lists keep the order in which
things come up.
-/

import ServerMarkup.Tree.Node

namespace ServerMarkup

/-- An included file and the digest of its text. -/
structure Include where
  path : String
  hash : String
deriving DecidableEq, Repr

/-- The page field for a control. -/
structure DeclaredField where
  name : String
  type : TypeRef
  span : Span
deriving DecidableEq, Repr

/-- The class for a template. -/
structure TemplateClass where
  className : String
  property : String
  span : Span
deriving DecidableEq, Repr

/-- The body of a server script: text and code blocks. -/
structure ScriptBlock where
  span : Span
  children : List Leaf
deriving DecidableEq, Repr

/-- What a parse gives. -/
structure Document where
  span : Span
  language : Option String
  /-- The base type; none if it is not found. -/
  inherits : Option TypeRef
  space : Option String
  imports : List String
  includes : List Include
  fields : List DeclaredField
  templates : List TemplateClass
  scripts : List ScriptBlock
  /-- Properties of the page set by its directive. -/
  properties : List PropertyBinding
  children : List Node

namespace Document

/-- The document of a span of which nothing is known. -/
def empty (span : Span) : Document :=
  ⟨span, none, none, none, [], [], [], [], [], [], []⟩

/-- The document with one more import, unless it is there. -/
def addImport (d : Document) (space : String) : Document :=
  if d.imports.contains space then d else { d with imports := d.imports ++ [space] }

/-- Whether a path is recorded as included. -/
def includesPath (d : Document) (path : String) : Bool :=
  d.includes.any (·.path == path)

/-- The document with one more included file, unless its path is there. -/
def addInclude (d : Document) (path hash : String) : Document :=
  if d.includesPath path then d else { d with includes := d.includes ++ [⟨path, hash⟩] }

/-- The field with the name, in any letter case. -/
def field? (d : Document) (name : String) : Option DeclaredField :=
  d.fields.find? (sameName ·.name name)

/-- The document without what comes from its tree, with what directives have said. -/
def withoutTree (d : Document) : Document :=
  { d with children := [], fields := [], templates := [], scripts := [], includes := [] }

theorem nodup_imports_addImport {d : Document} (space : String) (h : d.imports.Nodup) :
    (d.addImport space).imports.Nodup := by
  unfold addImport
  split
  · exact h
  · next hs =>
    simp only [List.contains_eq_mem, decide_eq_true_eq] at hs
    rw [List.nodup_append]
    refine ⟨h, by simp, fun a ha b hb he => hs ?_⟩
    rw [List.mem_singleton] at hb
    exact hb ▸ he ▸ ha

end Document

end ServerMarkup
