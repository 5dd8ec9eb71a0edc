/-
# Diagnostics

A problem in a page is reported and does not end the parse.  A diagnostic has a code, the span it
is about, and arguments; the code decides the severity and the text, in which the arguments are
filled in one after the other.

| code | severity | about |
| --- | --- | --- |
| `WF0001` | error | the parse of the file failed |
| `WF0002` | error | an attribute sets nothing |
| `WF0003` | error | a tag is registered twice, for different types |
| `WF0004` | error | a tag has no control |
| `WF0005` | error | the inherited type is not found |
| `WF0006` | error | a tag's type is not in the namespaces of its prefix |
| `WF0007` | warning | a closing tag does not fit |
| `WF0008` | error | an included file is not found |
| `WF0009` | error | a file includes itself |
| `WF0010` | error | an ID is declared twice |
-/

import ServerMarkup.Span
import ServerMarkup.Text.Replacement

namespace ServerMarkup

/-- How bad a problem is. -/
inductive Severity where
  | warning
  | error
deriving DecidableEq, Repr

/-- How a severity is written. -/
def Severity.text : Severity → String
  | .warning => "warning"
  | .error => "error"

/-- The kinds of problems. -/
inductive DiagnosticCode where
  | parseFailure
  | propertyNotFound
  | duplicateControlRegister
  | controlNotFound
  | inheritNotFound
  | typeNotFoundInNamespace
  | unexpectedClosingTag
  | includeNotFound
  | recursiveInclude
  | duplicateControlId
deriving DecidableEq, Repr

namespace DiagnosticCode

/-- The stable name of a code. -/
def id : DiagnosticCode → String
  | .parseFailure => "WF0001"
  | .propertyNotFound => "WF0002"
  | .duplicateControlRegister => "WF0003"
  | .controlNotFound => "WF0004"
  | .inheritNotFound => "WF0005"
  | .typeNotFoundInNamespace => "WF0006"
  | .unexpectedClosingTag => "WF0007"
  | .includeNotFound => "WF0008"
  | .recursiveInclude => "WF0009"
  | .duplicateControlId => "WF0010"

/-- How bad a problem of the code is. -/
def severity : DiagnosticCode → Severity
  | .unexpectedClosingTag => .warning
  | _ => .error

/-- The text of the code, with the number of an argument in braces at each argument's place. -/
def template : DiagnosticCode → String
  | .parseFailure => "Failed to parse file: \x7b0\x7d"
  | .propertyNotFound => "Type '\x7b0\x7d' has no writable property '\x7b1\x7d'"
  | .duplicateControlRegister =>
    "Tag '\x7b0\x7d' is already registered as '\x7b1\x7d' and cannot be registered as '\x7b2\x7d'"
  | .controlNotFound => "No control registered for tag '\x7b0\x7d'"
  | .inheritNotFound => "Inherited type '\x7b0\x7d' could not be found"
  | .typeNotFoundInNamespace => "Type '\x7b0\x7d' not found in namespace '\x7b1\x7d'"
  | .unexpectedClosingTag => "Unexpected closing tag '\x7b0\x7d', expected '\x7b1\x7d'"
  | .includeNotFound => "Included file '\x7b0\x7d' not found"
  | .recursiveInclude => "File '\x7b0\x7d' includes itself"
  | .duplicateControlId => "A control with ID '\x7b0\x7d' is already declared"

end DiagnosticCode

/-- A problem, the span it is about, and the arguments of its text. -/
structure Diagnostic where
  code : DiagnosticCode
  span : Span
  args : List String
deriving DecidableEq, Repr

namespace Diagnostic

/-- The place of the argument with the number `i` in a text. -/
def placeholder (i : Nat) : List Char :=
  '\x7b' :: (Nat.toDigits 10 i ++ ['\x7d'])

/-- The text with the arguments in place, the first of them having the number `i`.  What has been
filled in for an argument is searched for the places of the later ones. -/
def fill (i : Nat) (text : List Char) : List String → List Char
  | [] => text
  | arg :: args => fill (i + 1) (replaceAll (placeholder i) arg.toList text) args

/-- How bad the problem is. -/
def severity (d : Diagnostic) : Severity :=
  d.code.severity

/-- What the diagnostic says. -/
def message (d : Diagnostic) : String :=
  String.ofList (fill 0 d.code.template.toList d.args)

/-- The diagnostic with its place, severity and code. -/
def text (d : Diagnostic) : String :=
  d.span.place ++ ": " ++ d.severity.text ++ " " ++ d.code.id ++ ": " ++ d.message

/-- Whether one of the diagnostics is an error. -/
def anyError (ds : List Diagnostic) : Bool :=
  ds.any fun d => d.severity == .error

end Diagnostic

end ServerMarkup
