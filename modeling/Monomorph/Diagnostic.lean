import Monomorph.Text.Position

/-!
# Diagnostics

A diagnostic is a message about a place in a source text, with a severity, a stable code, a hint and
further places where it has them. Only errors stop the work; warnings travel along.
-/

namespace Monomorph

/-- Whether a diagnostic stops the work. -/
inductive Severity where
  | error
  | warning
deriving DecidableEq, Repr

/-- The word that a diagnostic starts with. -/
def Severity.label : Severity → String
  | error => "error"
  | warning => "warning"

/-- A further place that a diagnostic points at. -/
structure RelatedPlace where
  span : Span
  label : String
deriving DecidableEq, Repr

/-- A message about a place in a source text. -/
structure Diagnostic where
  code : Option String
  severity : Severity
  span : Span
  message : String
  hint : Option String
  related : List RelatedPlace
deriving DecidableEq, Repr

namespace Diagnostic

/-- Whether this is an error. -/
def isError (d : Diagnostic) : Bool := d.severity == .error

/-- The severity, the code and the message; a hint stands on a line of its own. -/
def display (d : Diagnostic) : String :=
  let code := match d.code with
    | some code => "[" ++ code ++ "]"
    | none => ""
  let hint := match d.hint with
    | some hint => "\n  hint: " ++ hint
    | none => ""
  d.severity.label ++ code ++ ": " ++ d.message ++ hint

/-- The display after the path, line and column where the diagnostic starts. There is none if the
start lies inside a character of the source. -/
def render? (d : Diagnostic) (path source : String) : Option String :=
  (Text.lineColumn? source.toList d.span.start).map fun place =>
    path ++ ":" ++ toString place.line ++ ":" ++ toString place.column ++ ": " ++ d.display

end Diagnostic

/-- Whether there is an error among the diagnostics. -/
def hasErrors (diagnostics : List Diagnostic) : Bool := diagnostics.any Diagnostic.isError

end Monomorph
