import Monomorph.Check
import Monomorph.Json.Result
import Monomorph.StandardName

/-!
# Compiling a source text

A run reads a source text and takes its definitions through the passes up to a terminal one. It is
rejected with everything that was found wrong if the text does not read or the check reports an
error; warnings go with the result. Each step leaves an event, whether the run succeeds or not.
-/

namespace Monomorph

/-- What a run reports about its progress. -/
inductive CompilationEvent where
  /-- A stage is over; the time it took is not part of the message. -/
  | complete (stage : String)
  | parsed (definitions : Nat)
  | expansion (event : ExpansionEvent)
deriving DecidableEq, Repr

/-- Everything a run produces. -/
structure Output where
  /-- The definitions as they were read. -/
  input : List TypeDef
  /-- The flat definitions, once they are expanded. -/
  definitions : List TypeDef
  origins : Origins
  /-- The warnings of the check. -/
  diagnostics : List Diagnostic
  provenance : Provenance

namespace Output

/-- The flat definitions as a text. -/
def render (output : Output) : String := TypeDef.renderAll output.definitions

/-- The flat definitions, their origins, the options and the provenance as one document. -/
def toJson (output : Output) (options : Options) : Json :=
  .object [("definitions", .array (output.definitions.map TypeDef.toJson)),
    ("origins", output.origins.toJson), ("options", options.toJson),
    ("provenance", output.provenance.toJson)]

end Output

/-- Why a run ends without a result. -/
inductive CompilationError where
  /-- The text does not read or its definitions are not well formed. -/
  | rejected (diagnostics : List Diagnostic)
  /-- The definitions could not be expanded. -/
  | expansion (failure : Failure)

/-- The message about a rejected source text. -/
def rejectionMessage (diagnostics : List Diagnostic) : String :=
  s!"source rejected with {(diagnostics.filter Diagnostic.isError).length} error(s)"

namespace Compilation

/-- A step of a run. -/
abbrev Run := ExceptT CompilationError (StateM (List CompilationEvent))

/-- Put an event on record. -/
def report (event : CompilationEvent) : Run Unit := modify (event :: ·)

/-- Read a source text without any error. -/
def read (source : String) : Run (List Item) := do
  let parsed := Source.parse source
  report (.complete "parse")
  match parsed.clean? with
  | some items =>
    report (.parsed items.length)
    return items
  | none => throw (.rejected parsed.diagnostics)

/-- The names that no specialization may take: those of the catalogue and of the input. -/
def takenNames (catalogue : List Builtin) (input : List TypeDef) : List String :=
  catalogue.map Builtin.name ++ input.map TypeDef.name

/-- One pass over what a run has produced so far. -/
def runPass (depth : Nat) (options : Options) (items : List Item) (output : Output) :
    Pass → Run Output
  | .check => do
    let diagnostics := check Catalogue.standard items
    if hasErrors diagnostics then throw (.rejected diagnostics)
    return { output with diagnostics := diagnostics }
  | .expand => do
    let (result, events) := expand depth Catalogue.standard output.input options.keepPoly
    events.forM fun event => report (.expansion event)
    match result with
    | .ok expansion =>
      return { output with definitions := expansion.definitions, origins := expansion.origins }
    | .error failure => throw (.expansion failure)
  | .standardize => do
    let renamed := standardize output.definitions output.origins options.stem
      (takenNames Catalogue.standard output.input)
    return { output with definitions := renamed.definitions, origins := renamed.origins }

/-- Read a source text and run the passes that lead to a terminal one. -/
def runAll (depth : Nat) (options : Options) (terminal : Pass) (source : String) : Run Output := do
  let items ← read source
  let start : Output := {
    input := items.map Item.definition
    definitions := []
    origins := []
    diagnostics := []
    provenance := .ofSource source }
  terminal.required.foldlM (fun output pass => do
    let output ← runPass depth options items output pass
    report (.complete pass.name)
    return output) start

end Compilation

/-- Compile a source text up to a terminal pass, with specializations nested up to a depth. -/
def compileTo (depth : Nat) (options : Options) (terminal : Pass) (source : String) :
    Except CompilationError Output × List CompilationEvent :=
  let (result, events) := (Compilation.runAll depth options terminal source).run []
  (result, events.reverse)

/-- Compile a source text as far as the options say. -/
def compile (depth : Nat) (options : Options) (source : String) :
    Except CompilationError Output × List CompilationEvent :=
  compileTo depth options options.terminal source

end Monomorph
