import Monomorph.CallGraph
import Monomorph.Catalogue
import Monomorph.Source

/-!
# Checking definitions

A file is well formed if its names are distinct and new, parameters are listed once, every variable
is a parameter, every applied name is known and has the right number of arguments, and no generic
that can lead back to itself wraps a parameter in the arguments of such a call. `check` reports all
that is wrong, in three rounds over the file: declarations, definitions, recursion.
-/

namespace Monomorph

/-- What can be wrong with a definition, or doubtful about it. -/
inductive Problem where
  /-- The name has been defined before, at `first`. -/
  | duplicateType (name : String) (first : Span)
  /-- The name is that of a built-in type. -/
  | redeclaredBuiltin (name : String)
  /-- A parameter is listed twice. -/
  | repeatedParameter (param owner : String)
  /-- A variable is not a parameter. -/
  | unboundVariable (name owner : String)
  /-- A name is neither defined nor built in. -/
  | unknownType (name owner : String)
  /-- A name is applied to the wrong number of arguments. -/
  | wrongArity (name : String) (expected found : Nat) (owner : String)
  /-- A recursive call wraps a parameter, so its arguments grow without end. -/
  | growingRecursion (callee caller : String)
  /-- A parameter does not occur in the body. -/
  | unusedParameter (param owner : String)
deriving DecidableEq, Repr

namespace Problem

/-- The stable code of a problem. -/
def code : Problem → String
  | duplicateType _ _ | redeclaredBuiltin _ => "E0100"
  | repeatedParameter _ _ => "E0101"
  | unboundVariable _ _ => "E0102"
  | unknownType _ _ => "E0103"
  | wrongArity _ _ _ _ => "E0104"
  | growingRecursion _ _ => "E0105"
  | unusedParameter _ _ => "W0100"

/-- An unused parameter is only doubtful; everything else is wrong. -/
def severity : Problem → Severity
  | unusedParameter _ _ => .warning
  | _ => .error

/-- The message of a problem. -/
def message : Problem → String
  | duplicateType name _ => s!"duplicate type `{name}`"
  | redeclaredBuiltin name => s!"type `{name}` redeclares a built-in type"
  | repeatedParameter param owner => s!"type parameter '{param} listed twice in `{owner}`"
  | unboundVariable name owner => s!"unbound type variable '{name} in `{owner}`"
  | unknownType name owner => s!"unknown type `{name}` in `{owner}`"
  | wrongArity name expected found owner =>
    s!"type `{name}` expects {expected} argument(s), found {found} in `{owner}`"
  | growingRecursion callee caller =>
    s!"recursive use of `{callee}` in `{caller}` wraps a type parameter in its arguments"
  | unusedParameter param owner => s!"type parameter '{param} is never used in `{owner}`"

/-- Advice on how to mend a problem. -/
def hint : Problem → Option String
  | redeclaredBuiltin _ => some "choose another name"
  | unboundVariable name owner => some s!"add '{name} to the parameters of `{owner}`"
  | growingRecursion _ _ => some "pass type parameters through unchanged in recursive uses"
  | _ => none

/-- Other places to look at. -/
def related : Problem → List RelatedPlace
  | duplicateType _ first => [⟨first, "first defined here"⟩]
  | _ => []

/-- A problem as a diagnostic about a place. -/
def diagnostic (span : Span) (problem : Problem) : Diagnostic :=
  ⟨some problem.code, problem.severity, span, problem.message, problem.hint, problem.related⟩

end Problem

namespace Check

/-- The names known so far with their arities, the latest first, and the places of the definitions
among them. -/
structure Scope where
  arities : List (String × Nat)
  declared : List (String × Span)

/-- The names of a catalogue; of two entries for a name the later one holds. -/
def Scope.ofCatalogue (catalogue : List Builtin) : Scope :=
  ⟨(catalogue.map fun b => (b.name, b.arity)).reverse, []⟩

/-- Add a definition, unless its name is taken. -/
def Scope.declare (scope : Scope) (item : Item) : Scope × List Problem :=
  let name := item.definition.name
  match scope.declared.lookup name with
  | some first => (scope, [.duplicateType name first])
  | none =>
    match scope.arities.lookup name with
    | some _ => (scope, [.redeclaredBuiltin name])
    | none =>
      (⟨(name, item.definition.arity) :: scope.arities, (name, item.span) :: scope.declared⟩, [])

/-- Add all definitions, in order. -/
def Scope.declareAll (scope : Scope) : List Item → Scope × List Diagnostic
  | [] => (scope, [])
  | item :: rest =>
    let (scope, problems) := scope.declare item
    let (scope, diagnostics) := scope.declareAll rest
    (scope, problems.map (Problem.diagnostic item.span) ++ diagnostics)

/-- The elements that occur before, in `seen` or in the list itself. -/
def repetitions (seen : List String) : List String → List String
  | [] => []
  | x :: rest => if x ∈ seen then x :: repetitions seen rest else repetitions (x :: seen) rest

/-- What is wrong with one node in the body of a definition. -/
def nodeProblem? (arities : List (String × Nat)) (d : TypeDef) : TypeExpr → Option Problem
  | .var name _ => if name ∈ d.params then none else some (.unboundVariable name d.name)
  | .named name args _ =>
    match arities.lookup name with
    | none => some (.unknownType name d.name)
    | some expected =>
      if expected = args.length then none
      else some (.wrongArity name expected args.length d.name)
  | _ => none

/-- The parameters that do not occur; an abstract definition uses none of its own. -/
def unusedParams (d : TypeDef) : List String :=
  if d.body.isAbstract then [] else d.params.filter fun param => !d.body.varNames.contains param

/-- What is wrong with, or doubtful about, one definition. -/
def definitionProblems (arities : List (String × Nat)) (d : TypeDef) : List Problem :=
  (repetitions [] d.params).map (.repeatedParameter · d.name) ++
    d.body.subterms.filterMap (nodeProblem? arities d) ++
    (unusedParams d).map (.unusedParameter · d.name)

/-- The generics among some definitions. -/
def generics (items : List Item) : List TypeDef :=
  (items.map Item.definition).filter fun d => !d.params.isEmpty

/-- The calls between the generics of a file. -/
def callGraph (items : List Item) : CallGraph :=
  let names := (generics items).map TypeDef.name
  ((generics items).map fun d =>
    (d.name, d.body.applications.filter fun a => names.contains a.callee)).reverse

/-- Whether an argument is more than a variable and contains one. -/
def isGrowing (arg : TypeExpr) : Bool := !arg.isVar && arg.isOpen

/-- The calls of a generic that can lead back to it with a growing argument. -/
def recursionProblems (graph : CallGraph) (caller : String) : List Problem :=
  (graph.calls caller).filterMap fun call =>
    if graph.reaches call.callee caller && call.args.any isGrowing then
      some (.growingRecursion call.callee caller)
    else none

end Check

open Check in
/-- Check a file against a catalogue. -/
def check (catalogue : List Builtin) (items : List Item) : List Diagnostic :=
  let (scope, declarations) := (Scope.ofCatalogue catalogue).declareAll items
  let graph := callGraph items
  declarations ++
    (items.flatMap fun item =>
      (definitionProblems scope.arities item.definition).map (Problem.diagnostic item.span)) ++
    items.flatMap fun item =>
      (recursionProblems graph item.definition.name).map (Problem.diagnostic item.span)

end Monomorph
