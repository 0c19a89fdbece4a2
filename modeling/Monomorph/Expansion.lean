import Monomorph.Catalogue
import Monomorph.Instance
import Monomorph.Table
import Monomorph.TypeExpr.Normal
import Monomorph.TypeExpr.Substitution

/-!
# Expansion of generic definitions

Every application with an argument other than a variable is replaced by a reference to a
specialization of its own, one for each instance. The table of definitions holds an entry for a
specialization before its body is computed, so an instance that leads back to itself refers to the
entry instead of going round.

Specializations can ask for ever new ones, so the depth to which they may nest is bounded by an
explicit argument. Running out of it is told apart from every fault of the definitions.
-/

namespace Monomorph

/-- What makes a list of definitions impossible to expand. -/
inductive Fault where
  /-- A generic is unknown or has no definition. -/
  | missingDefinition (name : String)
  /-- A generic is abstract where no built-in stands for that. -/
  | unresolvedAbstract (name : String)
  /-- A generic is applied to the wrong number of arguments. -/
  | arityMismatch (name : String) (expected found : Nat)
deriving DecidableEq, Repr

/-- The message of a fault. -/
def Fault.message : Fault → String
  | missingDefinition name => s!"generic type `{name}` has no definition to specialize"
  | unresolvedAbstract name =>
    s!"abstract type `{name}` cannot be resolved: `{Catalogue.abstractName}` is not a known type"
  | arityMismatch name expected found =>
    s!"type `{name}` expects {expected} argument(s), found {found}"

/-- Why an expansion ends without a result. -/
inductive Failure where
  | fault (fault : Fault)
  /-- Specializations nest deeper than allowed. -/
  | tooDeep
deriving DecidableEq, Repr

/-- Where a specialization comes from: a generic and the number of parameters it declares. -/
structure Origin where
  generic : String
  arity : Nat
deriving DecidableEq, Repr

/-- The specializations and their origins, in the order in which they are begun. -/
abbrev Origins := List (String × Origin)

/-- What an expansion reports about its progress. -/
inductive ExpansionEvent where
  | seeded (builtins definitions : Nat)
  | specializing (name generic : String)
  | keptAbstract (generic : String)
  | selfReference (name : String)
  | finished (definitions specializations : Nat)
deriving DecidableEq, Repr

/-- The message of an event. -/
def ExpansionEvent.message : ExpansionEvent → String
  | seeded builtins definitions =>
    s!"expand: seeded {builtins} built-ins, {definitions} definitions"
  | specializing name generic => s!"expand: specializing {name} (from {generic})"
  | keptAbstract generic => s!"expand: {generic} is abstract, kept as an application"
  | selfReference name =>
    s!"expand: {name} refers to itself at the root, substituting containers only"
  | finished definitions specializations =>
    s!"expand: {definitions} definitions out, {specializations} specializations"

/-- Flat definitions and the origins of the specializations among them. -/
structure Expansion where
  definitions : List TypeDef
  origins : Origins
deriving DecidableEq, Repr

/-- What an expansion has done so far; the events are kept with the latest one first. -/
structure Engine where
  table : Table
  origins : Origins
  events : List ExpansionEvent

namespace Engine

/-- A step of an expansion. What was done before a failure stays on record. -/
abbrev Run := ExceptT Failure (StateM Engine)

/-- End an expansion. -/
def fail {α : Type} (fault : Fault) : Run α := throw (.fault fault)

/-- Put an event on record. -/
def report (event : ExpansionEvent) : Run Unit :=
  modify fun e => { e with events := event :: e.events }

/-- A part of a definition that must be there. -/
def demand {α : Type} (fault : Fault) : Option α → Run α
  | some value => pure value
  | none => fail fault

/-- Insert an entry for a specialization and record its origin. -/
def reserve (i : Instance) (origin : Origin) : Run Handle := do
  let handle := (← get).table.next
  modify fun e => { e with
    table := e.table.reserve i.name i.arity
    origins := e.origins ++ [(i.name, origin)] }
  return handle

/-- Store the expansion of an entry. -/
def fill (handle : Handle) (d : TypeDef) : Run Unit :=
  modify fun e => { e with table := e.table.fill handle d }

/-- The body of a specialization, without the annotations of its use. An abstract generic stays an
application. A body that is a reference to the specialization itself would define nothing; there the
declared body is kept, with the arguments in it. -/
def specializedBody (instantiate : Instantiator Run) (declared : TypeDef) (generic : String)
    (i : Instance) : Run TypeExpr := do
  if declared.body.isAbstract then
    unless (← get).table.contains Catalogue.abstractName do
      fail (.unresolvedAbstract generic)
    report (.keptAbstract generic)
    return .named generic i.args ∅
  else
    let env := Environment.bind declared.params i.args
    let full ← declared.body.substitute instantiate env
    if full.isNamed i.name then
      report (.selfReference i.name)
      return declared.body.replaceVars env
    else
      return full

/-- Make the specialization of a generic for an instance. -/
def specialize (instantiate : Instantiator Run) (generic : String) (i : Instance)
    (a : Annots) : Run Unit := do
  let missing := Fault.missingDefinition generic
  let entry ← demand missing ((← get).table.find? generic)
  let handle ← reserve i ⟨generic, entry.arity⟩
  report (.specializing i.name generic)
  let declared ← demand missing entry.declared
  if declared.arity ≠ i.args.length then
    fail (.arityMismatch generic declared.arity i.args.length)
  let body ← specializedBody instantiate declared generic i
  fill handle ⟨i.name, i.params, declared.annots, body.annotate a⟩

/-- Refer to the specialization for an instance; `create` makes it if the table does not have it. -/
def refer (create : String → Instance → Annots → Run Unit) : Instantiator Run :=
  fun generic args a => do
    let i := Instance.of generic args a
    unless (← get).table.contains i.name do
      create generic i a
    return i.reference a

/-- The instantiator of the expansion, with specializations nested up to a depth. -/
def instantiate : Nat → Instantiator Run
  | 0 => refer fun _ _ _ => throw .tooDeep
  | depth + 1 => refer (specialize (instantiate depth))

/-- The table before anything is expanded: the catalogue, then the definitions in normal form. -/
def seed (catalogue : List Builtin) (definitions : List TypeDef) : Engine where
  table :=
    let builtins := catalogue.foldl (fun t b => t.insert b.name b.arity b.definition) Table.empty
    definitions.foldl (fun t d => t.insert d.name d.arity (some d.normalize)) builtins
  origins := []
  events := [.seeded catalogue.length definitions.length]

/-- Expand one definition; a generic is left out unless generics are kept. -/
def expandDefinition (depth : Nat) (keepPoly : Bool) (d : TypeDef) : Run Unit := do
  if d.params.isEmpty || keepPoly then
    let missing := Fault.missingDefinition d.name
    let entry ← demand missing ((← get).table.find? d.name)
    let declared ← demand missing entry.declared
    let body ← declared.body.substitute (instantiate depth) Environment.empty
    fill entry.seq { declared with body := body }

/-- Expand all definitions, in order, and collect what is in the table then. -/
def expandAll (depth : Nat) (keepPoly : Bool) (definitions : List TypeDef) : Run Expansion := do
  definitions.forM (expandDefinition depth keepPoly)
  let e ← get
  let result : Expansion := ⟨e.table.drain keepPoly, e.origins⟩
  report (.finished result.definitions.length result.origins.length)
  return result

end Engine

/-- Expand definitions against a catalogue, with specializations nested up to a depth. -/
def expand (depth : Nat) (catalogue : List Builtin) (definitions : List TypeDef)
    (keepPoly : Bool) : Except Failure Expansion × List ExpansionEvent :=
  let (result, engine) :=
    (Engine.expandAll depth keepPoly definitions).run (Engine.seed catalogue definitions)
  (result, engine.events.reverse)

end Monomorph
