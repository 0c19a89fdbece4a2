import Monomorph.Json.Basic
import Monomorph.TypeExpr.Basic

/-!
# Definitions as JSON

Each node of a type expression is an object with a member `kind` that tells which node it is.
Annotations are left out where there are none, as are missing payloads and values. Reading ignores
other members, takes annotations in any order and however often they occur, and never changes the
shape of an expression. It takes arrays for objects, with the parts in order, and inside another
expression a node may tell its kind by a number.
-/

namespace Monomorph

namespace Annot

/-- An annotation as an object. -/
def toJson (a : Annot) : Json :=
  .object ([("section", .string a.group), ("key", .string a.key)] ++
    match a.value with
    | some value => [("value", .string value)]
    | none => [])

/-- Read an annotation. -/
def ofJson? (json : Json) : Option Annot := do
  let json ← json.parts? ["section", "key", "value"]
  let group ← json.required? Json.toText? "section"
  let key ← json.required? Json.toText? "key"
  let value ← json.optional? Json.toText? "value"
  return ⟨group, key, value⟩

end Annot

namespace Annots

/-- A set of annotations as an array. -/
def toJson (s : Annots) : Json := .array (s.toList.map Annot.toJson)

/-- Read a set of annotations. -/
def ofJson? (json : Json) : Option Annots :=
  (json.toList? Annot.ofJson?).map ofList

/-- The member that holds annotations, if there are any. -/
def toMember (s : Annots) : List (String × Json) :=
  if s.isEmpty then [] else [("annots", s.toJson)]

/-- Read the member that holds annotations. -/
def ofMember? (json : Json) : Option Annots := json.defaulted? ofJson? ∅ "annots"

end Annots

/-- Read a container kind by its name, which may also be the only member of an object, with nothing
in it. -/
def ContainerKind.ofJson? : Json → Option ContainerKind
  | .string name | .object [(name, .null)] | .object [(name, .object [])] => ofName? name
  | _ => none

namespace TypeExpr

mutual

/-- An expression as an object. -/
def toJson : TypeExpr → Json
  | sum variants a =>
    .object ([("kind", .string "sum"), ("variants", .array (variantsToJson variants))] ++ a.toMember)
  | record fields a =>
    .object ([("kind", .string "record"), ("fields", .array (fieldsToJson fields))] ++ a.toMember)
  | tuple items a =>
    .object ([("kind", .string "tuple"), ("items", .array (allToJson items))] ++ a.toMember)
  | container kind element a =>
    .object ([("kind", .string "container"), ("container", .string kind.name),
      ("elem", toJson element)] ++ a.toMember)
  | var name a => .object ([("kind", .string "var"), ("name", .string name)] ++ a.toMember)
  | named name args a =>
    .object ([("kind", .string "named"), ("name", .string name), ("args", .array (allToJson args))]
      ++ a.toMember)

/-- Variants as objects. -/
def variantsToJson : List (Variant TypeExpr) → List Json
  | [] => []
  | ⟨tag, none⟩ :: rest => .object [("tag", .string tag)] :: variantsToJson rest
  | ⟨tag, some t⟩ :: rest =>
    .object [("tag", .string tag), ("payload", toJson t)] :: variantsToJson rest

/-- Record lines as objects. -/
def fieldsToJson : List (Field TypeExpr) → List Json
  | [] => []
  | .labelled label t :: rest =>
    .object [("kind", .string "field"), ("label", .string label), ("ty", toJson t)] ::
      fieldsToJson rest
  | .inherit t :: rest =>
    .object [("kind", .string "inherit"), ("ty", toJson t)] :: fieldsToJson rest

/-- Expressions as objects. -/
def allToJson : List TypeExpr → List Json
  | [] => []
  | t :: rest => toJson t :: allToJson rest

end

/-- The kinds of nodes. -/
inductive NodeKind where
  | sum
  | record
  | tuple
  | container
  | var
  | named
deriving DecidableEq, Repr

/-- The kinds of nodes with their parts. -/
def NodeKind.alternatives : List (Json.Alternative NodeKind) :=
  [⟨sum, "sum", ["variants", "annots"]⟩,
    ⟨record, "record", ["fields", "annots"]⟩,
    ⟨tuple, "tuple", ["items", "annots"]⟩,
    ⟨container, "container", ["container", "elem", "annots"]⟩,
    ⟨var, "var", ["name", "annots"]⟩,
    ⟨named, "named", ["name", "args", "annots"]⟩]

/-- The kinds of record lines. -/
inductive FieldKind where
  | labelled
  | inherit
deriving DecidableEq, Repr

/-- The kinds of record lines with their parts. -/
def FieldKind.alternatives : List (Json.Alternative FieldKind) :=
  [⟨labelled, "field", ["label", "ty"]⟩, ⟨inherit, "inherit", ["ty"]⟩]

/-- Read a variant, given how to read its payload. -/
def variantOfJson? (read : Json → Option TypeExpr) (json : Json) : Option (Variant TypeExpr) := do
  let json ← json.parts? ["tag", "payload"]
  let tag ← json.required? Json.toText? "tag"
  let payload ← json.optional? read "payload"
  return ⟨tag, payload⟩

/-- Read a record line, given how to read its type. -/
def fieldOfJson? (read : Json → Option TypeExpr) (json : Json) : Option (Field TypeExpr) := do
  let (kind, json) ← json.tagged? FieldKind.alternatives true
  match kind with
  | .labelled =>
    let label ← json.required? Json.toText? "label"
    return .labelled label (← json.required? read "ty")
  | .inherit => return .inherit (← json.required? read "ty")

/-- Read an expression, given how to read those inside it; `byPlace` tells whether a number may stand
for its kind. -/
def nodeOfJson? (byPlace : Bool) (read : Json → Option TypeExpr) (json : Json) :
    Option TypeExpr := do
  let (kind, json) ← json.tagged? NodeKind.alternatives byPlace
  let a ← Annots.ofMember? json
  match kind with
  | .sum => return sum (← json.required? (Json.toList? (variantOfJson? read)) "variants") a
  | .record => return record (← json.required? (Json.toList? (fieldOfJson? read)) "fields") a
  | .tuple => return tuple (← json.required? (Json.toList? read) "items") a
  | .container =>
    let kind ← json.required? ContainerKind.ofJson? "container"
    return container kind (← json.required? read "elem") a
  | .var => return var (← json.required? Json.toText? "name") a
  | .named =>
    let name ← json.required? Json.toText? "name"
    return named name (← json.required? (Json.toList? read) "args") a

/-- Read an expression inside another one, whose nesting is at most `fuel`. -/
def innerOfJson? : Nat → Json → Option TypeExpr
  | 0, _ => none
  | fuel + 1, json => nodeOfJson? true (innerOfJson? fuel) json

/-- Read an expression. -/
def ofJson? (json : Json) : Option TypeExpr := nodeOfJson? false (innerOfJson? json.depth) json

end TypeExpr

namespace TypeDef

/-- A definition as an object. -/
def toJson (d : TypeDef) : Json :=
  .object ([("name", .string d.name), ("params", .array (d.params.map .string))] ++
    d.annots.toMember ++ [("body", d.body.toJson)])

/-- Read a definition. -/
def ofJson? (json : Json) : Option TypeDef := do
  let json ← json.parts? ["name", "params", "annots", "body"]
  let name ← json.required? Json.toText? "name"
  let params ← json.required? (Json.toList? Json.toText?) "params"
  let annots ← Annots.ofMember? json
  let body ← json.required? TypeExpr.ofJson? "body"
  return ⟨name, params, annots, body⟩

end TypeDef

end Monomorph
