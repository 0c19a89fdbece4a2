import Monomorph.Expansion
import Monomorph.Json.Definition
import Monomorph.Options
import Monomorph.Provenance

/-!
# Origins, options and provenance as JSON
-/

namespace Monomorph

namespace Origin

/-- An origin as an object. -/
def toJson (o : Origin) : Json :=
  .object [("generic", .string o.generic), ("arity", .ofNat o.arity)]

/-- Read an origin. -/
def ofJson? (json : Json) : Option Origin := do
  let json ← json.parts? ["generic", "arity"]
  let generic ← json.required? Json.toText? "generic"
  let arity ← json.required? Json.toNat? "arity"
  return ⟨generic, arity⟩

end Origin

namespace Origins

/-- Origins as an object with a member for each specialization. -/
def toJson (origins : Origins) : Json :=
  .object (origins.map fun (name, origin) => (name, origin.toJson))

/-- Read origins. -/
def ofJson? : Json → Option Origins
  | .object members => members.mapM fun (name, value) => do return (name, ← Origin.ofJson? value)
  | _ => none

end Origins

namespace Options

/-- Options as an object. -/
def toJson (options : Options) : Json :=
  .object [("keep_poly", .bool options.keepPoly), ("prefix", .string options.stem),
    ("debug", .bool options.debug)]

/-- Read options; a missing one is as it is by default. -/
def ofJson? (json : Json) : Option Options := do
  let json ← json.parts? ["keep_poly", "prefix", "debug"]
  let keepPoly ← json.defaulted? Json.toBool? default.keepPoly "keep_poly"
  let stem ← json.defaulted? Json.toText? default.stem "prefix"
  let debug ← json.defaulted? Json.toBool? default.debug "debug"
  return ⟨keepPoly, stem, debug⟩

end Options

/-- Provenance as an object. -/
def Provenance.toJson (p : Provenance) : Json :=
  .object [("source_hash", .string p.sourceHash), ("compiler_version", .string p.compilerVersion)]

end Monomorph
