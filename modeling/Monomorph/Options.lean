/-!
# Options and passes

The passes after reading a file build on one another: definitions are checked, expanded, and given
standard names. The options say how the definitions are expanded and where a full run ends.
-/

namespace Monomorph

/-- A pass over the definitions of a file. -/
inductive Pass where
  | check
  | expand
  | standardize
deriving DecidableEq, Repr

namespace Pass

/-- The name of a pass in messages. -/
def name : Pass → String
  | check => "check"
  | expand => "expand"
  | standardize => "standardize"

/-- The pass with a name. -/
def ofName? : String → Option Pass
  | "check" => some check
  | "expand" => some expand
  | "standardize" => some standardize
  | _ => none

/-- The passes that a pass builds on directly. -/
def inputs : Pass → List Pass
  | check => []
  | expand => [check]
  | standardize => [expand]

/-- What holds after a pass. -/
def invariants : Pass → String
  | check => "names unique, variables bound, applications well-arity"
  | expand => "output arity 0 unless keep_poly, origins recorded"
  | standardize => "no canonical @(...) names remain"

/-- The passes that lead to a pass, in the order in which they run, itself last. -/
def required : Pass → List Pass
  | check => [check]
  | expand => [check, expand]
  | standardize => [check, expand, standardize]

/-- A pass runs right after what it needs. -/
theorem required_eq (p : Pass) : p.required = p.inputs.flatMap required ++ [p] := by
  cases p <;> rfl

@[simp] theorem ofName?_name (p : Pass) : ofName? p.name = some p := by cases p <;> rfl

end Pass

/-- How definitions are expanded. -/
structure Options where
  /-- Keep generic definitions in the output. -/
  keepPoly : Bool
  /-- What the standard names of specializations start with. -/
  stem : String
  /-- Leave the written instances as names. -/
  debug : Bool
deriving DecidableEq, Repr

namespace Options

/-- The options when none is given. -/
def default : Options := ⟨false, "_", false⟩

instance : Inhabited Options := ⟨default⟩

/-- The last pass of a full run. -/
def terminal (options : Options) : Pass := if options.debug then .expand else .standardize

end Options

end Monomorph
