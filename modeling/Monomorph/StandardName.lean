import Monomorph.Expansion

/-!
# Standard names

The written instances that name specializations are replaced by short names: a fixed stem and a
number. Specializations are numbered in the order of their definitions, then those that only occur
in bodies in the order of reading; numbers that would make a taken name are skipped.
-/

namespace Monomorph

/-- The heads of all applications, in the order of reading. -/
def TypeExpr.heads (t : TypeExpr) : List String :=
  t.subterms.filterMap fun
    | .named name _ _ => some name
    | _ => none

/-- Rename a definition and the heads in its body. -/
def TypeDef.renameTypes (f : String → String) (d : TypeDef) : TypeDef :=
  { d with name := f d.name, body := d.body.renameHeads f }

namespace StandardName

/-- The name with a number. -/
def numbered (stem : String) (n : Nat) : String := stem ++ toString n

/-- The first number from `n` on whose name is not taken. One of any `fuel + 1` names is free if
only `fuel` names are taken. -/
def firstFree (taken : List String) (stem : String) : Nat → Nat → Nat
  | 0, n => n
  | fuel + 1, n =>
    if numbered stem n ∈ taken then firstFree taken stem fuel (n + 1) else n

/-- The first numbers from `n` on whose names are not taken, as many as asked for. -/
def freeNumbers (taken : List String) (stem : String) : Nat → Nat → List Nat
  | 0, _ => []
  | count + 1, n =>
    let free := firstFree taken stem taken.length n
    free :: freeNumbers taken stem count (free + 1)

/-- The specializations that some definitions name, each once. -/
def synthetic (definitions : List TypeDef) : List String :=
  ((definitions.map TypeDef.name ++ definitions.flatMap fun d => d.body.heads).filter
    isSynthetic).eraseDups

/-- The names that some definitions keep. -/
def kept (definitions : List TypeDef) : List String :=
  (definitions.map TypeDef.name).filter fun name => !isSynthetic name

/-- The specializations and their standard names, where the definitions keep their own names and
further ones are taken. -/
def assign (definitions : List TypeDef) (stem : String) (taken : List String) :
    List (String × String) :=
  let names := synthetic definitions
  let numbers := freeNumbers (taken ++ kept definitions) stem names.length 1
  names.zip (numbers.map (numbered stem))

/-- The new name of a type. -/
def rename (assigned : List (String × String)) (name : String) : String :=
  (assigned.lookup name).getD name

end StandardName

namespace Origins

/-- Set the origin of a name. -/
def put (origins : Origins) (name : String) (origin : Origin) : Origins :=
  origins.filter (·.1 != name) ++ [(name, origin)]

/-- Move the origin of one name to another. -/
def move (origins : Origins) (old new : String) : Origins :=
  match origins.lookup old with
  | some origin => put (origins.filter (·.1 != old)) new origin
  | none => origins

end Origins

open StandardName in
/-- Give every specialization its standard name, in the definitions and among the origins. -/
def standardize (definitions : List TypeDef) (origins : Origins) (stem : String)
    (taken : List String) : Expansion :=
  let assigned := assign definitions stem taken
  { definitions := definitions.map (TypeDef.renameTypes (rename assigned))
    origins := assigned.foldl (fun o (old, new) => o.move old new) origins }

end Monomorph
