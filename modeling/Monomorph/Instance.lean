import Monomorph.TypeExpr.Printer
import Monomorph.TypeExpr.Renaming

/-!
# Instances of generics

Two applications of a generic denote the same specialization if they differ only in the names of
their variables. An instance renames the variables of the arguments, in the order in which they
first occur, to a fixed sequence of canonical names; what it then looks like in writing, between
`@(` and `)`, is the name of the specialization. An identifier never starts with `@`.
-/

namespace Monomorph

/-- The canonical variables: the letters from `a` to `z`, then the letters with 1, with 2, … -/
def canonicalVar (n : Nat) : String :=
  let letter := String.singleton (Char.ofNat ('a'.toNat + n % 26))
  if n / 26 = 0 then letter else letter ++ toString (n / 26)

/-- Whether a name is that of a specialization. -/
def isSynthetic (name : String) : Bool := ['@', '('].isPrefixOf name.toList

/-- An application of a generic, up to the names of its variables. -/
structure Instance where
  /-- The name of the specialization. -/
  name : String
  /-- The arguments with canonical variables. -/
  args : List TypeExpr
  /-- The variables of the application and their canonical names, in order of first occurrence. -/
  vars : List (String × String)
deriving DecidableEq, Repr

namespace Instance

/-- The instance of a generic for some arguments and annotations. -/
def of (generic : String) (args : List TypeExpr) (a : Annots) : Instance :=
  let names := (args.flatMap TypeExpr.varNames).eraseDups
  let args := args.map (TypeExpr.renameVars fun name => canonicalVar (names.idxOf name))
  { name := "@(" ++ TypeExpr.signature generic args a ++ ")"
    args := args
    vars := names.zipIdx.map fun (name, n) => (name, canonicalVar n) }

/-- The parameters of the specialization. -/
def params (i : Instance) : List String := i.vars.map Prod.snd

/-- The number of parameters of the specialization. -/
def arity (i : Instance) : Nat := i.vars.length

/-- What replaces the application: the specialization, applied to the variables that the application
had. -/
def reference (i : Instance) (a : Annots) : TypeExpr :=
  .named i.name (i.vars.map fun (name, _) => .var name ∅) a

theorem isSynthetic_name_of (generic : String) (args : List TypeExpr) (a : Annots) :
    isSynthetic (of generic args a).name = true := by
  simp [isSynthetic, of]

end Instance

end Monomorph
