import Monomorph.TypeExpr.Basic

/-!
# Built-in types

A catalogue lists the types that exist before any definition is read. A built-in without a
definition is opaque; one with a definition can be specialized like any other generic.
-/

namespace Monomorph

/-- A type that need not be defined. -/
structure Builtin where
  name : String
  arity : Nat
  definition : Option TypeDef
deriving DecidableEq, Repr

namespace Catalogue

/-- The name of the built-in that stands for the body of an abstract generic. -/
def abstractName : String := "abstract"

/-- A parameterless type without a definition. -/
def atom (name : String) : Builtin := ⟨name, 0, none⟩

/-- The definition of a container kind: the container of its only parameter. -/
def containerDef (kind : ContainerKind) : TypeDef :=
  ⟨kind.name, ["a"], ∅, .container kind (.var "a" ∅) ∅⟩

/-- A container kind as a built-in. -/
def containerType (kind : ContainerKind) : Builtin := ⟨kind.name, 1, some (containerDef kind)⟩

/-- The types every file starts with. -/
def standard : List Builtin :=
  ["unit", "bool", "int", "float", "string", abstractName].map atom ++
    ContainerKind.all.map containerType

end Catalogue

/-- Whether a body marks its definition as abstract: the bare name `abstract`. -/
def TypeExpr.isAbstract : TypeExpr → Bool
  | named name [] _ => name == Catalogue.abstractName
  | _ => false

end Monomorph
