import Monomorph.TypeExpr.Traversal

/-!
# Substitution for type variables

An environment binds variables to expressions. A bound occurrence is replaced, and its own
annotations join those of the replacement; an unbound one stays.

`replaceVars` does nothing else. `substitute` also hands every application and every container that
ends up with an argument other than a variable to an *instantiator*, which decides what stands in
its place. The instantiator runs in any monad, arguments before the application that holds them.
-/

namespace Monomorph

/-- What each type variable stands for, where it stands for something. -/
abbrev Environment := String → Option TypeExpr

namespace Environment

/-- Nothing is bound. -/
def empty : Environment := fun _ => none

/-- Bind names to expressions, pair by pair; of two bindings of a name the later one holds. -/
def ofPairs (pairs : List (String × TypeExpr)) : Environment := fun name => pairs.reverse.lookup name

/-- Bind parameters to arguments. -/
def bind (params : List String) (args : List TypeExpr) : Environment := ofPairs (params.zip args)

/-- What one annotated occurrence of a variable becomes. -/
def occurrence (env : Environment) (name : String) (a : Annots) : TypeExpr :=
  match env name with
  | some t => t.annotate a
  | none => .var name a

@[simp] theorem occurrence_empty (name : String) (a : Annots) :
    empty.occurrence name a = .var name a := rfl

theorem occurrence_of_eq_some {env : Environment} {name : String} {t : TypeExpr}
    (h : env name = some t) (a : Annots) : env.occurrence name a = t.annotate a := by
  simp [occurrence, h]

theorem occurrence_of_eq_none {env : Environment} {name : String}
    (h : env name = none) (a : Annots) : env.occurrence name a = .var name a := by
  simp [occurrence, h]

end Environment

/-- The expression to put in place of the application of a name to arguments. -/
abbrev Instantiator (m : Type → Type) := String → List TypeExpr → Annots → m TypeExpr

namespace TypeExpr

/-- Replace bound variables and keep every other node. -/
def replaceVars (env : Environment) : TypeExpr → TypeExpr := rebuild { var := env.occurrence }

/-- What `substitute` does at each node that carries a name. An application to variables only is
another spelling of the generic itself and is not instantiated. -/
def substitution {m : Type → Type} [Monad m] (instantiate : Instantiator m) (env : Environment) :
    Visitor m where
  var name a := pure (env.occurrence name a)
  container kind element a :=
    if element.isVar then pure (container kind element a)
    else instantiate kind.name [element] a
  head := pure
  named name args a :=
    if args.all isVar then pure (named name args a) else instantiate name args a

/-- Replace bound variables and instantiate what has an argument other than a variable. -/
def substitute {m : Type → Type} [Monad m] (instantiate : Instantiator m) (env : Environment) :
    TypeExpr → m TypeExpr :=
  traverse (substitution instantiate env)

section ReplaceVars

variable (env : Environment)

@[simp] theorem replaceVars_sum (variants : List (Variant TypeExpr)) (a : Annots) :
    replaceVars env (sum variants a) = sum (variants.map (Variant.map (replaceVars env))) a :=
  rebuild_sum _ _ _

@[simp] theorem replaceVars_record (fields : List (Field TypeExpr)) (a : Annots) :
    replaceVars env (record fields a) = record (fields.map (Field.map (replaceVars env))) a :=
  rebuild_record _ _ _

@[simp] theorem replaceVars_tuple (items : List TypeExpr) (a : Annots) :
    replaceVars env (tuple items a) = tuple (items.map (replaceVars env)) a :=
  rebuild_tuple _ _ _

@[simp] theorem replaceVars_container (kind : ContainerKind) (element : TypeExpr)
    (a : Annots) :
    replaceVars env (container kind element a) = container kind (replaceVars env element) a :=
  rebuild_container _ _ _ _

@[simp] theorem replaceVars_var (name : String) (a : Annots) :
    replaceVars env (var name a) = env.occurrence name a :=
  rebuild_var _ _ _

@[simp] theorem replaceVars_named (name : String) (args : List TypeExpr) (a : Annots) :
    replaceVars env (named name args a) = named name (args.map (replaceVars env)) a :=
  rebuild_named _ _ _ _

end ReplaceVars

section Substitute

variable {m : Type → Type} [Monad m] (instantiate : Instantiator m) (env : Environment)

theorem substitute_container (kind : ContainerKind) (element : TypeExpr) (a : Annots) :
    substitute instantiate env (container kind element a) = (do
      let element ← substitute instantiate env element
      if element.isVar then pure (container kind element a)
      else instantiate kind.name [element] a) :=
  traverse_container _ _ _ _

theorem substitute_var (name : String) (a : Annots) :
    substitute instantiate env (var name a) = pure (env.occurrence name a) :=
  traverse_var _ _ _

variable [LawfulMonad m]

theorem substitute_sum (variants : List (Variant TypeExpr)) (a : Annots) :
    substitute instantiate env (sum variants a) =
      (do return sum (← variants.mapM (Variant.mapM (substitute instantiate env))) a) :=
  traverse_sum _ _ _

theorem substitute_record (fields : List (Field TypeExpr)) (a : Annots) :
    substitute instantiate env (record fields a) =
      (do return record (← fields.mapM (Field.mapM (substitute instantiate env))) a) :=
  traverse_record _ _ _

theorem substitute_tuple (items : List TypeExpr) (a : Annots) :
    substitute instantiate env (tuple items a) =
      (do return tuple (← items.mapM (substitute instantiate env)) a) :=
  traverse_tuple _ _ _

theorem substitute_named (name : String) (args : List TypeExpr) (a : Annots) :
    substitute instantiate env (named name args a) = (do
      let args ← args.mapM (substitute instantiate env)
      if args.all isVar then pure (named name args a) else instantiate name args a) := by
  rw [substitute, traverse_named]
  simp [substitution]

end Substitute

end TypeExpr

end Monomorph
