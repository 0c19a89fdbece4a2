import Monomorph.TypeExpr.Traversal

/-!
# Renaming variables and type names

The name of every variable, or of the head of every application, is passed through a function; all
else is kept. Each renaming comes in two forms: a plain one, for reasoning, and one whose function
has effects and sees the names from left to right, the head of an application before its arguments.
-/

namespace Monomorph

namespace TypeExpr

/-- Rename every variable. -/
def renameVars (f : String → String) : TypeExpr → TypeExpr :=
  rebuild { var := fun name a => var (f name) a }

/-- Rename the head of every application; containers keep their kind. -/
def renameHeads (f : String → String) : TypeExpr → TypeExpr :=
  rebuild { named := fun name args a => named (f name) args a }

section Effects

variable {m : Type → Type} [Monad m]

/-- Rename every variable, occurrence by occurrence. -/
def renameVarsM (f : String → m String) : TypeExpr → m TypeExpr :=
  traverse {
    var := fun name a => do return var (← f name) a
    container := fun kind element a => pure (container kind element a)
    head := pure
    named := fun name args a => pure (named name args a) }

/-- Rename the head of every application, occurrence by occurrence. -/
def renameHeadsM (f : String → m String) : TypeExpr → m TypeExpr :=
  traverse {
    var := fun name a => pure (var name a)
    container := fun kind element a => pure (container kind element a)
    head := f
    named := fun name args a => pure (named name args a) }

end Effects

section RenameVars

variable (f g : String → String)

@[simp] theorem renameVars_sum (variants : List (Variant TypeExpr)) (a : Annots) :
    renameVars f (sum variants a) = sum (variants.map (Variant.map (renameVars f))) a :=
  rebuild_sum _ _ _

@[simp] theorem renameVars_record (fields : List (Field TypeExpr)) (a : Annots) :
    renameVars f (record fields a) = record (fields.map (Field.map (renameVars f))) a :=
  rebuild_record _ _ _

@[simp] theorem renameVars_tuple (items : List TypeExpr) (a : Annots) :
    renameVars f (tuple items a) = tuple (items.map (renameVars f)) a :=
  rebuild_tuple _ _ _

@[simp] theorem renameVars_container (kind : ContainerKind) (element : TypeExpr)
    (a : Annots) :
    renameVars f (container kind element a) = container kind (renameVars f element) a :=
  rebuild_container _ _ _ _

@[simp] theorem renameVars_var (name : String) (a : Annots) :
    renameVars f (var name a) = var (f name) a :=
  rebuild_var _ _ _

@[simp] theorem renameVars_named (name : String) (args : List TypeExpr) (a : Annots) :
    renameVars f (named name args a) = named name (args.map (renameVars f)) a :=
  rebuild_named _ _ _ _

/-- A function that leaves each name as it is changes nothing. -/
@[simp] theorem renameVars_id (t : TypeExpr) : t.renameVars id = t := by
  induction t with
  | sum variants a ih => simp [Variant.map_congr (g := id) ih]
  | record fields a ih => simp [Field.map_congr (g := id) ih]
  | tuple items a ih => simp [List.map_congr_left (g := id) ih]
  | container kind element a ih => simp [ih]
  | var name a => simp
  | named name args a ih => simp [List.map_congr_left (g := id) ih]

/-- Renaming twice is renaming once by the composite. -/
@[simp] theorem renameVars_renameVars (t : TypeExpr) :
    (t.renameVars f).renameVars g = t.renameVars (g ∘ f) := by
  induction t with
  | sum variants a ih =>
    simp only [renameVars_sum, List.map_map, Variant.map_comp_map]
    exact congrArg (sum · a) (Variant.map_congr ih)
  | record fields a ih =>
    simp only [renameVars_record, List.map_map, Field.map_comp_map]
    exact congrArg (record · a) (Field.map_congr ih)
  | tuple items a ih => simpa using ih
  | container kind element a ih => simp [ih]
  | var name a => simp
  | named name args a ih => simpa using ih

end RenameVars

section RenameHeads

variable (f g : String → String)

@[simp] theorem renameHeads_sum (variants : List (Variant TypeExpr)) (a : Annots) :
    renameHeads f (sum variants a) = sum (variants.map (Variant.map (renameHeads f))) a :=
  rebuild_sum _ _ _

@[simp] theorem renameHeads_record (fields : List (Field TypeExpr)) (a : Annots) :
    renameHeads f (record fields a) = record (fields.map (Field.map (renameHeads f))) a :=
  rebuild_record _ _ _

@[simp] theorem renameHeads_tuple (items : List TypeExpr) (a : Annots) :
    renameHeads f (tuple items a) = tuple (items.map (renameHeads f)) a :=
  rebuild_tuple _ _ _

@[simp] theorem renameHeads_container (kind : ContainerKind) (element : TypeExpr)
    (a : Annots) :
    renameHeads f (container kind element a) = container kind (renameHeads f element) a :=
  rebuild_container _ _ _ _

@[simp] theorem renameHeads_var (name : String) (a : Annots) :
    renameHeads f (var name a) = var name a :=
  rebuild_var _ _ _

@[simp] theorem renameHeads_named (name : String) (args : List TypeExpr) (a : Annots) :
    renameHeads f (named name args a) = named (f name) (args.map (renameHeads f)) a :=
  rebuild_named _ _ _ _

/-- A function that leaves each name as it is changes nothing. -/
@[simp] theorem renameHeads_id (t : TypeExpr) : t.renameHeads id = t := by
  induction t with
  | sum variants a ih => simp [Variant.map_congr (g := id) ih]
  | record fields a ih => simp [Field.map_congr (g := id) ih]
  | tuple items a ih => simp [List.map_congr_left (g := id) ih]
  | container kind element a ih => simp [ih]
  | var name a => simp
  | named name args a ih => simp [List.map_congr_left (g := id) ih]

/-- Renaming twice is renaming once by the composite. -/
@[simp] theorem renameHeads_renameHeads (t : TypeExpr) :
    (t.renameHeads f).renameHeads g = t.renameHeads (g ∘ f) := by
  induction t with
  | sum variants a ih =>
    simp only [renameHeads_sum, List.map_map, Variant.map_comp_map]
    exact congrArg (sum · a) (Variant.map_congr ih)
  | record fields a ih =>
    simp only [renameHeads_record, List.map_map, Field.map_comp_map]
    exact congrArg (record · a) (Field.map_congr ih)
  | tuple items a ih => simpa using ih
  | container kind element a ih => simp [ih]
  | var name a => simp
  | named name args a ih => simpa using ih

end RenameHeads

end TypeExpr

end Monomorph
