import Monomorph.TypeExpr.Basic

/-!
# Traversals of type expressions

Two ways to go through an expression are enough for every operation of this library. `rebuild`
replaces variables, containers and applications by pure functions of their parts, bottom up;
`traverse` does the same with effects, left to right, and shows the head of an application to the
visitor before its arguments. All other nodes are kept, with their tags, labels and annotations.

`subterms` lists an expression and everything below it in the order of reading. The equations
`rebuild_sum`, `traverse_sum`, … and `subterms_eq` state each of the three over the lists of a node,
so that proofs never mention the recursion through those lists.
-/

namespace Monomorph

/-- Apply an action to the payload of a variant. -/
def Variant.mapM {m : Type → Type} [Monad m] {α β : Type} (f : α → m β) :
    Variant α → m (Variant β)
  | ⟨tag, none⟩ => return ⟨tag, none⟩
  | ⟨tag, some t⟩ => do return ⟨tag, some (← f t)⟩

/-- Apply an action to the type of a record line. -/
def Field.mapM {m : Type → Type} [Monad m] {α β : Type} (f : α → m β) : Field α → m (Field β)
  | .labelled label t => do return .labelled label (← f t)
  | .inherit t => do return .inherit (← f t)

namespace TypeExpr

/-- What becomes of the nodes that carry a name. -/
structure Rebuild where
  var : String → Annots → TypeExpr := .var
  container : ContainerKind → TypeExpr → Annots → TypeExpr := .container
  named : String → List TypeExpr → Annots → TypeExpr := .named

mutual

/-- Rebuild an expression from its leaves. -/
def rebuild (r : Rebuild) : TypeExpr → TypeExpr
  | sum variants a => sum (rebuildVariants r variants) a
  | record fields a => record (rebuildFields r fields) a
  | tuple items a => tuple (rebuildAll r items) a
  | container kind element a => r.container kind (rebuild r element) a
  | var name a => r.var name a
  | named name args a => r.named name (rebuildAll r args) a

/-- `rebuild` on the payloads of a list of variants. -/
def rebuildVariants (r : Rebuild) : List (Variant TypeExpr) → List (Variant TypeExpr)
  | [] => []
  | ⟨tag, none⟩ :: rest => ⟨tag, none⟩ :: rebuildVariants r rest
  | ⟨tag, some t⟩ :: rest => ⟨tag, some (rebuild r t)⟩ :: rebuildVariants r rest

/-- `rebuild` on the types of a list of record lines. -/
def rebuildFields (r : Rebuild) : List (Field TypeExpr) → List (Field TypeExpr)
  | [] => []
  | .labelled label t :: rest => .labelled label (rebuild r t) :: rebuildFields r rest
  | .inherit t :: rest => .inherit (rebuild r t) :: rebuildFields r rest

/-- `rebuild` on a list of expressions. -/
def rebuildAll (r : Rebuild) : List TypeExpr → List TypeExpr
  | [] => []
  | t :: rest => rebuild r t :: rebuildAll r rest

end

section Rebuild

variable (r : Rebuild)

theorem rebuildAll_eq_map (items : List TypeExpr) : rebuildAll r items = items.map (rebuild r) := by
  induction items with
  | nil => rfl
  | cons t rest ih => simp [rebuildAll, ih]

theorem rebuildFields_eq_map (fields : List (Field TypeExpr)) :
    rebuildFields r fields = fields.map (Field.map (rebuild r)) := by
  induction fields with
  | nil => rfl
  | cons f rest ih => cases f <;> simp [rebuildFields, Field.map, ih]

theorem rebuildVariants_eq_map (variants : List (Variant TypeExpr)) :
    rebuildVariants r variants = variants.map (Variant.map (rebuild r)) := by
  induction variants with
  | nil => rfl
  | cons v rest ih =>
    obtain ⟨tag, payload⟩ := v
    cases payload <;> simp [rebuildVariants, Variant.map, ih]

@[simp] theorem rebuild_sum (variants : List (Variant TypeExpr)) (a : Annots) :
    rebuild r (sum variants a) = sum (variants.map (Variant.map (rebuild r))) a := by
  rw [rebuild, rebuildVariants_eq_map]

@[simp] theorem rebuild_record (fields : List (Field TypeExpr)) (a : Annots) :
    rebuild r (record fields a) = record (fields.map (Field.map (rebuild r))) a := by
  rw [rebuild, rebuildFields_eq_map]

@[simp] theorem rebuild_tuple (items : List TypeExpr) (a : Annots) :
    rebuild r (tuple items a) = tuple (items.map (rebuild r)) a := by
  rw [rebuild, rebuildAll_eq_map]

@[simp] theorem rebuild_container (kind : ContainerKind) (element : TypeExpr) (a : Annots) :
    rebuild r (container kind element a) = r.container kind (rebuild r element) a := by
  rw [rebuild]

@[simp] theorem rebuild_var (name : String) (a : Annots) :
    rebuild r (var name a) = r.var name a := by
  rw [rebuild]

@[simp] theorem rebuild_named (name : String) (args : List TypeExpr) (a : Annots) :
    rebuild r (named name args a) = r.named name (args.map (rebuild r)) a := by
  rw [rebuild, rebuildAll_eq_map]

end Rebuild

/-- What a traversal does at the nodes that carry a name. The head of an application is visited
before its arguments, the application itself after them. -/
structure Visitor (m : Type → Type) where
  var : String → Annots → m TypeExpr
  container : ContainerKind → TypeExpr → Annots → m TypeExpr
  head : String → m String
  named : String → List TypeExpr → Annots → m TypeExpr

section Traverse

variable {m : Type → Type} [Monad m]

mutual

/-- Go through an expression from left to right, parts before the whole. -/
def traverse (v : Visitor m) : TypeExpr → m TypeExpr
  | sum variants a => do return sum (← traverseVariants v variants) a
  | record fields a => do return record (← traverseFields v fields) a
  | tuple items a => do return tuple (← traverseAll v items) a
  | container kind element a => do v.container kind (← traverse v element) a
  | var name a => v.var name a
  | named name args a => do
    let head ← v.head name
    v.named head (← traverseAll v args) a

/-- `traverse` on the payloads of a list of variants. -/
def traverseVariants (v : Visitor m) : List (Variant TypeExpr) → m (List (Variant TypeExpr))
  | [] => return []
  | ⟨tag, none⟩ :: rest => do return ⟨tag, none⟩ :: (← traverseVariants v rest)
  | ⟨tag, some t⟩ :: rest => do
    let t ← traverse v t
    return ⟨tag, some t⟩ :: (← traverseVariants v rest)

/-- `traverse` on the types of a list of record lines. -/
def traverseFields (v : Visitor m) : List (Field TypeExpr) → m (List (Field TypeExpr))
  | [] => return []
  | .labelled label t :: rest => do
    let t ← traverse v t
    return .labelled label t :: (← traverseFields v rest)
  | .inherit t :: rest => do
    let t ← traverse v t
    return .inherit t :: (← traverseFields v rest)

/-- `traverse` on a list of expressions. -/
def traverseAll (v : Visitor m) : List TypeExpr → m (List TypeExpr)
  | [] => return []
  | t :: rest => do
    let t ← traverse v t
    return t :: (← traverseAll v rest)

end

variable (v : Visitor m)

theorem traverse_container (kind : ContainerKind) (element : TypeExpr) (a : Annots) :
    traverse v (container kind element a) =
      (do v.container kind (← traverse v element) a) := by
  rw [traverse]

theorem traverse_var (name : String) (a : Annots) :
    traverse v (var name a) = v.var name a := by
  rw [traverse]

variable [LawfulMonad m]

theorem traverseAll_eq_mapM (items : List TypeExpr) :
    traverseAll v items = items.mapM (traverse v) := by
  induction items with
  | nil => simp [traverseAll]
  | cons t rest ih => simp [traverseAll, ih]

theorem traverseFields_eq_mapM (fields : List (Field TypeExpr)) :
    traverseFields v fields = fields.mapM (Field.mapM (traverse v)) := by
  induction fields with
  | nil => simp [traverseFields]
  | cons f rest ih => cases f <;> simp [traverseFields, Field.mapM, ih]

theorem traverseVariants_eq_mapM (variants : List (Variant TypeExpr)) :
    traverseVariants v variants = variants.mapM (Variant.mapM (traverse v)) := by
  induction variants with
  | nil => simp [traverseVariants]
  | cons x rest ih =>
    obtain ⟨tag, payload⟩ := x
    cases payload <;> simp [traverseVariants, Variant.mapM, ih]

theorem traverse_sum (variants : List (Variant TypeExpr)) (a : Annots) :
    traverse v (sum variants a) =
      (do return sum (← variants.mapM (Variant.mapM (traverse v))) a) := by
  rw [traverse, traverseVariants_eq_mapM]

theorem traverse_record (fields : List (Field TypeExpr)) (a : Annots) :
    traverse v (record fields a) =
      (do return record (← fields.mapM (Field.mapM (traverse v))) a) := by
  rw [traverse, traverseFields_eq_mapM]

theorem traverse_tuple (items : List TypeExpr) (a : Annots) :
    traverse v (tuple items a) = (do return tuple (← items.mapM (traverse v)) a) := by
  rw [traverse, traverseAll_eq_mapM]

theorem traverse_named (name : String) (args : List TypeExpr) (a : Annots) :
    traverse v (named name args a) =
      (do let head ← v.head name; v.named head (← args.mapM (traverse v)) a) := by
  rw [traverse, traverseAll_eq_mapM]

end Traverse

mutual

/-- The expression and all expressions inside it, in the order of reading. -/
def subterms : TypeExpr → List TypeExpr
  | sum variants a => sum variants a :: subtermsOfVariants variants
  | record fields a => record fields a :: subtermsOfFields fields
  | tuple items a => tuple items a :: subtermsOfAll items
  | container kind element a => container kind element a :: subterms element
  | var name a => [var name a]
  | named name args a => named name args a :: subtermsOfAll args

/-- `subterms` of the payloads of a list of variants. -/
def subtermsOfVariants : List (Variant TypeExpr) → List TypeExpr
  | [] => []
  | ⟨_, none⟩ :: rest => subtermsOfVariants rest
  | ⟨_, some t⟩ :: rest => subterms t ++ subtermsOfVariants rest

/-- `subterms` of the types of a list of record lines. -/
def subtermsOfFields : List (Field TypeExpr) → List TypeExpr
  | [] => []
  | .labelled _ t :: rest => subterms t ++ subtermsOfFields rest
  | .inherit t :: rest => subterms t ++ subtermsOfFields rest

/-- `subterms` of a list of expressions. -/
def subtermsOfAll : List TypeExpr → List TypeExpr
  | [] => []
  | t :: rest => subterms t ++ subtermsOfAll rest

end

/-- The direct subexpressions, from left to right. -/
def children : TypeExpr → List TypeExpr
  | sum variants _ => variants.filterMap Variant.payload
  | record fields _ => fields.map Field.type
  | tuple items _ => items
  | container _ element _ => [element]
  | var _ _ => []
  | named _ args _ => args

theorem subtermsOfAll_eq_flatMap (items : List TypeExpr) :
    subtermsOfAll items = items.flatMap subterms := by
  induction items with
  | nil => rfl
  | cons t rest ih => simp [subtermsOfAll, ih]

theorem subtermsOfFields_eq_flatMap (fields : List (Field TypeExpr)) :
    subtermsOfFields fields = (fields.map Field.type).flatMap subterms := by
  induction fields with
  | nil => rfl
  | cons f rest ih => cases f <;> simp [subtermsOfFields, Field.type, ih]

theorem subtermsOfVariants_eq_flatMap (variants : List (Variant TypeExpr)) :
    subtermsOfVariants variants = (variants.filterMap Variant.payload).flatMap subterms := by
  induction variants with
  | nil => rfl
  | cons v rest ih =>
    obtain ⟨tag, payload⟩ := v
    cases payload <;> simp [subtermsOfVariants, ih]

/-- An expression comes before what its children list. -/
theorem subterms_eq (t : TypeExpr) : t.subterms = t :: t.children.flatMap subterms := by
  cases t <;> simp [subterms, children, subtermsOfAll_eq_flatMap, subtermsOfFields_eq_flatMap,
    subtermsOfVariants_eq_flatMap]

theorem self_mem_subterms (t : TypeExpr) : t ∈ t.subterms := by
  rw [subterms_eq]
  exact List.mem_cons_self

/-- The names of the variables, occurrence by occurrence. -/
def varNames (t : TypeExpr) : List String := t.subterms.filterMap var?

/-- Whether a variable occurs. -/
def isOpen (t : TypeExpr) : Bool := t.subterms.any isVar

end TypeExpr

end Monomorph
