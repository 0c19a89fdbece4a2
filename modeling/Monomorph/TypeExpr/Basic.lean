import Monomorph.Annots

/-!
# Type expressions and definitions

A type expression is a sum, a record, a tuple, a container around one element, a type variable or a
named application; each node carries its own set of annotations. A definition gives a name and
parameters to such an expression.

`TypeExpr.induct` is the induction principle with one hypothesis per direct subexpression, whatever
list it stands in. Equality of expressions is decidable.
-/

namespace Monomorph

/-- The one-argument generics that have a node of their own. -/
inductive ContainerKind where
  | list
  | option
  | nullable
  | shared
  | wrap
deriving DecidableEq, Repr

namespace ContainerKind

/-- Every kind, in the order of the catalogue. -/
def all : List ContainerKind := [list, option, nullable, shared, wrap]

/-- The reserved type name of a kind. -/
def name : ContainerKind → String
  | list => "list"
  | option => "option"
  | nullable => "nullable"
  | shared => "shared"
  | wrap => "wrap"

/-- The kind that reserves a name, if one does. -/
def ofName? (name : String) : Option ContainerKind := all.find? (·.name == name)

@[simp] theorem ofName?_name (kind : ContainerKind) : ofName? kind.name = some kind := by
  cases kind <;> rfl

theorem mem_all (kind : ContainerKind) : kind ∈ all := by cases kind <;> decide

theorem name_injective {k l : ContainerKind} (h : k.name = l.name) : k = l :=
  Option.some.inj (by rw [← ofName?_name k, ← ofName?_name l, h])

theorem ofName?_eq_some {name : String} {kind : ContainerKind} :
    ofName? name = some kind ↔ kind.name = name := by
  constructor
  · intro h
    exact beq_iff_eq.1 (List.find?_some (p := fun k : ContainerKind => k.name == name) h)
  · rintro rfl
    exact ofName?_name kind

end ContainerKind

/-- One alternative of a sum: a tag, with or without a payload. -/
structure Variant (α : Type) where
  tag : String
  payload : Option α
deriving DecidableEq, Repr

/-- One line of a record: a labelled field, or the fields of another record. -/
inductive Field (α : Type) where
  | labelled (label : String) (type : α)
  | inherit (type : α)
deriving DecidableEq, Repr

namespace Variant

variable {α β γ : Type}

/-- Apply a function to the payload of a variant. -/
def map (f : α → β) (v : Variant α) : Variant β := ⟨v.tag, v.payload.map f⟩

@[simp] theorem tag_map (f : α → β) (v : Variant α) : (v.map f).tag = v.tag := rfl

@[simp] theorem payload_map (f : α → β) (v : Variant α) :
    (v.map f).payload = v.payload.map f := rfl

@[simp] theorem map_id : map (id : α → α) = id := by
  funext v
  obtain ⟨tag, payload⟩ := v
  cases payload <;> rfl

@[simp] theorem map_comp_map (g : β → γ) (f : α → β) : map g ∘ map f = map (g ∘ f) := by
  funext v
  obtain ⟨tag, payload⟩ := v
  cases payload <;> rfl

/-- Two functions that agree on every payload of a list give the same variants. -/
theorem map_congr {f g : α → β} {variants : List (Variant α)}
    (h : ∀ v ∈ variants, ∀ t ∈ v.payload, f t = g t) :
    variants.map (map f) = variants.map (map g) :=
  List.map_congr_left fun v hv => by
    obtain ⟨tag, payload⟩ := v
    cases payload with
    | none => rfl
    | some t => simp [map, h _ hv t rfl]

end Variant

namespace Field

variable {α β γ : Type}

/-- The type of a record line. -/
def type : Field α → α
  | labelled _ t => t
  | inherit t => t

/-- Apply a function to the type of a record line. -/
def map (f : α → β) : Field α → Field β
  | labelled label t => labelled label (f t)
  | inherit t => inherit (f t)

@[simp] theorem type_map (f : α → β) (line : Field α) : (line.map f).type = f line.type := by
  cases line <;> rfl

@[simp] theorem map_id : map (id : α → α) = id := by
  funext line
  cases line <;> rfl

@[simp] theorem map_comp_map (g : β → γ) (f : α → β) : map g ∘ map f = map (g ∘ f) := by
  funext line
  cases line <;> rfl

/-- Two functions that agree on every type of a list give the same record lines. -/
theorem map_congr {f g : α → β} {fields : List (Field α)}
    (h : ∀ line ∈ fields, f line.type = g line.type) :
    fields.map (map f) = fields.map (map g) :=
  List.map_congr_left fun line hmem => by
    cases line <;> simp [map] <;> exact h _ hmem

end Field

/-- A type expression. -/
inductive TypeExpr where
  | sum (variants : List (Variant TypeExpr)) (annots : Annots)
  | record (fields : List (Field TypeExpr)) (annots : Annots)
  | tuple (items : List TypeExpr) (annots : Annots)
  | container (kind : ContainerKind) (element : TypeExpr) (annots : Annots)
  | var (name : String) (annots : Annots)
  | named (name : String) (args : List TypeExpr) (annots : Annots)
deriving Repr

namespace TypeExpr

instance : Inhabited TypeExpr := ⟨named "unit" [] ∅⟩

/-- The name of a parameterless type. -/
def atom (name : String) : TypeExpr := named name [] ∅

/-- The annotations of the root. -/
def annots : TypeExpr → Annots
  | sum _ a | record _ a | tuple _ a | container _ _ a | var _ a | named _ _ a => a

/-- Change the annotations of the root. -/
def mapAnnots (f : Annots → Annots) : TypeExpr → TypeExpr
  | sum vs a => sum vs (f a)
  | record fs a => record fs (f a)
  | tuple items a => tuple items (f a)
  | container kind element a => container kind element (f a)
  | var name a => var name (f a)
  | named name args a => named name args (f a)

/-- Add annotations to those of the root. -/
def annotate (t : TypeExpr) (extra : Annots) : TypeExpr := t.mapAnnots (· ∪ extra)

/-- The name of a variable, annotated or not. -/
def var? : TypeExpr → Option String
  | var name _ => some name
  | _ => none

/-- Whether the expression is a variable, annotated or not. -/
def isVar (t : TypeExpr) : Bool := t.var?.isSome

/-- Whether the root is an application of `name`, to any arguments. -/
def isNamed (name : String) : TypeExpr → Bool
  | named head _ _ => head == name
  | _ => false

@[simp] theorem annots_annotate (t : TypeExpr) (extra : Annots) :
    (t.annotate extra).annots = t.annots ∪ extra := by cases t <;> rfl

@[simp] theorem annotate_empty (t : TypeExpr) : t.annotate ∅ = t := by cases t <;> rfl

theorem annotate_annotate (t : TypeExpr) (x y : Annots) :
    (t.annotate x).annotate y = t.annotate (x ∪ y) := by
  cases t <;> simp [annotate, mapAnnots, Annots.union_assoc]

@[simp] theorem var?_annotate (t : TypeExpr) (extra : Annots) :
    (t.annotate extra).var? = t.var? := by cases t <;> rfl

theorem var?_eq_some {t : TypeExpr} {name : String} :
    t.var? = some name ↔ ∃ a, t = var name a := by
  cases t <;> simp [var?]

/-- Induction over type expressions, with a hypothesis for every direct subexpression. -/
@[elab_as_elim, induction_eliminator]
theorem induct {motive : TypeExpr → Prop}
    (sum : ∀ variants a, (∀ v ∈ variants, ∀ t ∈ v.payload, motive t) → motive (sum variants a))
    (record : ∀ fields a, (∀ f ∈ fields, motive f.type) → motive (record fields a))
    (tuple : ∀ items a, (∀ t ∈ items, motive t) → motive (tuple items a))
    (container : ∀ kind element a, motive element → motive (container kind element a))
    (var : ∀ name a, motive (var name a))
    (named : ∀ name args a, (∀ t ∈ args, motive t) → motive (named name args a))
    (t : TypeExpr) : motive t :=
  TypeExpr.rec (motive_1 := motive)
    (motive_2 := fun variants => ∀ v ∈ variants, ∀ t ∈ v.payload, motive t)
    (motive_3 := fun fields => ∀ f ∈ fields, motive f.type)
    (motive_4 := fun items => ∀ t ∈ items, motive t)
    (motive_5 := fun v => ∀ t ∈ v.payload, motive t)
    (motive_6 := fun f => motive f.type)
    (motive_7 := fun payload => ∀ t ∈ payload, motive t)
    sum record tuple container var named
    (fun _ h => absurd h List.not_mem_nil)
    (fun _ _ head tail => List.forall_mem_cons.2 ⟨head, tail⟩)
    (fun _ h => absurd h List.not_mem_nil)
    (fun _ _ head tail => List.forall_mem_cons.2 ⟨head, tail⟩)
    (fun _ h => absurd h List.not_mem_nil)
    (fun _ _ head tail => List.forall_mem_cons.2 ⟨head, tail⟩)
    (fun _ _ payload => payload)
    (fun _ _ type => type)
    (fun _ type => type)
    (fun _ h => nomatch h)
    (fun _ value _ h => Option.some.inj h ▸ value)
    t

mutual

/-- Whether two expressions are the same, node by node. -/
def beq : TypeExpr → TypeExpr → Bool
  | sum vs a, sum ws b => beqVariants vs ws && a == b
  | record fs a, record gs b => beqFields fs gs && a == b
  | tuple ts a, tuple us b => beqAll ts us && a == b
  | container k t a, container l u b => k == l && beq t u && a == b
  | var x a, var y b => x == y && a == b
  | named x ts a, named y us b => x == y && beqAll ts us && a == b
  | _, _ => false

/-- `beq` over two lists of variants. -/
def beqVariants : List (Variant TypeExpr) → List (Variant TypeExpr) → Bool
  | [], [] => true
  | ⟨x, none⟩ :: vs, ⟨y, none⟩ :: ws => x == y && beqVariants vs ws
  | ⟨x, some t⟩ :: vs, ⟨y, some u⟩ :: ws => x == y && beq t u && beqVariants vs ws
  | _, _ => false

/-- `beq` over two lists of record lines. -/
def beqFields : List (Field TypeExpr) → List (Field TypeExpr) → Bool
  | [], [] => true
  | .labelled x t :: fs, .labelled y u :: gs => x == y && beq t u && beqFields fs gs
  | .inherit t :: fs, .inherit u :: gs => beq t u && beqFields fs gs
  | _, _ => false

/-- `beq` over two lists of expressions. -/
def beqAll : List TypeExpr → List TypeExpr → Bool
  | [], [] => true
  | t :: ts, u :: us => beq t u && beqAll ts us
  | _, _ => false

end

theorem beqAll_iff {ts us : List TypeExpr} (h : ∀ t ∈ ts, ∀ u, beq t u = true ↔ t = u) :
    beqAll ts us = true ↔ ts = us := by
  induction ts generalizing us with
  | nil => cases us <;> simp [beqAll]
  | cons t ts ih =>
    obtain ⟨ht, hts⟩ := List.forall_mem_cons.1 h
    cases us <;> simp [beqAll, ht, ih hts]

theorem beqFields_iff {fs gs : List (Field TypeExpr)}
    (h : ∀ f ∈ fs, ∀ u, beq f.type u = true ↔ f.type = u) : beqFields fs gs = true ↔ fs = gs := by
  induction fs generalizing gs with
  | nil => cases gs <;> simp [beqFields]
  | cons f fs ih =>
    obtain ⟨hf, hfs⟩ := List.forall_mem_cons.1 h
    cases gs with
    | nil => cases f <;> simp [beqFields]
    | cons g gs => cases f <;> cases g <;> simp_all [beqFields, Field.type]

theorem beqVariants_iff {vs ws : List (Variant TypeExpr)}
    (h : ∀ v ∈ vs, ∀ t ∈ v.payload, ∀ u, beq t u = true ↔ t = u) :
    beqVariants vs ws = true ↔ vs = ws := by
  induction vs generalizing ws with
  | nil => cases ws <;> simp [beqVariants]
  | cons v vs ih =>
    obtain ⟨hv, hvs⟩ := List.forall_mem_cons.1 h
    obtain ⟨x, p⟩ := v
    cases ws with
    | nil => cases p <;> simp [beqVariants]
    | cons w ws =>
      obtain ⟨y, q⟩ := w
      have tail : beqVariants vs ws = true ↔ vs = ws := ih hvs
      cases p <;> cases q <;> simp_all [beqVariants]

theorem beq_iff (t u : TypeExpr) : beq t u = true ↔ t = u := by
  induction t generalizing u with
  | sum vs a ih => cases u <;> simp [beq, beqVariants_iff ih]
  | record fs a ih => cases u <;> simp [beq, beqFields_iff ih]
  | tuple ts a ih => cases u <;> simp [beq, beqAll_iff ih]
  | container k t a ih => cases u <;> simp [beq, ih, and_assoc]
  | var x a => cases u <;> simp [beq]
  | named x ts a ih => cases u <;> simp [beq, beqAll_iff ih, and_assoc]

instance : DecidableEq TypeExpr := fun t u => decidable_of_iff _ (beq_iff t u)

end TypeExpr

/-- A type definition: `type params name annots = body`. -/
structure TypeDef where
  name : String
  params : List String
  annots : Annots
  body : TypeExpr
deriving DecidableEq, Repr

/-- The number of parameters. -/
def TypeDef.arity (d : TypeDef) : Nat := d.params.length

end Monomorph
