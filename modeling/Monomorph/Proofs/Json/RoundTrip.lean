import Monomorph.Proofs.Json.Reading
import Monomorph.Proofs.TypeExpr.Variables

/-!
# Definitions there and back

Reading what a definition is written as gives the definition back, node by node and annotation by annotation,
however it is nested. Nothing is folded on the way: an application that could be written as a container is
read as the application that it is.

`TypeExpr.nodeOfJson?_toJson` is one step of the reading, where the expressions inside a node are read back
already; whether a kind may be told by its place plays no role in it.
-/

namespace Monomorph

open Json

/-! ## Annotations -/

theorem Json.toList?_map {α : Type} {write : α → Json} {read : Json → Option α} {values : List α}
    (h : ∀ x ∈ values, read (write x) = some x) : (array (values.map write)).toList? read = some values := by
  rw [toList?_array_eq_some_iff, List.map_map]
  exact List.map_congr_left h

@[simp] theorem Annot.ofJson?_toJson (a : Annot) : Annot.ofJson? a.toJson = some a := by
  obtain ⟨group, key, value⟩ := a
  cases value <;> rfl

namespace Annots

@[simp] theorem ofJson?_toJson (s : Annots) : ofJson? s.toJson = some s := by
  rw [ofJson?, toJson, toList?_map fun a _ => a.ofJson?_toJson, Option.map_some, ofList_toList]

theorem eq_empty_of_isEmpty {s : Annots} (h : s.isEmpty = true) : s = ∅ :=
  ext_mem fun x => by rw [mem_def, mem_def, List.isEmpty_iff.1 h, toList_empty]

theorem lookup_toMember_of_ne {s : Annots} {name : String} (h : name ≠ "annots") :
    s.toMember.lookup name = none := by
  rw [toMember]
  split
  · rfl
  · rw [List.lookup_cons, beq_eq_false_iff_ne.2 h]
    rfl

/-- Annotations are read back from wherever their member stands. -/
theorem ofMember?_toMember {members : List (String × Json)} {s : Annots}
    (h : members.lookup "annots" = s.toMember.lookup "annots") : ofMember? (.object members) = some s := by
  rw [ofMember?, defaulted?, member?, h, toMember]
  cases hempty : s.isEmpty with
  | true => exact congrArg some (eq_empty_of_isEmpty hempty).symm
  | false => exact s.ofJson?_toJson

end Annots

namespace TypeExpr

/-! ## Expressions -/

theorem allToJson_eq_map (items : List TypeExpr) : allToJson items = items.map toJson := by
  induction items with
  | nil => rfl
  | cons t rest ih => rw [allToJson, ih, List.map_cons]

/-- A variant as an object. -/
def variantToJson (v : Variant TypeExpr) : Json :=
  .object (("tag", .string v.tag) :: (v.payload.map fun t => ("payload", t.toJson)).toList)

theorem variantsToJson_eq_map (variants : List (Variant TypeExpr)) :
    variantsToJson variants = variants.map variantToJson := by
  induction variants with
  | nil => rfl
  | cons v rest ih =>
    obtain ⟨tag, payload⟩ := v
    cases payload <;> rw [variantsToJson, ih, List.map_cons] <;> rfl

/-- A record line as an object. -/
def fieldToJson : Field TypeExpr → Json
  | .labelled label t => .object [("kind", .string "field"), ("label", .string label), ("ty", t.toJson)]
  | .inherit t => .object [("kind", .string "inherit"), ("ty", t.toJson)]

theorem fieldsToJson_eq_map (fields : List (Field TypeExpr)) :
    fieldsToJson fields = fields.map fieldToJson := by
  induction fields with
  | nil => rfl
  | cons line rest ih => cases line <;> rw [fieldsToJson, ih, List.map_cons] <;> rfl

variable {read : Json → Option TypeExpr}

theorem toJson_ne_null (t : TypeExpr) : t.toJson ≠ .null := by
  cases t <;> rw [toJson] <;> nofun

theorem variantOfJson?_variantToJson {v : Variant TypeExpr} (h : ∀ t ∈ v.payload, read t.toJson = some t) :
    variantOfJson? read (variantToJson v) = some v := by
  obtain ⟨tag, payload⟩ := v
  cases payload with
  | none => rfl
  | some t =>
    have hpayload : (variantToJson ⟨tag, some t⟩).optional? read "payload" = some (some t) := by
      rw [optional?_of_ne_null rfl t.toJson_ne_null, h t rfl, Option.map_some]
    show ((variantToJson ⟨tag, some t⟩).optional? read "payload").bind _ = _
    rw [hpayload]
    rfl

theorem fieldOfJson?_fieldToJson {line : Field TypeExpr} (h : read line.type.toJson = some line.type) :
    fieldOfJson? read (fieldToJson line) = some line := by
  cases line with
  | labelled label t => exact Option.bind_eq_some_iff.2 ⟨t, h, rfl⟩
  | inherit t => exact Option.bind_eq_some_iff.2 ⟨t, h, rfl⟩

/-- The kind of the root. -/
def nodeKind : TypeExpr → NodeKind
  | sum _ _ => .sum
  | record _ _ => .record
  | tuple _ _ => .tuple
  | container _ _ _ => .container
  | var _ _ => .var
  | named _ _ _ => .named

theorem tagged?_toJson (t : TypeExpr) (byPlace : Bool) :
    t.toJson.tagged? NodeKind.alternatives byPlace = some (t.nodeKind, t.toJson) := by
  cases t <;> rfl

theorem ofMember?_toJson (t : TypeExpr) : Annots.ofMember? t.toJson = some t.annots := by
  cases t <;> exact Annots.ofMember?_toMember rfl

/-- One step of the reading, where what is inside the node is read back. -/
theorem nodeOfJson?_toJson {t : TypeExpr} (byPlace : Bool) (h : ∀ u ∈ t.children, read u.toJson = some u) :
    nodeOfJson? byPlace read t.toJson = some t := by
  simp only [nodeOfJson?, tagged?_toJson, ofMember?_toJson, Option.bind_eq_bind, Option.bind_some]
  cases t with
  | sum variants a =>
    have hvariants : toList? (variantOfJson? read) (array (variantsToJson variants)) = some variants := by
      rw [variantsToJson_eq_map]
      refine toList?_map fun v hv => variantOfJson?_variantToJson fun t ht => ?_
      exact h t (List.mem_filterMap.2 ⟨v, hv, ht⟩)
    exact Option.bind_eq_some_iff.2 ⟨variants, hvariants, rfl⟩
  | record fields a =>
    have hfields : toList? (fieldOfJson? read) (array (fieldsToJson fields)) = some fields := by
      rw [fieldsToJson_eq_map]
      exact toList?_map fun line hline => fieldOfJson?_fieldToJson (h _ (List.mem_map_of_mem hline))
    exact Option.bind_eq_some_iff.2 ⟨fields, hfields, rfl⟩
  | tuple items a =>
    have hitems : toList? read (array (allToJson items)) = some items := by
      rw [allToJson_eq_map]
      exact toList?_map h
    exact Option.bind_eq_some_iff.2 ⟨items, hitems, rfl⟩
  | container kind element a =>
    have helement : read element.toJson = some element := h element List.mem_cons_self
    refine Option.bind_eq_some_iff.2 ⟨kind, kind.ofName?_name, ?_⟩
    exact Option.bind_eq_some_iff.2 ⟨element, helement, rfl⟩
  | var name a => rfl
  | named name args a =>
    have hargs : toList? read (array (allToJson args)) = some args := by
      rw [allToJson_eq_map]
      exact toList?_map h
    refine Option.bind_eq_some_iff.2 ⟨name, rfl, ?_⟩
    exact Option.bind_eq_some_iff.2 ⟨args, hargs, rfl⟩

theorem nested?_toJson (t : TypeExpr) : nested? t.toJson = some t := by
  induction t using children_induct with
  | node t ih =>
    rw [nested?_eq]
    exact nodeOfJson?_toJson true ih

@[simp] theorem ofJson?_toJson (t : TypeExpr) : ofJson? t.toJson = some t := by
  rw [ofJson?_eq]
  exact nodeOfJson?_toJson false fun u _ => nested?_toJson u

end TypeExpr

/-- Reading what a definition is written as gives the definition back. -/
@[simp] theorem TypeDef.ofJson?_toJson (d : TypeDef) : ofJson? d.toJson = some d := by
  have hparams : toList? toText? (array (d.params.map .string)) = some d.params := toList?_map fun _ _ => rfl
  have hannots : Annots.ofMember? d.toJson = some d.annots := by
    refine Annots.ofMember?_toMember ?_
    rw [List.lookup_append, List.lookup_append]
    show ((none : Option Json).or _).or none = _
    rw [Option.none_or, Option.or_none]
  have hbody : d.toJson.required? TypeExpr.ofJson? "body" = some d.body := by
    have hlookup : d.toJson.member? "body" = some d.body.toJson := by
      rw [toJson, member?, List.lookup_append, List.lookup_append, Annots.lookup_toMember_of_ne (by decide)]
      rfl
    rw [required?, hlookup, Option.bind_some, d.body.ofJson?_toJson]
  refine Option.bind_eq_some_iff.2 ⟨d.params, hparams, ?_⟩
  refine Option.bind_eq_some_iff.2 ⟨d.annots, hannots, ?_⟩
  exact Option.bind_eq_some_iff.2 ⟨d.body, hbody, rfl⟩

end Monomorph
