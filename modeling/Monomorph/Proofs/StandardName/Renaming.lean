import Mathlib.Data.List.Nodup
import Monomorph.Proofs.Check.Growth
import Monomorph.Proofs.Check.WellFormed
import Monomorph.StandardName

/-!
# Definitions under new names

To rename the heads of applications acts on every part of an expression in place. If no two definitions
get the same name, none gets the name of a built-in, and built-ins keep theirs, the definitions of a file
are in order under their new names as they were under the old ones: calls between them are the calls there
were before.
-/

namespace Monomorph

namespace TypeExpr

variable (f : String → String) (t : TypeExpr)

theorem children_renameHeads : (t.renameHeads f).children = t.children.map (renameHeads f) := by
  cases t with
  | sum variants a =>
    rw [renameHeads_sum]
    exact children_map_variants _ variants
  | record fields a =>
    rw [renameHeads_record]
    exact children_map_fields _ fields
  | tuple items a => rw [renameHeads_tuple]; rfl
  | container kind element a => rw [renameHeads_container]; rfl
  | var name a => rw [renameHeads_var]; rfl
  | named name args a => rw [renameHeads_named]; rfl

@[simp] theorem annots_renameHeads : (t.renameHeads f).annots = t.annots := by
  cases t <;> simp [annots]

@[simp] theorem var?_renameHeads : (t.renameHeads f).var? = t.var? := by
  cases t <;> simp [var?]

theorem subterms_renameHeads : (t.renameHeads f).subterms = t.subterms.map (renameHeads f) := by
  induction t using children_induct with
  | node t ih =>
    rw [subterms_eq, subterms_eq t, children_renameHeads, List.flatMap_map, List.map_cons, List.map_flatMap,
      List.flatMap_congr ih]

@[simp] theorem varNames_renameHeads : (t.renameHeads f).varNames = t.varNames := by
  rw [varNames, varNames, subterms_renameHeads, List.filterMap_map]
  exact List.filterMap_congr fun node _ => var?_renameHeads f node

theorem application?_renameHeads : (t.renameHeads f).application? =
    t.application?.map fun call => ⟨f call.callee, call.args.map (renameHeads f)⟩ := by
  cases t with
  | named name args a => cases args <;> simp [application?]
  | _ => simp [application?]

/-- The applications in a renamed expression are the renamed applications. -/
theorem applications_renameHeads : (t.renameHeads f).applications =
    t.applications.map fun call => ⟨f call.callee, call.args.map (renameHeads f)⟩ := by
  rw [applications, applications, subterms_renameHeads, List.filterMap_map, List.map_filterMap]
  exact List.filterMap_congr fun node _ => application?_renameHeads f node

@[simp] theorem isGrowing_renameHeads : Check.isGrowing (t.renameHeads f) = Check.isGrowing t := by
  have hiff : Check.isGrowing (t.renameHeads f) = false ↔ Check.isGrowing t = false := by
    simp [isGrowing_eq_false_iff, isVar]
  rw [Bool.eq_iff_iff]
  simpa using not_congr hiff

variable {f t}

/-- An application in a renamed expression is a renamed application. -/
theorem exists_of_named_mem_renameHeads {name : String} {args : List TypeExpr} {a : Annots}
    (h : named name args a ∈ (t.renameHeads f).subterms) :
    ∃ head parts, named head parts a ∈ t.subterms ∧ name = f head ∧ args = parts.map (renameHeads f) := by
  rw [subterms_renameHeads] at h
  obtain ⟨node, hnode, heq⟩ := List.mem_map.1 h
  cases node with
  | named head parts b =>
    rw [renameHeads_named] at heq
    obtain ⟨rfl, rfl, rfl⟩ := named.inj heq
    exact ⟨head, parts, hnode, rfl, rfl⟩
  | _ => simp at heq

end TypeExpr

/-! ## Definitions in order -/

section WellFormed

variable {catalogue : List Builtin} {definitions : List TypeDef} {f : String → String}

theorem HasArity.renameTypes (hbuiltin : ∀ b ∈ catalogue, f b.name = b.name) {name : String} {arity : Nat}
    (h : HasArity catalogue definitions name arity) :
    HasArity catalogue (definitions.map (TypeDef.renameTypes f)) (f name) arity := by
  obtain ⟨d, hd, rfl, harity⟩ | ⟨b, hb, rfl, harity⟩ := h
  · exact Or.inl ⟨d.renameTypes f, List.mem_map_of_mem hd, rfl, harity⟩
  · exact Or.inr ⟨b, hb, (hbuiltin b hb).symm, harity⟩

/-- New names that keep definitions apart from each other and from the built-ins. -/
structure KeepsApart (catalogue : List Builtin) (definitions : List TypeDef) (f : String → String) :
    Prop where
  injective : ∀ {name other}, name ∈ definitions.map TypeDef.name → other ∈ definitions.map TypeDef.name →
    f name = f other → name = other
  builtin : ∀ b ∈ catalogue, f b.name = b.name
  fresh : ∀ d ∈ definitions, f d.name ∉ catalogue.map Builtin.name

/-- A name that is known is the one that its new name is the name of. -/
theorem KeepsApart.eq_of_hasArity (hf : KeepsApart catalogue definitions f) {name : String} {arity : Nat}
    (h : HasArity catalogue definitions name arity) {d : TypeDef} (hd : d ∈ definitions)
    (heq : f name = f d.name) : name = d.name := by
  obtain ⟨e, he, rfl, -⟩ | ⟨b, hb, rfl, -⟩ := h
  · exact hf.injective (List.mem_map_of_mem he) (List.mem_map_of_mem hd) heq
  · rw [hf.builtin b hb] at heq
    exact absurd (heq ▸ List.mem_map_of_mem hb) (hf.fresh d hd)

/-- An application under new names is one under the old ones, and it is one of the same definition. -/
theorem WellFormed.exists_application (h : WellFormed catalogue definitions)
    (hf : KeepsApart catalogue definitions f) {d : TypeDef} (hd : d ∈ definitions) {call : Application}
    (hcall : call ∈ (d.body.renameHeads f).applications) :
    ∃ own ∈ d.body.applications, call = ⟨f own.callee, own.args.map (TypeExpr.renameHeads f)⟩ ∧
      ∀ e ∈ definitions, f own.callee = f e.name → own.callee = e.name := by
  rw [TypeExpr.applications_renameHeads] at hcall
  obtain ⟨own, hown, rfl⟩ := List.mem_map.1 hcall
  refine ⟨own, hown, rfl, fun e he heq => ?_⟩
  obtain ⟨-, a, hnode⟩ := TypeExpr.mem_applications.1 hown
  exact hf.eq_of_hasArity (h.known d hd own.callee own.args a hnode) he heq

/-- Calls between definitions under new names are the calls between them under the old ones. -/
theorem WellFormed.calls_of_renameTypes (h : WellFormed catalogue definitions)
    (hf : KeepsApart catalogue definitions f) {caller : String}
    (hcaller : caller ∈ definitions.map TypeDef.name) {name : String}
    (hcalls : Calls (definitions.map (TypeDef.renameTypes f)) (f caller) name) :
    ∃ callee ∈ definitions.map TypeDef.name, name = f callee ∧ Calls definitions caller callee := by
  obtain ⟨⟨out, hout, hsource, hparams, call, hcall, rfl⟩, target, htarget, hname, htparams⟩ := hcalls
  obtain ⟨d, hd, rfl⟩ := List.mem_map.1 hout
  obtain ⟨e, he, rfl⟩ := List.mem_map.1 htarget
  obtain ⟨own, hown, rfl, hcallee⟩ := h.exists_application hf hd hcall
  obtain rfl := hf.injective (List.mem_map_of_mem hd) hcaller hsource
  have heq : own.callee = e.name := hcallee e he hname.symm
  refine ⟨e.name, List.mem_map_of_mem he, hname.symm, ?_⟩
  exact ⟨⟨d, hd, rfl, hparams, own, hown, heq⟩, e, he, rfl, htparams⟩

/-- A path between definitions under new names is one between them under the old ones. -/
theorem WellFormed.path_of_renameTypes (h : WellFormed catalogue definitions)
    (hf : KeepsApart catalogue definitions f) {start : String}
    (hstart : start ∈ definitions.map TypeDef.name) {name : String}
    (hpath : Relation.ReflTransGen (Calls (definitions.map (TypeDef.renameTypes f))) (f start) name) :
    ∃ old ∈ definitions.map TypeDef.name, name = f old ∧
      Relation.ReflTransGen (Calls definitions) start old := by
  induction hpath with
  | refl => exact ⟨start, hstart, rfl, .refl⟩
  | tail _ hcalls ih =>
    obtain ⟨old, hold, rfl, hpath⟩ := ih
    obtain ⟨next, hnext, hname, hcalls⟩ := h.calls_of_renameTypes hf hold hcalls
    exact ⟨next, hnext, hname, hpath.tail hcalls⟩

/-- Definitions in order are in order under new names. -/
theorem WellFormed.renameTypes (h : WellFormed catalogue definitions)
    (hf : KeepsApart catalogue definitions f) :
    WellFormed catalogue (definitions.map (TypeDef.renameTypes f)) := by
  constructor
  · have hnames : (definitions.map (TypeDef.renameTypes f)).map TypeDef.name =
        (definitions.map TypeDef.name).map f := by
      rw [List.map_map, List.map_map]
      rfl
    rw [hnames]
    exact h.names.map_on fun name hname other hother heq => hf.injective hname hother heq
  · intro out hout
    obtain ⟨d, hd, rfl⟩ := List.mem_map.1 hout
    exact hf.fresh d hd
  · intro out hout
    obtain ⟨d, hd, rfl⟩ := List.mem_map.1 hout
    exact h.params d hd
  · intro out hout
    obtain ⟨d, hd, rfl⟩ := List.mem_map.1 hout
    show (d.body.renameHeads f).varNames ⊆ d.params
    rw [TypeExpr.varNames_renameHeads]
    exact h.bound d hd
  · intro out hout name args a hname
    obtain ⟨d, hd, rfl⟩ := List.mem_map.1 hout
    obtain ⟨head, parts, hmem, rfl, rfl⟩ := TypeExpr.exists_of_named_mem_renameHeads hname
    rw [List.length_map]
    exact (h.known d hd head parts a hmem).renameTypes hf.builtin
  · intro out hout hparams call hcall hcalls hpath arg harg
    obtain ⟨d, hd, rfl⟩ := List.mem_map.1 hout
    obtain ⟨own, hown, rfl, hcallee⟩ := h.exists_application hf hd hcall
    obtain ⟨callee, hmem, hname, hcalls⟩ :=
      h.calls_of_renameTypes hf (List.mem_map_of_mem hd) hcalls
    obtain ⟨e, he, rfl⟩ := List.mem_map.1 hmem
    have heq : own.callee = e.name := hcallee e he hname
    obtain ⟨old, hold, hback, hpath⟩ := h.path_of_renameTypes hf hmem (hname ▸ hpath)
    obtain rfl := hf.injective (List.mem_map_of_mem hd) hold hback
    obtain ⟨part, hpart, rfl⟩ := List.mem_map.1 harg
    rw [TypeExpr.isGrowing_renameHeads]
    exact h.regular d hd hparams own hown (heq ▸ hcalls) (heq ▸ hpath) part hpart

end WellFormed

end Monomorph
