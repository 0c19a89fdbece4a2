import Monomorph.TypeExpr.Traversal

/-!
# The normal form of type expressions

A container can be spelled as the application of its reserved name to one argument. The normal form
of an expression spells every container as a container node; `TypeExpr.IsNormal` says so without
mentioning the function, and `isNormal_normalize` and `normalize_eq_self` connect the two.
-/

namespace Monomorph

namespace TypeExpr

/-- Apply a name to arguments; a reserved container name with one argument gives a container. -/
def apply (name : String) (args : List TypeExpr) (a : Annots) : TypeExpr :=
  match ContainerKind.ofName? name, args with
  | some kind, [element] => container kind element a
  | _, _ => named name args a

/-- Spell every container as a container node. -/
def normalize : TypeExpr → TypeExpr := rebuild { named := apply }

/-- No subexpression applies a reserved container name to one argument. -/
def IsNormal (t : TypeExpr) : Prop :=
  ∀ name args a, named name args a ∈ t.subterms →
    ContainerKind.ofName? name = none ∨ args.length ≠ 1

theorem apply_eq_named {name : String} {args : List TypeExpr} (a : Annots)
    (h : ContainerKind.ofName? name = none ∨ args.length ≠ 1) :
    apply name args a = named name args a := by
  unfold apply
  split
  · next kind element hkind => simp_all
  · rfl

theorem apply_name (kind : ContainerKind) (element : TypeExpr) (a : Annots) :
    apply kind.name [element] a = container kind element a := by
  simp [apply]

theorem isNormal_iff {t : TypeExpr} : t.IsNormal ↔
    (∀ name args a, t = named name args a →
      ContainerKind.ofName? name = none ∨ args.length ≠ 1) ∧ ∀ u ∈ t.children, u.IsNormal := by
  unfold IsNormal
  rw [subterms_eq]
  simp only [List.mem_cons, List.mem_flatMap]
  constructor
  · intro h
    exact ⟨fun name args a heq => h name args a (Or.inl heq.symm),
      fun u hu name args a hmem => h name args a (Or.inr ⟨u, hu, hmem⟩)⟩
  · rintro ⟨hroot, hchildren⟩ name args a (heq | ⟨u, hu, hmem⟩)
    · exact hroot name args a heq.symm
    · exact hchildren u hu name args a hmem

theorem isNormal_apply {name : String} {args : List TypeExpr} {a : Annots}
    (h : ∀ u ∈ args, u.IsNormal) : (apply name args a).IsNormal := by
  unfold apply
  split
  · next kind element _ heq => exact isNormal_iff.2 ⟨by simp, h⟩
  · next hne =>
    refine isNormal_iff.2 ⟨fun name' args' a' heq => ?_, h⟩
    obtain ⟨rfl, rfl, rfl⟩ := named.inj heq
    cases hname : ContainerKind.ofName? name with
    | none => exact Or.inl rfl
    | some kind =>
      refine Or.inr fun hlength => ?_
      obtain ⟨element, helement⟩ := List.length_eq_one_iff.1 hlength
      exact hne kind element hname helement

theorem isNormal_normalize (t : TypeExpr) : t.normalize.IsNormal := by
  induction t with
  | sum variants a ih =>
    rw [normalize, rebuild_sum, isNormal_iff]
    refine ⟨by simp, fun u hu => ?_⟩
    simp only [children, List.mem_filterMap, List.mem_map] at hu
    obtain ⟨_, ⟨v, hv, rfl⟩, hu⟩ := hu
    obtain ⟨t, ht, rfl⟩ := Option.map_eq_some_iff.1 hu
    exact ih v hv t ht
  | record fields a ih =>
    rw [normalize, rebuild_record, isNormal_iff]
    refine ⟨by simp, fun u hu => ?_⟩
    simp only [children, List.map_map, List.mem_map] at hu
    obtain ⟨f, hf, rfl⟩ := hu
    rw [Function.comp_apply, Field.type_map]
    exact ih f hf
  | tuple items a ih =>
    rw [normalize, rebuild_tuple, isNormal_iff]
    refine ⟨by simp, fun u hu => ?_⟩
    obtain ⟨t, ht, rfl⟩ := List.mem_map.1 hu
    exact ih t ht
  | container kind element a ih =>
    rw [normalize, rebuild_container, isNormal_iff]
    refine ⟨by simp, fun u hu => ?_⟩
    rw [List.mem_singleton.1 hu]
    exact ih
  | var name a =>
    rw [normalize, rebuild_var, isNormal_iff]
    exact ⟨by simp, fun u hu => absurd hu List.not_mem_nil⟩
  | named name args a ih =>
    rw [normalize, rebuild_named]
    refine isNormal_apply fun u hu => ?_
    obtain ⟨t, ht, rfl⟩ := List.mem_map.1 hu
    exact ih t ht

/-- An expression in normal form is left as it is. -/
theorem normalize_eq_self {t : TypeExpr} (h : t.IsNormal) : t.normalize = t := by
  induction t with
  | sum variants a ih =>
    have hchild := (isNormal_iff.1 h).2
    rw [normalize, rebuild_sum, Variant.map_congr (g := id), Variant.map_id, List.map_id]
    exact fun v hv t ht => ih v hv t ht (hchild t (List.mem_filterMap.2 ⟨v, hv, ht⟩))
  | record fields a ih =>
    have hchild := (isNormal_iff.1 h).2
    rw [normalize, rebuild_record, Field.map_congr (g := id), Field.map_id, List.map_id]
    exact fun f hf => ih f hf (hchild _ (List.mem_map.2 ⟨f, hf, rfl⟩))
  | tuple items a ih =>
    have hchild := (isNormal_iff.1 h).2
    rw [normalize, rebuild_tuple, List.map_congr_left (g := id), List.map_id]
    exact fun t ht => ih t ht (hchild t ht)
  | container kind element a ih =>
    have hchild := (isNormal_iff.1 h).2
    rw [normalize, rebuild_container]
    exact congrArg (container kind · a) (ih (hchild element (List.mem_singleton_self element)))
  | var name a => rw [normalize, rebuild_var]
  | named name args a ih =>
    obtain ⟨hroot, hchild⟩ := isNormal_iff.1 h
    rw [normalize, rebuild_named, List.map_congr_left (g := id), List.map_id]
    · exact apply_eq_named a (hroot name args a rfl)
    · exact fun t ht => ih t ht (hchild t ht)

instance : DecidablePred IsNormal := fun t =>
  decidable_of_iff (t.normalize = t) ⟨fun h => h ▸ isNormal_normalize t, normalize_eq_self⟩

theorem normalize_normalize (t : TypeExpr) : t.normalize.normalize = t.normalize :=
  normalize_eq_self (isNormal_normalize t)

end TypeExpr

/-- Spell every container in the body as a container node. -/
def TypeDef.normalize (d : TypeDef) : TypeDef := { d with body := d.body.normalize }

end Monomorph
