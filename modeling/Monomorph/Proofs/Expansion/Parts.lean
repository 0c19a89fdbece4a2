import Monomorph.Proofs.Expansion.Demand

/-!
# What substitution leaves of each node

Where a node is neither a variable nor a use, substitution keeps the node and passes to its children. So
what can be said of a node without a look at what is below it is kept by substitution, if it is said of
all that takes the place of variables and uses. `TypeExpr.forall_mem_subterms_substituteBy` is this
argument, once for all properties.

The arguments of demanded uses come about by substitution and renaming and in no other way, and
`Demanded.forall_args` is the induction for what both keep.
-/

namespace Monomorph

namespace TypeExpr

/-- Apply a function to the children of a node and keep the node. -/
def mapChildren (f : TypeExpr → TypeExpr) : TypeExpr → TypeExpr
  | sum variants a => sum (variants.map (Variant.map f)) a
  | record fields a => record (fields.map (Field.map f)) a
  | tuple items a => tuple (items.map f) a
  | container kind element a => container kind (f element) a
  | var name a => var name a
  | named name args a => named name (args.map f) a

section MapChildren

variable (f : TypeExpr → TypeExpr) (t : TypeExpr)

@[simp] theorem children_mapChildren : (t.mapChildren f).children = t.children.map f := by
  cases t with
  | sum variants a => exact children_map_variants f variants
  | record fields a => exact children_map_fields f fields
  | _ => rfl

@[simp] theorem annots_mapChildren : (t.mapChildren f).annots = t.annots := by cases t <;> rfl

@[simp] theorem var?_mapChildren : (t.mapChildren f).var? = t.var? := by cases t <;> rfl

/-- The application at a node has the arguments that the function gives. -/
@[simp] theorem call?_mapChildren :
    (t.mapChildren f).call? = t.call?.map fun call => ⟨call.callee, call.args.map f⟩ := by
  cases t with
  | named name args a => cases args <;> rfl
  | _ => rfl

end MapChildren

/-- What holds of every node of an expression that a function builds node by node: wherever it does more
than to pass to the children, the property has to hold of all that it puts there. -/
theorem forall_mem_subterms_of_step {F : TypeExpr → TypeExpr} {P : TypeExpr → Prop} {t : TypeExpr}
    (h : ∀ node ∈ t.subterms, (∀ u ∈ (F node).subterms, P u) ∨
      F node = node.mapChildren F ∧ P (node.mapChildren F)) : ∀ u ∈ (F t).subterms, P u := by
  induction t using children_induct with
  | node t ih =>
    obtain hall | ⟨heq, hroot⟩ := h t (self_mem_subterms t)
    · exact hall
    · rw [heq, forall_mem_subterms, children_mapChildren]
      refine ⟨hroot, fun c hc => ?_⟩
      obtain ⟨part, hpart, rfl⟩ := List.mem_map.1 hc
      exact ih part hpart fun node hnode => h node (subterms_child hpart hnode)

/-- What holds of all nodes of an expression holds with more annotations at the root, if annotations do
not matter to it there. -/
theorem forall_mem_subterms_annotate {P : TypeExpr → Prop} {t : TypeExpr} {a : Annots}
    (h : ∀ u ∈ t.subterms, P u) (hannotate : P t → P (t.annotate a)) :
    ∀ u ∈ (t.annotate a).subterms, P u := by
  obtain ⟨hroot, hchildren⟩ := forall_mem_subterms.1 h
  rw [forall_mem_subterms, children_annotate]
  exact ⟨hannotate hroot, hchildren⟩

/-- The parts of a renamed expression are the renamed parts. -/
theorem subterms_renameVars (f : String → String) (t : TypeExpr) :
    (t.renameVars f).subterms = t.subterms.map (renameVars f) := by
  induction t using children_induct with
  | node t ih =>
    rw [subterms_eq, subterms_eq t, children_renameVars, List.flatMap_map, List.map_cons, List.map_flatMap,
      List.flatMap_congr ih]

section Substitution

variable {result : Use → TypeExpr} {env : Environment} {t : TypeExpr}

theorem substituteBy_eq_mapChildren (hvar : t.var? = none) (huse : t.use? result env = none) :
    t.substituteBy result env = t.mapChildren (substituteBy result env) := by
  cases t with
  | sum variants a => exact substituteBy_sum result env variants a
  | record fields a => exact substituteBy_record result env fields a
  | tuple items a => exact substituteBy_tuple result env items a
  | container kind element a =>
    have helement : (element.substituteBy result env).isVar = true := by
      by_contra hopen
      simp [use?, hopen] at huse
    rw [substituteBy_container, if_pos helement]
    rfl
  | var name a => cases hvar
  | named name args a =>
    have hargs : (args.map (substituteBy result env)).all isVar = true := by
      by_contra hopen
      simp only [use?, hopen] at huse
      cases huse
    rw [substituteBy_named, if_pos hargs]
    rfl

/-- Substitution gives for a use what the instantiator returns. -/
theorem substituteBy_of_use? {u : Use} (h : t.use? result env = some u) :
    t.substituteBy result env = result u := by
  cases t with
  | container kind element a =>
    simp only [use?] at h
    split at h
    · cases h
    · next hopen =>
      obtain rfl := Option.some.inj h
      rw [substituteBy_container, if_neg hopen]
  | named name args a =>
    simp only [use?] at h
    split at h
    · cases h
    · next hopen =>
      obtain rfl := Option.some.inj h
      rw [substituteBy_named, if_neg hopen]
  | _ => cases h

/-- An application that is no use has nothing but variables for arguments. -/
theorem isVar_of_use?_eq_none (h : t.use? result env = none) {call : Application}
    (hcall : t.call? = some call) : ∀ arg ∈ call.args, (arg.substituteBy result env).isVar = true := by
  cases t with
  | container kind element a =>
    obtain rfl := Option.some.inj hcall
    intro arg harg
    rw [List.mem_singleton.1 harg]
    by_contra hopen
    simp [use?, hopen] at h
  | named name args a =>
    cases args with
    | nil => cases hcall
    | cons first rest =>
      obtain rfl := Option.some.inj hcall
      have hall : ((first :: rest).map (substituteBy result env)).all isVar = true := by
        by_contra hopen
        simp only [use?, hopen] at h
        cases h
      intro arg harg
      exact List.all_eq_true.1 hall _ (List.mem_map_of_mem harg)
  | _ => cases hcall

/-- What holds of all that takes the place of variables and uses, and of the other nodes above what their
children become, holds after substitution. -/
theorem forall_mem_subterms_substituteBy {P : TypeExpr → Prop}
    (hvar : ∀ name a, var name a ∈ t.subterms → ∀ u ∈ (env.occurrence name a).subterms, P u)
    (huse : ∀ v ∈ t.uses result env, ∀ u ∈ (result v).subterms, P u)
    (hnode : ∀ node ∈ t.subterms, node.var? = none → node.use? result env = none →
      P (node.mapChildren (substituteBy result env))) :
    ∀ u ∈ (t.substituteBy result env).subterms, P u := by
  refine forall_mem_subterms_of_step fun node hmem => ?_
  cases hname : node.var? with
  | some name =>
    obtain ⟨a, rfl⟩ := var?_eq_some.1 hname
    rw [substituteBy_var]
    exact Or.inl (hvar name a hmem)
  | none =>
    cases happlied : node.use? result env with
    | some v =>
      rw [substituteBy_of_use? happlied]
      exact Or.inl (huse v (List.mem_filterMap.2 ⟨node, mem_postorder.2 hmem, happlied⟩))
    | none => exact Or.inr ⟨substituteBy_eq_mapChildren hname happlied, hnode node hmem hname happlied⟩

theorem replaceVars_eq_mapChildren (hvar : t.var? = none) :
    t.replaceVars env = t.mapChildren (replaceVars env) := by
  cases t with
  | var name a => cases hvar
  | _ => simp [mapChildren]

/-- What holds of all that takes the place of variables, and of the other nodes above what their children
become, holds after the replacement of variables. -/
theorem forall_mem_subterms_replaceVars {P : TypeExpr → Prop}
    (hvar : ∀ name a, var name a ∈ t.subterms → ∀ u ∈ (env.occurrence name a).subterms, P u)
    (hnode : ∀ node ∈ t.subterms, node.var? = none → P (node.mapChildren (replaceVars env))) :
    ∀ u ∈ (t.replaceVars env).subterms, P u := by
  refine forall_mem_subterms_of_step fun node hmem => ?_
  cases hname : node.var? with
  | some name =>
    obtain ⟨a, rfl⟩ := var?_eq_some.1 hname
    rw [replaceVars_var]
    exact Or.inl (hvar name a hmem)
  | none => exact Or.inr ⟨replaceVars_eq_mapChildren hname, hnode node hmem hname⟩

end Substitution

end TypeExpr

/-! ## The arguments of demanded uses -/

theorem Environment.occurrence_induct {motive : TypeExpr → Prop} {env : Environment} {name : String}
    {a : Annots} (free : motive (.var name a)) (bound : ∀ t, env name = some t → motive (t.annotate a)) :
    motive (env.occurrence name a) := by
  cases henv : env name with
  | none =>
    rw [occurrence_of_eq_none henv]
    exact free
  | some t =>
    rw [occurrence_of_eq_some henv]
    exact bound t henv

/-- The arguments of a use are parts of the expression after substitution. -/
theorem TypeExpr.exists_part_of_mem_uses {result : Use → TypeExpr} {env : Environment} {t : TypeExpr}
    {u : Use} (hu : u ∈ t.uses result env) {arg : TypeExpr} (harg : arg ∈ u.args) :
    ∃ part ∈ t.subterms, arg = part.substituteBy result env := by
  obtain ⟨node, hnode, call, hcall, rfl⟩ := mem_uses hu
  obtain ⟨part, hpart, rfl⟩ := List.mem_map.1 harg
  exact ⟨part, mem_subterms_of_call hnode hcall part hpart, rfl⟩

theorem Use.forall_wanted {T : TypeExpr → Prop} (hrename : ∀ {t f}, T t → T (t.renameVars f)) {u : Use}
    (h : ∀ arg ∈ u.args, T arg) : ∀ arg ∈ u.wanted.args, T arg := by
  intro arg harg
  rw [args_wanted] at harg
  obtain ⟨part, hpart, rfl⟩ := List.mem_map.1 harg
  exact hrename (h part hpart)

/-- What substitution in the definitions of some generics and renaming keep holds of the arguments of
demanded uses, where these are generics that only call each other. -/
theorem Demanded.forall_args {library : Library} {roots : List Use} {R : String → Prop}
    {T : TypeExpr → Prop}
    (hcalls : ∀ {name d}, R name → library.find name = some d → ∀ call ∈ d.body.calls, R call.callee)
    (hroots : ∀ u ∈ roots, ∃ name d, R name ∧ library.find name = some d ∧
      u ∈ d.body.uses Use.reference Environment.empty)
    (hrename : ∀ {t f}, T t → T (t.renameVars f))
    (hsubstitute : ∀ {name d env}, R name → library.find name = some d →
      (∀ {x v}, env x = some v → T v) → ∀ part ∈ d.body.subterms, T (part.substituteBy Use.reference env))
    {u : Use} (h : Demanded library roots u) : R u.generic ∧ ∀ arg ∈ u.args, T arg := by
  have huses : ∀ {name d env v}, R name → library.find name = some d → (∀ {x w}, env x = some w → T w) →
      v ∈ d.body.uses Use.reference env → R v.generic ∧ ∀ arg ∈ v.args, T arg := by
    intro name d env v hname hd henv hv
    constructor
    · obtain ⟨node, hnode, call, hcall, rfl⟩ := TypeExpr.mem_uses hv
      exact hcalls hname hd call (List.mem_filterMap.2 ⟨node, hnode, hcall⟩)
    · intro arg harg
      obtain ⟨part, hpart, rfl⟩ := TypeExpr.exists_part_of_mem_uses hv harg
      exact hsubstitute hname hd henv part hpart
  induction h with
  | @root u hroot =>
    obtain ⟨name, d, hname, hd, hu⟩ := hroots u hroot
    refine huses hname hd (fun hbind => ?_) hu
    cases hbind
  | nested _ hdeclared hnested ih =>
    refine huses ih.1 hdeclared (fun hbind => ?_) (Use.mem_uses_of_nested hnested)
    exact Use.forall_wanted hrename ih.2 _ (Use.mem_of_environment hbind)

end Monomorph
