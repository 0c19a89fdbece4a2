import Monomorph.Proofs.Expansion.Flat
import Monomorph.Proofs.Expansion.Result

/-!
# Substitution after a renaming

Variables of definitions, variables of uses and canonical variables are names of the same kind, and a
renaming may give any of them to any variable. It captures nothing all the same: what a substitution does
to a variable depends on what the environment binds it to, and what it does to a use, on the order in which
the variables of the use first occur.

`TypeExpr.Commutes` collects what the environments before and after a renaming have to do with each other,
for two purposes: for the body of a specialization, where all variables are bound and the renaming leaves
no trace, and for a definition that is expanded as it stands, where none is bound and the renaming stays.
-/

namespace Monomorph

/-- A use under other names for its variables. -/
def Use.renameVars (f : String → String) (u : Use) : Use :=
  { u with args := u.args.map (TypeExpr.renameVars f) }

@[simp] theorem Use.renameVars_id (u : Use) : u.renameVars id = u := by
  rw [renameVars, List.map_congr_left fun t _ => t.renameVars_id, List.map_id']

namespace TypeExpr

theorem all_isVar_renameVars (f : String → String) (ts : List TypeExpr) :
    (ts.map (renameVars f)).all isVar = ts.all isVar := by
  rw [List.all_map]
  exact congrArg ts.all (funext fun t => isVar_renameVars f t)

theorem postorder_renameVars (f : String → String) (t : TypeExpr) :
    (t.renameVars f).postorder = t.postorder.map (renameVars f) := by
  induction t using children_induct with
  | node t ih =>
    rw [postorder_eq, postorder_eq t, children_renameVars, List.flatMap_map, List.map_append,
      List.map_flatMap, List.flatMap_congr ih]
    rfl

@[simp] theorem isAbstract_renameVars (f : String → String) (t : TypeExpr) :
    (t.renameVars f).isAbstract = t.isAbstract := by
  cases t with
  | named name args a => cases args <;> simp [isAbstract]
  | _ => simp [isAbstract]

section Commutes

variable {f g : String → String} {t : TypeExpr}

/-- To rebuild a renamed expression is to rename the rebuilt one, if that is so node by node. -/
theorem rebuild_renameVars {r r' : Rebuild}
    (hvar : ∀ name a, var name a ∈ t.subterms → r'.var (f name) a = (r.var name a).renameVars g)
    (hcontainer : ∀ kind element a, container kind element a ∈ t.subterms →
      r'.container kind ((rebuild r element).renameVars g) a =
        (r.container kind (rebuild r element) a).renameVars g)
    (hnamed : ∀ name args a, named name args a ∈ t.subterms →
      r'.named name ((args.map (rebuild r)).map (renameVars g)) a =
        (r.named name (args.map (rebuild r)) a).renameVars g) :
    rebuild r' (t.renameVars f) = (rebuild r t).renameVars g := by
  have hrename : ∀ h, Descends (renameVars h) := fun h => descends_rebuild _
  apply @Descends.ext _ _ ((descends_rebuild r').comp (hrename f))
    ((hrename g).comp (descends_rebuild r)) fun u => u ∈ t.subterms
  case h => exact self_mem_subterms t
  case hP => exact fun u hu c hc => subset_subterms hu (subterms_child hc (self_mem_subterms c))
  case hcontainer =>
    intro kind element a hmem helement
    simp only [Function.comp_apply] at helement ⊢
    rw [renameVars_container, rebuild_container, helement, rebuild_container,
      hcontainer kind element a hmem]
  case hvar =>
    intro name a hmem
    simp only [Function.comp_apply]
    rw [renameVars_var, rebuild_var, rebuild_var, hvar name a hmem]
  case hnamed =>
    intro name args a hmem hargs
    simp only [Function.comp_apply]
    have hargs' : (args.map (renameVars f)).map (rebuild r') =
        (args.map (rebuild r)).map (renameVars g) := by
      rw [List.map_map, List.map_map]
      exact hargs
    rw [renameVars_named, rebuild_named, rebuild_named, hargs', hnamed name args a hmem]

variable {result : Use → TypeExpr} {env env' : Environment}

/-- Two environments bind the variables of an expression before and after a renaming alike, up to another
renaming, and what is returned for the uses in the expression is renamed with them. -/
structure Commutes (result : Use → TypeExpr) (env env' : Environment) (f g : String → String)
    (t : TypeExpr) : Prop where
  occurrence : ∀ name ∈ t.varNames, ∀ a,
    env'.occurrence (f name) a = (env.occurrence name a).renameVars g
  result : ∀ u ∈ t.uses result env, result (u.renameVars g) = (result u).renameVars g

theorem Commutes.part (h : t.Commutes result env env' f g) {u : TypeExpr} (hu : u ∈ t.subterms) :
    u.Commutes result env env' f g where
  occurrence name hname := h.occurrence name (varNames_subset hu hname)
  result v hv := h.result v (uses_subset hu hv)

theorem name_mem_varNames {name : String} {a : Annots} (h : var name a ∈ t.subterms) :
    name ∈ t.varNames :=
  List.mem_filterMap.2 ⟨_, h, rfl⟩

theorem mem_uses_of_use? {node : TypeExpr} (hnode : node ∈ t.subterms) {u : Use}
    (hu : node.use? result env = some u) : u ∈ t.uses result env :=
  List.mem_filterMap.2 ⟨node, mem_postorder.2 hnode, hu⟩

/-- Substitution in a renamed expression. -/
theorem Commutes.substituteBy (h : t.Commutes result env env' f g) :
    (t.renameVars f).substituteBy result env' = (t.substituteBy result env).renameVars g := by
  apply rebuild_renameVars
  case hvar => exact fun name a hmem => h.occurrence name (name_mem_varNames hmem) a
  case hcontainer =>
    intro kind element a hmem
    change (if ((element.substituteBy result env).renameVars g).isVar then _ else _) =
      renameVars g (if (element.substituteBy result env).isVar then _ else _)
    rw [isVar_renameVars]
    split
    · exact (renameVars_container ..).symm
    · next hopen =>
      refine h.result ⟨kind.name, [element.substituteBy result env], a⟩ (mem_uses_of_use? hmem ?_)
      simp only [use?, hopen]
      rfl
  case hnamed =>
    intro name args a hmem
    change (if ((args.map (TypeExpr.substituteBy result env)).map (renameVars g)).all isVar then _
      else _) = renameVars g (if (args.map (TypeExpr.substituteBy result env)).all isVar then _ else _)
    rw [all_isVar_renameVars]
    split
    · exact (renameVars_named ..).symm
    · next hopen =>
      refine h.result ⟨name, args.map (TypeExpr.substituteBy result env), a⟩ (mem_uses_of_use? hmem ?_)
      simp only [use?, hopen]
      rfl

theorem Commutes.use? (h : t.Commutes result env env' f g) :
    (t.renameVars f).use? result env' = (t.use? result env).map (Use.renameVars g) := by
  cases t with
  | container kind element a =>
    have helement := (h.part (subterms_child List.mem_cons_self (self_mem_subterms element))).substituteBy
    simp only [renameVars_container, TypeExpr.use?, helement, isVar_renameVars]
    split <;> rfl
  | named name args a =>
    have hargs : (args.map (renameVars f)).map (TypeExpr.substituteBy result env') =
        (args.map (TypeExpr.substituteBy result env)).map (renameVars g) := by
      rw [List.map_map, List.map_map]
      exact List.map_congr_left fun arg harg =>
        (h.part (subterms_child harg (self_mem_subterms arg))).substituteBy
    simp only [renameVars_named, TypeExpr.use?, hargs, all_isVar_renameVars]
    split <;> rfl
  | _ => simp [TypeExpr.use?]

/-- The uses in a renamed expression. -/
theorem Commutes.uses (h : t.Commutes result env env' f g) :
    (t.renameVars f).uses result env' = (t.uses result env).map (Use.renameVars g) := by
  rw [TypeExpr.uses, TypeExpr.uses, postorder_renameVars, List.filterMap_map, List.map_filterMap]
  exact List.filterMap_congr fun node hnode => (h.part (mem_postorder.1 hnode)).use?

/-- The replacement of variables in a renamed expression. -/
theorem Commutes.replaceVars (h : t.Commutes result env env' f g) :
    (t.renameVars f).replaceVars env' = (t.replaceVars env).renameVars g := by
  apply rebuild_renameVars
  case hvar => exact fun name a hmem => h.occurrence name (name_mem_varNames hmem) a
  case hcontainer => exact fun _ _ _ _ => (renameVars_container ..).symm
  case hnamed => exact fun _ _ _ _ => (renameVars_named ..).symm

end Commutes

end TypeExpr

/-! ## Canonical forms -/

namespace Use

variable {f : String → String} {u : Use}

/-- A renaming that confuses no two variables of a use leaves the canonical form as it is. -/
theorem canonical_renameVars (hf : Set.InjOn f {x | x ∈ Instance.occurrences u.args}) :
    (u.renameVars f).canonical = u.canonical := by
  have hargs : (u.renameVars f).wanted.args = u.wanted.args := by
    rw [args_wanted, args_wanted, renameVars, List.map_map]
    refine List.map_congr_left fun t ht => ?_
    rw [Function.comp_apply, TypeExpr.renameVars_renameVars]
    refine TypeExpr.renameVars_congr fun x hx => ?_
    exact Instance.canonical_renamed (Instance.occurrences_map f u.args)
      (fun _ hv _ hw => hf hv hw) (Instance.mem_occurrences ht hx)
  rw [canonical, canonical, hargs]
  rfl

theorem canonical_canonical (u : Use) : u.canonical.canonical = u.canonical :=
  canonical_renameVars fun _ hv _ _ => Instance.canonical_injective hv

/-- The reference to a renamed use is the renamed reference. -/
theorem reference_renameVars (hf : Set.InjOn f {x | x ∈ Instance.occurrences u.args}) :
    (u.renameVars f).reference = u.reference.renameVars f := by
  have hvars : (Instance.occurrences (u.renameVars f).args).eraseDups =
      (Instance.occurrences u.args).eraseDups.map f := by
    rw [renameVars, Instance.occurrences_map, Occurrences.eraseDups_map fun _ hv _ hw => hf hv hw]
  rw [reference_eq, reference_eq, hvars, name_eq_of_canonical_eq (canonical_renameVars hf),
    TypeExpr.renameVars_named, List.map_map, List.map_map]
  congr 1

end Use

/-! ## Environments -/

namespace Environment

variable {f : String → String}

/-- Where keys are renamed and none is confused with another, each is looked up under its new name. -/
theorem lookup_map {S : Set String} (hf : Set.InjOn f S) {pairs : List (String × TypeExpr)}
    (hpairs : ∀ pair ∈ pairs, pair.1 ∈ S) {x : String} (hx : x ∈ S) :
    (pairs.map (Prod.map f id)).lookup (f x) = pairs.lookup x := by
  induction pairs with
  | nil => rfl
  | cons pair rest ih =>
    obtain ⟨hpair, hrest⟩ := List.forall_mem_cons.1 hpairs
    have heq : (f x == f pair.1) = (x == pair.1) := by
      rw [Bool.eq_iff_iff, beq_iff_eq, beq_iff_eq]
      exact hf.eq_iff hx hpair
    rw [List.map_cons, List.lookup_cons, List.lookup_cons, Prod.map_fst, Prod.map_snd, heq, ih hrest]
    rfl

/-- A renamed parameter is bound to the argument that the parameter is bound to. -/
theorem bind_map {params : List String} (hf : Set.InjOn f {x | x ∈ params}) (args : List TypeExpr)
    {x : String} (hx : x ∈ params) : bind (params.map f) args (f x) = bind params args x := by
  rw [bind, bind, ofPairs, ofPairs, List.zip_map_left, ← List.map_reverse]
  refine lookup_map hf (fun pair hpair => ?_) hx
  exact (List.of_mem_zip (List.mem_reverse.1 hpair)).1

end Environment

namespace TypeExpr

variable {f : String → String} {t : TypeExpr}

/-- Where every variable is bound before and after a renaming, and to the same, the renaming leaves no
trace. -/
theorem commutes_of_bound {result : Use → TypeExpr} {env env' : Environment}
    (h : ∀ name ∈ t.varNames, ∃ v, env name = some v ∧ env' (f name) = some v) :
    t.Commutes result env env' f id where
  occurrence name hname a := by
    obtain ⟨v, hv, hv'⟩ := h name hname
    rw [Environment.occurrence_of_eq_some hv, Environment.occurrence_of_eq_some hv', renameVars_id]
  result u _ := by rw [Use.renameVars_id, renameVars_id]

/-- The variables of the uses in an expression are those of the expression, where none is bound. -/
theorem occurrences_subset_of_mem_uses {u : Use} (hu : u ∈ t.uses Use.reference Environment.empty) :
    Instance.occurrences u.args ⊆ t.varNames := by
  intro x hx
  obtain ⟨arg, harg, hx⟩ := List.mem_flatMap.1 hx
  obtain ⟨part, hpart, rfl⟩ := exists_part_of_mem_uses hu harg
  refine forall_varNames_substituteBy (fun name hname a y hy => ?_) x hx
  rw [Environment.occurrence_empty, varNames_eq] at hy
  obtain rfl := List.mem_singleton.1 hy
  exact varNames_subset hpart hname

/-- Where no variable is bound, references are renamed with the expression. -/
theorem commutes_empty (hf : Set.InjOn f {x | x ∈ t.varNames}) :
    t.Commutes Use.reference Environment.empty Environment.empty f f where
  occurrence name _ a := (renameVars_var f name a).symm
  result _ hu := Use.reference_renameVars (hf.mono (occurrences_subset_of_mem_uses hu))

end TypeExpr

end Monomorph
