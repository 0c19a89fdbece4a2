import Monomorph.Proofs.Check.Growth
import Monomorph.Proofs.Expansion.Body
import Monomorph.Proofs.Expansion.Flat

/-!
# Growth under substitution

Arguments that do not grow stay so where variables are substituted by arguments that do not grow. The
applications in a flat expression hand on variables only, and those in an expression with replaced
variables are its own or come from what the variables are replaced by.
-/

namespace Monomorph

namespace TypeExpr

variable {t : TypeExpr}

theorem isGrowing_occurrence {env : Environment}
    (henv : ∀ {x v}, env x = some v → Check.isGrowing v = false) (name : String) (a : Annots) :
    Check.isGrowing (env.occurrence name a) = false := by
  apply Environment.occurrence_induct (motive := fun t => Check.isGrowing t = false)
  · rfl
  · intro v hv
    exact isGrowing_annotate (henv hv) a

/-- Substitution in an argument that does not grow gives one that does not grow. -/
theorem isGrowing_substituteBy {env : Environment}
    (henv : ∀ {x v}, env x = some v → Check.isGrowing v = false) (h : Check.isGrowing t = false) :
    Check.isGrowing (t.substituteBy Use.reference env) = false := by
  obtain hvar | hclosed := isGrowing_eq_false_iff.1 h
  · obtain ⟨name, hname⟩ := Option.isSome_iff_exists.1 hvar
    obtain ⟨a, rfl⟩ := var?_eq_some.1 hname
    rw [substituteBy_var]
    exact isGrowing_occurrence henv name a
  · refine isGrowing_eq_false_iff.2 (Or.inr (List.eq_nil_iff_forall_not_mem.2 ?_))
    apply forall_varNames_substituteBy
    intro name hname
    rw [hclosed] at hname
    cases hname

theorem isGrowing_replaceVars {env : Environment}
    (henv : ∀ {x v}, env x = some v → Check.isGrowing v = false) (h : Check.isGrowing t = false) :
    Check.isGrowing (t.replaceVars env) = false := by
  obtain hvar | hclosed := isGrowing_eq_false_iff.1 h
  · obtain ⟨name, hname⟩ := Option.isSome_iff_exists.1 hvar
    obtain ⟨a, rfl⟩ := var?_eq_some.1 hname
    rw [replaceVars_var]
    exact isGrowing_occurrence henv name a
  · refine isGrowing_eq_false_iff.2 (Or.inr (List.eq_nil_iff_forall_not_mem.2 ?_))
    apply forall_varNames_replaceVars
    intro name hname
    rw [hclosed] at hname
    cases hname

/-! ## Applications -/

theorem applications_subset_calls (t : TypeExpr) : t.applications ⊆ t.calls := by
  intro call h
  obtain ⟨node, hnode, happlied⟩ := List.mem_filterMap.1 h
  refine List.mem_filterMap.2 ⟨node, hnode, ?_⟩
  cases node with
  | named name args a => cases args <;> exact happlied
  | _ => cases happlied

/-- What is applied in a flat expression is applied to variables. -/
theorem IsFlat.isGrowing (h : t.IsFlat) {call : Application} (hcall : call ∈ t.applications) :
    ∀ arg ∈ call.args, Check.isGrowing arg = false := by
  intro arg harg
  obtain ⟨node, hnode, hcalled⟩ := List.mem_filterMap.1 (applications_subset_calls t hcall)
  exact isGrowing_eq_false_iff.2 (Or.inl (isFlat_iff_subterms.1 h node hnode call hcalled arg harg))

theorem application?_mapChildren (f : TypeExpr → TypeExpr) (t : TypeExpr) : (t.mapChildren f).application? =
    t.application?.map fun call => ⟨call.callee, call.args.map f⟩ := by
  cases t with
  | named name args a => cases args <;> rfl
  | _ => rfl

/-- An application in an expression with replaced variables comes from the environment or from one in the
expression. -/
theorem forall_applications_replaceVars {Q : Application → Prop} {env : Environment}
    (henv : ∀ {x v}, env x = some v → ∀ call ∈ v.applications, Q call)
    (hown : ∀ call ∈ t.applications, Q ⟨call.callee, call.args.map (replaceVars env)⟩) :
    ∀ call ∈ (t.replaceVars env).applications, Q call := by
  have hall : ∀ node ∈ (t.replaceVars env).subterms, ∀ call, node.application? = some call → Q call := by
    apply forall_mem_subterms_replaceVars
    · intro name a _ node hnode call happlied
      have hoccurrence : ∀ call ∈ (env.occurrence name a).applications, Q call := by
        apply Environment.occurrence_induct (motive := fun t => ∀ call ∈ t.applications, Q call)
        · intro call hcall
          simp [applications, subterms, application?] at hcall
        · intro v hv
          rw [applications_annotate]
          exact henv hv
      exact hoccurrence call (List.mem_filterMap.2 ⟨node, hnode, happlied⟩)
    · intro node hnode _ call happlied
      rw [application?_mapChildren] at happlied
      obtain ⟨own, hown', rfl⟩ := Option.map_eq_some_iff.1 happlied
      exact hown own (List.mem_filterMap.2 ⟨node, hnode, hown'⟩)
  intro call hcall
  obtain ⟨node, hnode, happlied⟩ := List.mem_filterMap.1 hcall
  exact hall node hnode call happlied

end TypeExpr

end Monomorph
