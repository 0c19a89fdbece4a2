import Monomorph.Proofs.Expansion.NormalForm
import Monomorph.Proofs.Expansion.Reaches

/-!
# Recursion in an expansion

With generics kept, an expansion is again a file with generics that can lead back to themselves. Nearly
all of its bodies are flat, so they hand on nothing that grows. What is left are the declared bodies of
generics that apply themselves, with the arguments of a specialization in them: where such an application
leads back to the specialization, neither its own arguments nor those of the specialization grow.
-/

namespace Monomorph

namespace Accepted

variable {definitions : List TypeDef} {added : List Use}

/-- An abstract definition calls nothing. -/
theorem applications_of_isAbstract (h : Accepted definitions) {d : TypeDef} (hd : d ∈ definitions)
    (hmarked : d.body.isAbstract = true) : d.expanded.body.applications = [] := by
  obtain ⟨name, a, hbody⟩ : ∃ name a, d.body = .named name [] a := by
    cases hbody : d.body with
    | named name args a =>
      cases args with
      | nil => exact ⟨name, a, rfl⟩
      | cons arg rest =>
        rw [hbody] at hmarked
        cases hmarked
    | _ =>
      rw [hbody] at hmarked
      cases hmarked
  rw [h.expanded_eq hd, hbody, TypeExpr.substituteBy_named]
  rfl

/-- No path leads from an abstract generic to a specialization. -/
theorem not_path_of_isAbstract (h : Accepted definitions)
    (hvisits : Visits h.library [] (TypeDef.roots true definitions) added) {d : TypeDef}
    (hd : d ∈ definitions) (hmarked : d.body.isAbstract = true) {name : String}
    (hsynthetic : isSynthetic name = true) :
    ¬ Relation.ReflTransGen (Calls (h.library.outcome true definitions added).definitions) d.name name := by
  intro hpath
  obtain heq | ⟨next, ⟨⟨out, hout, hname, -, call, hcall, -⟩, -⟩, -⟩ := hpath.cases_head
  · rw [← heq, h.plain hd] at hsynthetic
    cases hsynthetic
  · have hmem : d.expanded ∈ (h.library.outcome true definitions added).definitions :=
      Library.expanded_mem_outcome hd (Bool.or_true _)
    obtain rfl := h.eq_of_name_eq hvisits hmem hout hname.symm
    rw [h.applications_of_isAbstract hd hmarked] at hcall
    cases hcall

/-- A generic that applies itself hands nothing that grows to what leads back to a specialization of it. -/
theorem isGrowing_of_replaceVars (h : Accepted definitions)
    (hvisits : Visits h.library [] (TypeDef.roots true definitions) added) {u : Use}
    (hu : Demanded h.library (TypeDef.roots true definitions) u) {d : TypeDef}
    (hd : h.library.find u.generic = some d) :
    ∀ call ∈ (d.body.replaceVars (u.environment d)).applications,
      (∃ out ∈ (h.library.outcome true definitions added).definitions, out.name = call.callee) →
      Relation.ReflTransGen (Calls (h.library.outcome true definitions added).definitions)
        call.callee u.name → ∀ arg ∈ call.args, Check.isGrowing arg = false := by
  apply TypeExpr.forall_applications_replaceVars
  · intro x v hbind call hcall _ _
    exact (hu.isFlat_wanted (h.roots true) v (Use.mem_of_environment hbind)).isGrowing hcall
  · rintro call hcall ⟨out, hout, hname⟩ hpath arg harg
    obtain ⟨part, hpart, rfl⟩ := List.mem_map.1 harg
    obtain ⟨-, a, hnode⟩ := TypeExpr.mem_applications.1 hcall
    have hmem : call ∈ d.body.calls := TypeExpr.applications_subset_calls _ hcall
    have hplain : isSynthetic call.callee = false := by
      apply isSynthetic_of_isIdentifier
      apply ((h.written hd).1.names call.callee _).1
      exact List.mem_flatMap.2 ⟨_, hnode, List.mem_cons_self⟩
    obtain ⟨e, he, rfl⟩ := h.exists_definition hout (hname ▸ hplain)
    -- The path leads to a use with the name of this one, so it is this one.
    obtain ⟨e', he', heq, -⟩ | ⟨w, hw, heq⟩ := h.reaches_of_path hvisits ⟨e, he, hname⟩ hpath
    · have hsynthetic := u.isSynthetic_name
      rw [← heq, h.plain he'] at hsynthetic
      cases hsynthetic
    have hproper := (h.demanded_of_rootsFrom hw).proper h.written (h.roots true)
    have hcanonical := Use.canonical_eq_of_name_eq hproper (hu.proper h.written (h.roots true)) heq
    obtain ⟨hgeneric, hargs, -⟩ := Use.mk.inj hcanonical
    have hthere := leads_call hd hmem
    have hback := (h.led_of_demanded hw).1
    rw [hgeneric] at hback
    have hsteady : ∀ arg ∈ u.wanted.args, Check.isGrowing arg = false := by
      rw [← hargs]
      refine Use.forall_wanted (fun harg => TypeExpr.isGrowing_renameVars harg _) ?_
      exact h.isGrowing_of_demanded hw (hgeneric ▸ hthere)
    apply TypeExpr.isGrowing_replaceVars
    · intro x v hbind
      exact hsteady v (Use.mem_of_environment hbind)
    · exact TypeExpr.isGrowing_eq_false_iff.2 (h.regular.flat hd call hmem hback part hpart)

/-- What an expansion hands to generics that lead back to the caller does not grow. -/
theorem isGrowing_outcome (h : Accepted definitions)
    (hvisits : Visits h.library [] (TypeDef.roots true definitions) added) {out : TypeDef}
    (hout : out ∈ (h.library.outcome true definitions added).definitions) {call : Application}
    (hcall : call ∈ out.body.applications)
    (hcalls : Calls (h.library.outcome true definitions added).definitions out.name call.callee)
    (hpath : Relation.ReflTransGen (Calls (h.library.outcome true definitions added).definitions)
      call.callee out.name) : ∀ arg ∈ call.args, Check.isGrowing arg = false := by
  obtain ⟨d, hd, -, rfl⟩ | ⟨u, hu, -, d, hd, rfl⟩ := Library.mem_outcome.1 hout
  · exact (h.flat_expanded hd).isGrowing hcall
  have hdemanded := hvisits.demanded u hu
  have hargs := hdemanded.isFlat_wanted (h.roots true)
  rw [Use.specialization, TypeExpr.applications_annotate] at hcall
  revert hcall
  apply Use.body_induct (motive := fun t => call ∈ t.applications → ∀ arg ∈ call.args,
    Check.isGrowing arg = false)
  · intro hmarked hcall
    obtain ⟨hne, a, hnode⟩ := TypeExpr.mem_applications.1 hcall
    rw [TypeExpr.subterms_eq, List.mem_cons, List.mem_flatMap] at hnode
    obtain heq | ⟨arg, harg, hnode⟩ := hnode
    · obtain ⟨hmem, hname⟩ | ⟨kind, -, rfl⟩ := h.find_cases hd
      · obtain ⟨hcallee, -, -⟩ := TypeExpr.named.inj heq
        rw [hcallee, ← hname] at hpath
        exact absurd hpath (h.not_path_of_isAbstract hvisits hmem hmarked u.isSynthetic_name)
      · cases hmarked
    · exact (hargs arg harg).isGrowing (TypeExpr.mem_applications.2 ⟨hne, a, hnode⟩)
  · intro _ _ hcall
    obtain ⟨-, target, htarget, hname, -⟩ := hcalls
    exact h.isGrowing_of_replaceVars hvisits hdemanded hd call hcall ⟨target, htarget, hname⟩ hpath
  · intro _ hcall
    refine (TypeExpr.isFlat_substituteBy (fun hbind => ?_) d.body).isGrowing hcall
    exact hargs _ (Use.mem_of_environment hbind)

end Accepted

end Monomorph
