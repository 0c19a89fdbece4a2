import Monomorph.Proofs.Expansion.Cycles

/-!
# An expansion with generics is in order

With generics kept, the definitions of an expansion are in order in the sense of the checker: names are
distinct and new, a specialization lists its parameters once and uses no other variables, what is applied
is defined and has the right number of arguments, and nothing that grows is handed to what leads back.
-/

namespace Monomorph

namespace Accepted

variable {definitions : List TypeDef} {added : List Use}

theorem fresh_outcome (h : Accepted definitions) {keepPoly : Bool} {out : TypeDef}
    (hout : out ∈ (h.library.outcome keepPoly definitions added).definitions) :
    out.name ∉ Catalogue.standard.map Builtin.name := by
  obtain ⟨d, hd, -, rfl⟩ | ⟨u, -, -, d, -, rfl⟩ := Library.mem_outcome.1 hout
  · exact h.wellFormed.fresh d hd
  · intro hbuiltin
    obtain ⟨b, hb, hname⟩ := List.mem_map.1 hbuiltin
    have hsynthetic := u.isSynthetic_name
    change b.name = u.name at hname
    rw [← hname, isSynthetic_of_isIdentifier (isIdentifier_standard b hb)] at hsynthetic
    cases hsynthetic

/-- A specialization lists its parameters once. -/
theorem nodup_params_outcome (h : Accepted definitions) {keepPoly : Bool} {out : TypeDef}
    (hout : out ∈ (h.library.outcome keepPoly definitions added).definitions) : out.params.Nodup := by
  obtain ⟨d, hd, -, rfl⟩ | ⟨u, -, -, d, -, rfl⟩ := Library.mem_outcome.1 hout
  · exact h.wellFormed.params d hd
  · show u.wanted.params.Nodup
    rw [u.params_wanted]
    exact List.nodup_range.map fun m n => canonicalVar_injective

/-- The variables of a body are the parameters of its definition. -/
theorem bound_outcome (h : Accepted definitions) {keepPoly : Bool}
    (hvisits : Visits h.library [] (TypeDef.roots keepPoly definitions) added) {out : TypeDef}
    (hout : out ∈ (h.library.outcome keepPoly definitions added).definitions) :
    out.body.varNames ⊆ out.params := by
  obtain ⟨d, hd, -, rfl⟩ | ⟨u, hu, -, d, hd, rfl⟩ := Library.mem_outcome.1 hout
  · rw [h.expanded_eq hd]
    apply TypeExpr.forall_varNames_substituteBy
    intro name hname a x hx
    rw [Environment.occurrence_empty, TypeExpr.varNames_eq] at hx
    rw [List.mem_singleton.1 hx]
    exact h.wellFormed.bound d hd hname
  · intro x hx
    obtain ⟨e, he, harity⟩ := (hvisits.demanded u hu).declared h.sound (h.roots keepPoly)
    obtain rfl := Option.some.inj (hd.symm.trans he)
    obtain ⟨k, hk, rfl⟩ := Use.varNames_specialization (h.sound.bound hd) harity hx
    show canonicalVar k ∈ u.wanted.params
    rw [u.params_wanted]
    exact List.mem_map_of_mem (List.mem_range.2 hk)

/-- What is applied is defined in the expansion or built in, with the right number of parameters. -/
theorem known_outcome (h : Accepted definitions)
    (hvisits : Visits h.library [] (TypeDef.roots true definitions) added) {out : TypeDef}
    (hout : out ∈ (h.library.outcome true definitions added).definitions) {name : String}
    {args : List TypeExpr} {a : Annots} (hname : .named name args a ∈ out.body.subterms) :
    HasArity Catalogue.standard (h.library.outcome true definitions added).definitions name
      args.length := by
  obtain hsynthetic | ⟨-, ⟨d, hd, rfl, harity⟩ | hbuiltin⟩ := (h.tidy_outcome hvisits hout _ hname).head rfl
  · obtain ⟨u, hu, rfl, vars, rfl, hlength⟩ :=
      (h.proper_outcome hvisits hout _ hname).reference rfl hsynthetic
    obtain ⟨d, -, hmem⟩ := h.exists_specialization hvisits hu (Or.inr rfl)
    refine Or.inl ⟨u.specialization d, hmem, rfl, ?_⟩
    show u.wanted.params.length = _
    rw [u.params_wanted, List.length_map, List.length_range, List.length_map, hlength]
  · exact Or.inl ⟨d.expanded, Library.expanded_mem_outcome hd (Bool.or_true _), rfl, harity⟩
  · exact Or.inr hbuiltin

/-- With generics kept, an expansion is in order. -/
theorem wellFormed_outcome (h : Accepted definitions)
    (hvisits : Visits h.library [] (TypeDef.roots true definitions) added) :
    WellFormed Catalogue.standard (h.library.outcome true definitions added).definitions where
  names := h.nodup_names_outcome hvisits
  fresh _ hout := h.fresh_outcome hout
  params _ hout := h.nodup_params_outcome hout
  bound _ hout := h.bound_outcome hvisits hout
  known _ hout _ _ _ hname := h.known_outcome hvisits hout hname
  regular _ hout _ _ hcall hcalls hpath := h.isGrowing_outcome hvisits hout hcall hcalls hpath

end Accepted

end Monomorph
