import Monomorph.Proofs.Expansion.Meaning
import Monomorph.Proofs.Expansion.Tidy

/-!
# The bodies of specializations

A body is made in one of three ways: an abstract generic stays applied, a generic that leads to itself at
the root has its parameters replaced, and every other one has its uses referred to as well. What all three
keep holds of the bodies in an expansion: they are proper, they are tidy, and their variables are the
parameters of the specialization.

The second way is only taken where the declared body itself applies the generic, or is the container of
the argument: `Use.root_of_isNamed`.
-/

namespace Monomorph

namespace Use

/-- The three ways in which the body of a specialization is made. -/
theorem body_induct {motive : TypeExpr → Prop} {u : Use} {d : TypeDef}
    (abstract : d.body.isAbstract = true → motive (.named u.generic u.wanted.args ∅))
    (replaced : ¬ d.body.isAbstract = true →
      (d.body.substituteBy reference (u.environment d)).isNamed u.name = true →
      motive (d.body.replaceVars (u.environment d)))
    (substituted : ¬ d.body.isAbstract = true →
      motive (d.body.substituteBy reference (u.environment d))) : motive (u.body d) := by
  rw [body]
  split
  · next hmarked => exact abstract hmarked
  · next hmarked =>
    dsimp only
    split
    · next hself => exact replaced hmarked hself
    · exact substituted hmarked

end Use

/-! ## Self-reference at the root -/

namespace TypeExpr

theorem isNamed_iff {name : String} {t : TypeExpr} :
    t.isNamed name = true ↔ ∃ args a, t = named name args a := by
  cases t <;> simp [isNamed]

theorem generic_of_use? {result : Use → TypeExpr} {env : Environment} {t : TypeExpr} {u : Use}
    (h : t.use? result env = some u) : (∃ kind element a, t = container kind element a ∧
      u.generic = kind.name) ∨ ∃ args a, t = named u.generic args a ∧ args ≠ [] := by
  cases t with
  | container kind element a =>
    simp only [use?] at h
    split at h
    · cases h
    · obtain rfl := Option.some.inj h
      exact Or.inl ⟨kind, element, a, rfl, rfl⟩
  | named name args a =>
    simp only [use?] at h
    split at h
    · cases h
    · next hopen =>
      obtain rfl := Option.some.inj h
      refine Or.inr ⟨args, a, rfl, ?_⟩
      rintro rfl
      exact hopen rfl
  | _ => cases h

end TypeExpr

section Bodies

variable {library : Library} {roots : List Use} {u : Use} {d : TypeDef}

/-- Where a body would be a reference to the specialization itself, the declared body is an application of
the generic. -/
theorem Use.root_of_isNamed (hwritten : library.Written) (hroots : library.Roots roots)
    (hu : Demanded library roots u) (hd : library.find u.generic = some d)
    (hmarked : ¬ d.body.isAbstract = true)
    (hself : (d.body.substituteBy reference (u.environment d)).isNamed u.name = true) :
    (∃ kind element a, d.body = .container kind element a ∧ u.generic = kind.name) ∨
      ∃ args a, d.body = .named u.generic args a ∧ args ≠ [] := by
  obtain ⟨hbody, -⟩ := hwritten hd
  obtain ⟨args, a, hnamed⟩ := TypeExpr.isNamed_iff.1 hself
  obtain ⟨x, b, hvar, heq⟩ | ⟨v, hv, heq⟩ | habove := d.body.substituteBy_cases reference (u.environment d)
  · -- The arguments of a specialization are written inside its name, so none of them is named so.
    rw [heq] at hnamed
    cases henv : u.environment d x with
    | none =>
      rw [Environment.occurrence_of_eq_none henv] at hnamed
      cases hnamed
    | some t =>
      rw [Environment.occurrence_of_eq_some henv] at hnamed
      obtain ⟨c, rfl⟩ : ∃ c, t = .named u.name args c := by
        cases t <;> cases hnamed
        exact ⟨_, rfl⟩
      have hlength : u.name.length < u.name.length := TypeExpr.length_lt_of_mem_args
        (mem_of_environment henv) (TypeExpr.self_mem_subterms _)
      omega
  · have hname : v.name = u.name := by
      rw [heq, v.reference_eq] at hnamed
      exact (TypeExpr.named.inj hnamed).1
    have huses : v ∈ u.nested d := by
      rw [Use.nested_of_not_isAbstract hmarked, TypeExpr.uses_eq, hv]
      exact List.mem_append_right _ List.mem_cons_self
    have hproper := (hu.nested hd huses).proper hwritten hroots
    have hcanonical := Use.canonical_eq_of_name_eq hproper (hu.proper hwritten hroots) hname
    have hgeneric : v.generic = u.generic := (Use.mk.inj hcanonical).1
    rw [← hgeneric]
    exact TypeExpr.generic_of_use? hv
  · obtain ⟨args', hroot, -⟩ := habove.named hnamed
    have hplain := (hbody.names u.name (List.mem_flatMap.2
      ⟨_, TypeExpr.self_mem_subterms d.body, by rw [hroot]; exact List.mem_cons_self⟩)).1
    have hsynthetic := u.isSynthetic_name
    rw [isSynthetic_of_isIdentifier hplain] at hsynthetic
    cases hsynthetic

/-! ## What holds of bodies -/

theorem Use.Proper.environment (h : u.Proper (Demanded library roots)) {x : String} {t : TypeExpr}
    (hbind : u.environment d x = some t) : t.Proper (Demanded library roots) :=
  h.wanted t (Use.mem_of_environment hbind)

/-- The body of a specialization is proper, if no container is abstract. -/
theorem Demanded.proper_specialization (hwritten : library.Written) (hroots : library.Roots roots)
    (hu : Demanded library roots u) (hd : library.find u.generic = some d)
    (habstract : d.body.isAbstract = true → ContainerKind.ofName? u.generic = none) :
    (u.specialization d).body.Proper (Demanded library roots) := by
  obtain ⟨hbody, hnormal⟩ := hwritten hd
  have hproper := hu.proper hwritten hroots
  apply TypeExpr.Proper.annotate ?_ hproper.annots
  apply Use.body_induct
  · intro hmarked
    have hcanonical : Use.Proper (Demanded library roots) ⟨u.generic, u.wanted.args, ∅⟩ :=
      ⟨hproper.generic, hproper.wanted, nofun⟩
    rw [← TypeExpr.apply_eq_named ∅ (Or.inl (habstract hmarked))]
    exact TypeExpr.proper_apply hcanonical
  · intro _ _
    exact TypeExpr.proper_replaceVars hproper.environment hbody hnormal
  · intro hmarked
    refine TypeExpr.proper_substituteBy hproper.environment hbody hnormal fun v hv hv' => ?_
    refine TypeExpr.proper_reference (hu.nested hd ?_) hv'
    rwa [Use.nested_of_not_isAbstract hmarked]

/-- The annotations of a demanded use stand in a definition. -/
theorem Demanded.plain_annots (hwritten : library.Written) (hroots : library.Roots roots)
    (hu : Demanded library roots u) : ∀ b ∈ u.annots.toList, b.WrittenIn .plain := by
  intro b hb
  obtain ⟨name, d, hd, hmem⟩ := hu.annots_mem hroots b hb
  exact (hwritten hd).1.annots b hmem

/-- The body of a specialization is tidy. -/
theorem Use.tidy_specialization {K : String → Nat → Prop}
    (hsynthetic : ∀ {name n}, isSynthetic name = true → K name n) (hbody : d.body.Tidy K)
    (hgeneric : K u.generic u.args.length) (hargs : ∀ arg ∈ u.args, arg.Tidy K)
    (hannots : ∀ b ∈ u.annots.toList, b.WrittenIn .plain) : (u.specialization d).body.Tidy K := by
  have hwanted : ∀ arg ∈ u.wanted.args, arg.Tidy K :=
    Use.forall_wanted (fun ht => ht.renameVars _) hargs
  have henv : ∀ {x v}, u.environment d x = some v → v.Tidy K := fun hbind =>
    hwanted _ (mem_of_environment hbind)
  apply TypeExpr.Tidy.annotate ?_ hannots
  apply Use.body_induct
  · intro _
    rw [← u.length_args_wanted] at hgeneric
    exact TypeExpr.tidy_named hgeneric hwanted nofun
  · intro _ _
    exact hbody.replaceVars henv
  · intro _
    exact hbody.substituteBy hsynthetic henv

theorem TypeExpr.forall_varNames_replaceVars {P : String → Prop} {env : Environment} {t : TypeExpr}
    (h : ∀ name ∈ t.varNames, ∀ a, ∀ x ∈ (env.occurrence name a).varNames, P x) :
    ∀ x ∈ (t.replaceVars env).varNames, P x := by
  have hall : ∀ node ∈ (t.replaceVars env).subterms, ∀ x, node.var? = some x → P x := by
    apply forall_mem_subterms_replaceVars
    · intro name a hmem node hnode x hx
      have hname : name ∈ t.varNames := List.mem_filterMap.2 ⟨_, hmem, rfl⟩
      exact h name hname a x (List.mem_filterMap.2 ⟨node, hnode, hx⟩)
    · intro node _ hnone x hx
      rw [var?_mapChildren, hnone] at hx
      cases hx
  intro x hx
  obtain ⟨node, hnode, hvar⟩ := List.mem_filterMap.1 hx
  exact hall node hnode x hvar

/-- The variables of the body of a specialization are its parameters. -/
theorem Use.varNames_specialization (hbound : d.body.varNames ⊆ d.params)
    (harity : d.arity = u.args.length) {x : String} (hx : x ∈ (u.specialization d).body.varNames) :
    ∃ k < u.width, x = canonicalVar k := by
  have henv : ∀ name ∈ d.body.varNames, ∀ a, ∀ x ∈ ((u.environment d).occurrence name a).varNames,
      ∃ k < u.width, x = canonicalVar k := by
    intro name hname a x hx
    obtain ⟨t, ht, hbind⟩ := environment_isSome harity (hbound hname)
    rw [Environment.occurrence_of_eq_some hbind, TypeExpr.varNames_annotate] at hx
    exact exists_canonicalVar ht hx
  have hbody : ∀ x ∈ (u.body d).varNames, ∃ k < u.width, x = canonicalVar k := by
    apply Use.body_induct (motive := fun t => ∀ x ∈ t.varNames, ∃ k < u.width, x = canonicalVar k)
    · intro _ x hx
      rw [TypeExpr.varNames_eq] at hx
      obtain ⟨arg, harg, hx⟩ := List.mem_flatMap.1 hx
      exact exists_canonicalVar harg hx
    · intro _ _
      exact TypeExpr.forall_varNames_replaceVars henv
    · intro _
      exact TypeExpr.forall_varNames_substituteBy henv
  apply hbody
  rwa [specialization, TypeExpr.varNames_annotate] at hx

end Bodies

end Monomorph
