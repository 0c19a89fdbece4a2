import Monomorph.Proofs.Expansion.Parts

/-!
# Flat expressions

An expression is flat if nothing but variables is handed to generics and containers in it. Substitution
that refers to specializations makes every expression flat, if what it puts in place of variables is. So
the arguments of all demanded uses are flat, at any depth of nesting.
-/

namespace Monomorph

namespace TypeExpr

/-- Every argument of an application and every element of a container is a variable, annotated or not. -/
def IsFlat (t : TypeExpr) : Prop := ∀ call ∈ t.calls, ∀ arg ∈ call.args, arg.isVar = true

variable {t : TypeExpr}

theorem isFlat_iff_subterms : t.IsFlat ↔
    ∀ node ∈ t.subterms, ∀ call, node.call? = some call → ∀ arg ∈ call.args, arg.isVar = true := by
  constructor
  · intro h node hnode call hcall
    exact h call (List.mem_filterMap.2 ⟨node, hnode, hcall⟩)
  · intro h call hmem
    obtain ⟨node, hnode, hcall⟩ := List.mem_filterMap.1 hmem
    exact h node hnode call hcall

theorem call?_annotate (t : TypeExpr) (a : Annots) : (t.annotate a).call? = t.call? := by
  cases t with
  | named name args b => cases args <;> rfl
  | _ => rfl

theorem IsFlat.annotate (h : t.IsFlat) (a : Annots) : (t.annotate a).IsFlat := by
  rw [isFlat_iff_subterms] at h ⊢
  apply forall_mem_subterms_annotate h
  intro hroot
  rwa [call?_annotate]

theorem isVar_renameVars (f : String → String) (t : TypeExpr) : (t.renameVars f).isVar = t.isVar := by
  simp [isVar]

theorem call?_renameVars (f : String → String) (t : TypeExpr) : (t.renameVars f).call? =
    t.call?.map fun call => ⟨call.callee, call.args.map (renameVars f)⟩ := by
  cases t with
  | named name args a => cases args <;> simp [call?]
  | _ => simp [call?]

theorem IsFlat.renameVars (h : t.IsFlat) (f : String → String) : (t.renameVars f).IsFlat := by
  rw [isFlat_iff_subterms] at h ⊢
  rw [subterms_renameVars]
  intro node hnode call hcall arg harg
  obtain ⟨part, hpart, rfl⟩ := List.mem_map.1 hnode
  rw [call?_renameVars] at hcall
  obtain ⟨inner, hinner, rfl⟩ := Option.map_eq_some_iff.1 hcall
  obtain ⟨source, hsource, rfl⟩ := List.mem_map.1 harg
  rw [isVar_renameVars]
  exact h part hpart inner hinner source hsource

theorem isFlat_var (name : String) (a : Annots) : (var name a).IsFlat := by
  intro call hcall
  simp [calls, subterms, call?] at hcall

/-- A reference is an application to variables. -/
theorem isFlat_reference (u : Use) : u.reference.IsFlat := by
  rw [isFlat_iff_subterms, u.reference_eq, forall_mem_subterms]
  constructor
  · intro call hcall arg harg
    have hargs : arg ∈ (Instance.occurrences u.args).eraseDups.map (var · ∅) := by
      generalize (Instance.occurrences u.args).eraseDups.map (var · ∅) = args at hcall
      cases args with
      | nil => cases hcall
      | cons first rest =>
        obtain rfl := Option.some.inj hcall
        exact harg
    obtain ⟨x, -, rfl⟩ := List.mem_map.1 hargs
    rfl
  · intro c hc
    obtain ⟨x, -, rfl⟩ := List.mem_map.1 hc
    exact isFlat_iff_subterms.1 (isFlat_var x ∅)

/-- Substitution that refers to specializations leaves nothing but variables as arguments. -/
theorem isFlat_substituteBy {env : Environment} (henv : ∀ {x v}, env x = some v → v.IsFlat)
    (t : TypeExpr) : (t.substituteBy Use.reference env).IsFlat := by
  rw [isFlat_iff_subterms]
  apply forall_mem_subterms_substituteBy
  · intro name a _
    apply isFlat_iff_subterms.1
    apply Environment.occurrence_induct (motive := IsFlat)
    · exact isFlat_var name a
    · intro v hv
      exact (henv hv).annotate a
  · intro v _
    exact isFlat_iff_subterms.1 (isFlat_reference v)
  · intro node _ _ huse call hcall arg harg
    rw [call?_mapChildren] at hcall
    obtain ⟨inner, hinner, rfl⟩ := Option.map_eq_some_iff.1 hcall
    obtain ⟨part, hpart, rfl⟩ := List.mem_map.1 harg
    exact isVar_of_use?_eq_none huse hinner part hpart

end TypeExpr

/-- The arguments of demanded uses are flat. -/
theorem Demanded.isFlat {library : Library} {roots : List Use} (hroots : library.Roots roots) {u : Use}
    (h : Demanded library roots u) : ∀ arg ∈ u.args, arg.IsFlat := by
  refine (h.forall_args (R := fun _ => True) (T := TypeExpr.IsFlat) ?_ ?_ ?_ ?_).2
  · exact fun _ _ _ _ => trivial
  · intro v hv
    obtain ⟨name, d, hd, hmem, -⟩ := hroots v hv
    exact ⟨name, d, trivial, hd, hmem⟩
  · exact fun hflat => hflat.renameVars _
  · exact fun _ _ henv part _ => TypeExpr.isFlat_substituteBy henv part

/-- The arguments of specializations are flat. -/
theorem Demanded.isFlat_wanted {library : Library} {roots : List Use} (hroots : library.Roots roots)
    {u : Use} (h : Demanded library roots u) : ∀ arg ∈ u.wanted.args, arg.IsFlat :=
  Use.forall_wanted (fun hflat => hflat.renameVars _) (h.isFlat hroots)

end Monomorph
