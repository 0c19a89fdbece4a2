import Monomorph.Proofs.Expansion.Erasure

/-!
# Erasure of proper expressions

Where the names of demanded uses stand for their canonical forms, erasure commutes with annotations and
with renamings, and the reference to a use stands for the use itself. Erasure therefore undoes what
substitution does beyond the replacement of variables: `erase_substituteBy`.

Erasure goes from a reference on to the arguments of the use that it stands for, which are no part of the
expression. `TypeExpr.Proper.induct` is the induction along both.
-/

namespace Monomorph

/-- The names of demanded uses stand for the canonical forms of the uses, other names for nothing. -/
structure Reads (D : Use → Prop) (meaning : Meaning) : Prop where
  proper : ∀ {u}, D u → u.Proper D
  demanded : ∀ {u}, D u → meaning u.name = some u.canonical
  plain : ∀ {name}, isSynthetic name = false → meaning name = none

/-! ## Canonical forms -/

theorem Instance.occurrences_map (f : String → String) (args : List TypeExpr) :
    occurrences (args.map (TypeExpr.renameVars f)) = (occurrences args).map f := by
  rw [occurrences, occurrences, List.flatMap_map, List.map_flatMap]
  exact List.flatMap_congr fun t _ => TypeExpr.varNames_renameVars f t

namespace Use

/-- The variables of a canonical form are the first canonical ones, in order. -/
theorem occurrences_canonical (u : Use) : (Instance.occurrences u.canonical.args).eraseDups =
    (List.range u.width).map canonicalVar := by
  have hnodup := Occurrences.nodup_eraseDups (Instance.occurrences u.args)
  have hargs : u.canonical.args = u.args.map (TypeExpr.renameVars (Instance.canonical u.args)) := rfl
  rw [hargs, Instance.occurrences_map,
    Occurrences.eraseDups_map fun x hx y _ => Instance.canonical_injective hx]
  apply List.ext_getElem (by simp [width])
  intro n hn _
  rw [List.length_map] at hn
  rw [List.getElem_map, List.getElem_map, List.getElem_range, Instance.canonical, hnodup.idxOf_getElem n hn]

theorem params_wanted (u : Use) : u.wanted.params = (List.range u.width).map canonicalVar := by
  have hvars : u.wanted.params =
      ((Instance.occurrences u.args).eraseDups.zipIdx.map Prod.snd).map canonicalVar := by
    rw [Use.wanted, Instance.params, Instance.of, List.map_map, List.map_map]
    rfl
  rw [hvars, List.zipIdx_map_snd, List.range_eq_range', width]

theorem arity_wanted (u : Use) : u.wanted.arity = u.width := by
  rw [Instance.arity, ← List.length_map Prod.snd, ← Instance.params, u.params_wanted, List.length_map,
    List.length_range]

theorem width_canonical (u : Use) : u.canonical.width = u.width := by
  rw [width, occurrences_canonical, List.length_map, List.length_range]

/-- What a specialization leads to depends on the canonical form only. -/
theorem nested_eq_of_canonical_eq {u v : Use} (h : u.canonical = v.canonical) (d : TypeDef) :
    u.nested d = v.nested d := by
  have hargs : u.wanted.args = v.wanted.args := congrArg Use.args h
  rw [nested, nested, environment, environment, hargs]

end Use

/-! ## Variables in the place of canonical ones -/

theorem lookup_placing (vars : List String) (start k : Nat) :
    ((vars.zipIdx start).map fun (name, n) => (canonicalVar n, name)).lookup (canonicalVar (start + k)) =
      vars[k]? := by
  induction vars generalizing start k with
  | nil => rfl
  | cons first rest ih =>
    rw [List.zipIdx_cons, List.map_cons, List.lookup_cons]
    cases k with
    | zero => simp
    | succ k =>
      have hne : canonicalVar (start + (k + 1)) ≠ canonicalVar start := by
        intro heq
        have hnat := canonicalVar_injective heq
        omega
      have hstart : start + (k + 1) = start + 1 + k := by omega
      rw [beq_eq_false_iff_ne.2 hne, List.getElem?_cons_succ, hstart, ih]

theorem placing_canonicalVar {vars : List String} {k : Nat} (h : k < vars.length) :
    placing vars (canonicalVar k) = vars[k] := by
  have hlookup := lookup_placing vars 0 k
  rw [Nat.zero_add, List.getElem?_eq_getElem h] at hlookup
  rw [placing, hlookup, Option.getD_some]

/-- The canonical name of a variable leads back to the variable. -/
theorem placing_canonical {args : List TypeExpr} {x : String} (hx : x ∈ Instance.occurrences args) :
    placing (Instance.occurrences args).eraseDups (Instance.canonical args x) = x := by
  have hmem := List.mem_eraseDups.2 hx
  rw [Instance.canonical, placing_canonicalVar (List.idxOf_lt_length_of_mem hmem), List.getElem_idxOf]

/-- The variables of the arguments of an instance are the first canonical ones. -/
theorem Use.exists_canonicalVar {u : Use} {t : TypeExpr} (ht : t ∈ u.wanted.args) {x : String}
    (hx : x ∈ t.varNames) : ∃ k < u.width, x = canonicalVar k := by
  obtain ⟨arg, harg, rfl⟩ := List.mem_map.1 ht
  rw [TypeExpr.varNames_renameVars] at hx
  obtain ⟨y, hy, rfl⟩ := List.mem_map.1 hx
  refine ⟨_, List.idxOf_lt_length_of_mem (List.mem_eraseDups.2 ?_), rfl⟩
  exact Instance.mem_occurrences harg hy

namespace TypeExpr

section Erasure

variable {D : Use → Prop} {meaning : Meaning} {erase : TypeExpr → TypeExpr}
variable (hreads : Reads D meaning) (herase : Erases meaning erase)

include hreads

/-- Induction over proper expressions: from the parts, and from the arguments of a use to the reference. -/
theorem Proper.induct {motive : TypeExpr → Prop}
    (node : ∀ t, t.Proper D → (∀ c ∈ t.children, motive c) →
      (∀ u, D u → ∀ args a, t = named u.name args a → ∀ arg ∈ u.wanted.args, motive arg) → motive t)
    {t : TypeExpr} (h : t.Proper D) : motive t := by
  refine signature_induct (motive := fun t => t.Proper D → motive t) (fun t ih ihInside ht => ?_) t h
  refine node t ht (fun c hc => ih c hc ((proper_iff.1 ht).2 c hc)) fun u hu args a heq arg harg => ?_
  exact ihInside _ _ _ args a heq arg harg ((hreads.proper hu).wanted arg harg)

include herase

/-- A reference with variables for those of the use. -/
theorem erase_use {u : Use} (hu : D u) {vars : List String} (hlength : vars.length = u.width) (a : Annots) :
    erase (named u.name (vars.map (var · ∅)) a) =
      (apply u.generic (u.wanted.args.map erase) a).renameVars (placing vars) :=
  herase.reference _ _ _ _ (hreads.demanded hu) (hlength.trans u.width_canonical.symm)

/-- What becomes of an expression: a variable stays, a reference is replaced by what it stands for, and
every other node stays above its children. -/
theorem erase_cases {t : TypeExpr} (h : t.Proper D) :
    (∃ name a, t = var name a ∧ erase t = var name a) ∨
    (∃ u vars a, D u ∧ t = named u.name (vars.map (var · ∅)) a ∧ vars.length = u.width ∧
      erase t = (apply u.generic (u.wanted.args.map erase) a).renameVars (placing vars)) ∨
    (∀ name args a, t = named name args a → isSynthetic name = false) ∧
      (erase t).children = t.children.map erase ∧ (erase t).var? = none := by
  cases t with
  | var name a => exact Or.inl ⟨name, a, rfl, herase.var name a⟩
  | sum variants a =>
    rw [herase.sum]
    exact Or.inr (Or.inr ⟨nofun, children_map_variants _ variants, rfl⟩)
  | record fields a =>
    rw [herase.record]
    exact Or.inr (Or.inr ⟨nofun, children_map_fields _ fields, rfl⟩)
  | tuple items a =>
    rw [herase.tuple]
    exact Or.inr (Or.inr ⟨nofun, rfl, rfl⟩)
  | container kind element a =>
    rw [herase.container]
    exact Or.inr (Or.inr ⟨nofun, rfl, rfl⟩)
  | named name args a =>
    by_cases hsynthetic : isSynthetic name = true
    · obtain ⟨u, hu, rfl, vars, rfl, hlength⟩ := (proper_iff.1 h).1.reference rfl hsynthetic
      exact Or.inr (Or.inl ⟨u, vars, a, hu, rfl, hlength, erase_use hreads herase hu hlength a⟩)
    · rw [Bool.not_eq_true] at hsynthetic
      rw [herase.named _ _ _ (hreads.plain hsynthetic)]
      refine Or.inr (Or.inr ⟨fun name' args' a' heq => ?_, rfl, rfl⟩)
      obtain ⟨rfl, -, -⟩ := named.inj heq
      exact hsynthetic

/-- Erasure brings in no variables. -/
theorem varNames_erase_subset {t : TypeExpr} (h : t.Proper D) :
    (erase t).varNames ⊆ t.varNames := by
  refine @Proper.induct _ _ hreads (fun t => (erase t).varNames ⊆ t.varNames)
    (fun t ht ih ihReference => ?_) t h
  obtain ⟨name, a, rfl, heq⟩ | ⟨u, vars, a, hu, rfl, hlength, heq⟩ | ⟨-, hchildren, hvar⟩ :=
    erase_cases hreads herase ht
  · rw [heq]
    exact List.Subset.refl _
  · intro x hx
    rw [heq, varNames_renameVars, varNames_eq, var?_apply, children_apply, List.flatMap_map] at hx
    obtain ⟨y, hy, rfl⟩ := List.mem_map.1 hx
    obtain ⟨arg, harg, hy⟩ := List.mem_flatMap.1 hy
    obtain ⟨k, hk, rfl⟩ := Use.exists_canonicalVar harg (ihReference u hu _ _ rfl arg harg hy)
    rw [← hlength] at hk
    rw [placing_canonicalVar hk, varNames_named_vars]
    exact List.getElem_mem hk
  · intro x hx
    rw [varNames_eq, hvar, hchildren, List.flatMap_map] at hx
    obtain ⟨c, hc, hx⟩ := List.mem_flatMap.1 hx
    exact varNames_child hc (ih c hc hx)

/-- The variables of what a name stands for are the first canonical ones. -/
theorem exists_canonicalVar_of_erased {u : Use} (hu : D u) {a : Annots} {x : String}
    (hx : x ∈ (apply u.generic (u.wanted.args.map erase) a).varNames) : ∃ k < u.width, x = canonicalVar k := by
  rw [varNames_eq, var?_apply, children_apply, List.flatMap_map] at hx
  obtain ⟨arg, harg, hx⟩ := List.mem_flatMap.1 hx
  have hproper := (hreads.proper hu).wanted arg harg
  exact Use.exists_canonicalVar harg (varNames_erase_subset hreads herase hproper hx)

theorem erase_annotate {t : TypeExpr} (h : t.Proper D) (b : Annots) :
    erase (t.annotate b) = (erase t).annotate b := by
  obtain ⟨name, a, rfl, heq⟩ | ⟨u, vars, a, hu, rfl, hlength, heq⟩ | ⟨hplain, -, -⟩ :=
    erase_cases hreads herase h
  · rw [heq]
    exact herase.var _ _
  · rw [heq, ← renameVars_annotate, ← annotate_apply _ _ a, annotate_annotate, annotate_apply]
    exact erase_use hreads herase hu hlength _
  · cases t with
    | sum variants a => simp only [annotate, mapAnnots, herase.sum]
    | record fields a => simp only [annotate, mapAnnots, herase.record]
    | tuple items a => simp only [annotate, mapAnnots, herase.tuple]
    | container kind element a => simp only [annotate, mapAnnots, herase.container]
    | var name a => simp only [annotate, mapAnnots, herase.var]
    | named name args a =>
      have hname := hreads.plain (hplain name args a rfl)
      simp only [annotate, mapAnnots, herase.named _ _ _ hname]

/-- Erasure and a renaming can be done in either order. -/
theorem erase_renameVars {t : TypeExpr} (h : t.Proper D) (f : String → String) :
    erase (t.renameVars f) = (erase t).renameVars f := by
  have hrename : Descends (renameVars f) := descends_rebuild _
  have hcomp := herase.descends.comp hrename
  apply @Descends.ext _ _ hcomp (hrename.comp herase.descends) (Proper D)
  case h => exact h
  case hP => exact fun t ht => (proper_iff.1 ht).2
  case hcontainer =>
    intro kind element a _ helement
    simp only [Function.comp_apply, renameVars_container, herase.container] at helement ⊢
    rw [helement]
  case hvar =>
    intro name a _
    simp only [Function.comp_apply, renameVars_var, herase.var]
  case hnamed =>
    intro name args a hproper hargs
    rw [Function.comp_apply, Function.comp_apply, renameVars_named]
    by_cases hsynthetic : isSynthetic name = true
    · obtain ⟨u, hu, rfl, vars, rfl, hlength⟩ := (proper_iff.1 hproper).1.reference rfl hsynthetic
      have hvars : (vars.map (var · ∅)).map (renameVars f) = (vars.map f).map (var · ∅) := by simp
      have hlength' : (vars.map f).length = u.width := by rwa [List.length_map]
      rw [hvars, erase_use hreads herase hu hlength, erase_use hreads herase hu hlength', renameVars_renameVars]
      apply renameVars_congr
      intro x hx
      obtain ⟨k, hk, rfl⟩ := exists_canonicalVar_of_erased hreads herase hu hx
      rw [← hlength] at hk
      have hk' : k < (vars.map f).length := by rwa [List.length_map]
      rw [Function.comp_apply, placing_canonicalVar hk, placing_canonicalVar hk', List.getElem_map]
    · have hname := hreads.plain (Bool.not_eq_true _ ▸ hsynthetic)
      rw [herase.named _ _ _ hname, herase.named _ _ _ hname, renameVars_named, List.map_map, List.map_map]
      exact congrArg (named name · a) hargs

/-- A reference stands for the use that it takes the place of. -/
theorem erase_reference {u : Use} (hu : D u) :
    erase u.reference = apply u.generic (u.args.map erase) u.annots := by
  have hargs : ∀ arg ∈ u.args, (erase (arg.renameVars (Instance.canonical u.args))).renameVars
      (placing (Instance.occurrences u.args).eraseDups) = erase arg := by
    intro arg harg
    have hproper := (hreads.proper hu).args arg harg
    rw [erase_renameVars hreads herase hproper, renameVars_renameVars]
    refine (renameVars_congr fun x hx => ?_).trans (renameVars_id _)
    have hmem := varNames_erase_subset hreads herase hproper hx
    exact placing_canonical (Instance.mem_occurrences harg hmem)
  rw [u.reference_eq, erase_use hreads herase hu rfl, renameVars_apply]
  apply congrArg (apply u.generic · u.annots)
  have hwanted : u.wanted.args = u.args.map (renameVars (Instance.canonical u.args)) := rfl
  rw [hwanted, List.map_map, List.map_map]
  exact List.map_congr_left hargs

end Erasure

/-! ## Substitution -/

section Substitution

variable {D : Use → Prop} {meaning : Meaning} {erase : TypeExpr → TypeExpr}
variable (hreads : Reads D meaning) (herase : Erases meaning erase)

include hreads herase

/-- Where references stand for uses, nothing but the replacement of variables is left after erasure. -/
theorem erase_substituteBy {result : Use → TypeExpr} {env : Environment} {t : TypeExpr}
    (henv : ∀ {name v}, env name = some v → v.Proper D) (hwritten : t.WrittenIn .plain)
    (hnormal : t.IsNormal) (hresult : ∀ u ∈ t.uses result env,
      erase (result u) = apply u.generic (u.args.map erase) u.annots) :
    erase (t.substituteBy result env) = t.replaceVars fun name => (env name).map erase := by
  have hcomp := herase.descends.comp (descends_substituteBy result env)
  have hreplace : Descends (replaceVars fun name => (env name).map erase) := descends_rebuild _
  apply @Descends.ext _ _ hcomp hreplace fun t => t.WrittenIn .plain ∧ t.IsNormal ∧
    ∀ u ∈ t.uses result env, erase (result u) = apply u.generic (u.args.map erase) u.annots
  case h => exact ⟨hwritten, hnormal, hresult⟩
  case hP =>
    rintro t ⟨hwritten, hnormal, hresult⟩ c hc
    refine ⟨(writtenIn_iff.1 hwritten).2.2.2 c hc, (isNormal_iff.1 hnormal).2 c hc, fun u hu => ?_⟩
    exact hresult u (uses_subset (subterms_child hc (self_mem_subterms c)) hu)
  case hcontainer =>
    rintro kind element a ⟨-, -, hresult⟩ helement
    rw [Function.comp_apply] at helement ⊢
    rw [uses_container] at hresult
    rw [substituteBy_container, replaceVars_container, ← helement]
    split
    · exact herase.container _ _ _
    · next hopen =>
      rw [if_neg hopen] at hresult
      rw [hresult _ (List.mem_append_right _ List.mem_cons_self), List.map_singleton, apply_name]
  case hvar =>
    intro name a _
    rw [Function.comp_apply, substituteBy_var, replaceVars_var]
    cases hbind : env name with
    | none =>
      simp only [Environment.occurrence, hbind, Option.map_none]
      exact herase.var name a
    | some v =>
      simp only [Environment.occurrence, hbind, Option.map_some]
      exact erase_annotate hreads herase (henv hbind) a
  case hnamed =>
    rintro name args a ⟨hwritten, hnormal, hresult⟩ hargs
    rw [← List.map_map] at hargs
    rw [uses_named] at hresult
    rw [Function.comp_apply, substituteBy_named, replaceVars_named, ← hargs]
    split
    · have hname := (writtenIn_iff.1 hwritten).1 name (List.mem_singleton_self name)
      exact herase.named _ _ _ (hreads.plain (isSynthetic_of_isIdentifier hname.1))
    · next hopen =>
      rw [if_neg hopen] at hresult
      rw [hresult _ (List.mem_append_right _ List.mem_cons_self)]
      apply apply_eq_named a
      rw [List.length_map, List.length_map]
      exact (isNormal_iff.1 hnormal).1 name args a rfl

theorem erase_apply {name : String} (h : IsIdentifier name) (args : List TypeExpr) (a : Annots) :
    erase (apply name args a) = apply name (args.map erase) a := by
  obtain ⟨kind, element, rfl, rfl, happly⟩ | ⟨hne, happly⟩ := apply_cases name args a
  · rw [happly, herase.container, List.map_singleton, apply_name]
  · rw [happly, herase.named _ _ _ (hreads.plain (isSynthetic_of_isIdentifier h)),
      apply_eq_named a (by rwa [List.length_map])]

theorem erase_replaceVars {env : Environment} {t : TypeExpr}
    (henv : ∀ {name v}, env name = some v → v.Proper D) (hwritten : t.WrittenIn .plain)
    (hnormal : t.IsNormal) :
    erase (t.replaceVars env) = t.replaceVars fun name => (env name).map erase := by
  rw [← substituteBy_apply env hnormal]
  apply erase_substituteBy hreads herase henv hwritten hnormal
  intro u hu
  obtain ⟨node, hnode, huse⟩ := List.mem_filterMap.1 hu
  have hplain := hwritten.of_mem_subterms (mem_postorder.1 hnode)
  exact erase_apply hreads herase (isIdentifier_of_use? hplain huse) _ _

/-- Substitution during an expansion replaces variables, up to erasure. -/
theorem erase_substituteBy_reference {env : Environment} {t : TypeExpr}
    (henv : ∀ {name v}, env name = some v → v.Proper D) (hwritten : t.WrittenIn .plain)
    (hnormal : t.IsNormal) (huses : ∀ u ∈ t.uses Use.reference env, D u) :
    erase (t.substituteBy Use.reference env) = t.replaceVars fun name => (env name).map erase :=
  erase_substituteBy hreads herase henv hwritten hnormal fun u hu =>
    erase_reference hreads herase (huses u hu)

end Substitution

end TypeExpr

end Monomorph
