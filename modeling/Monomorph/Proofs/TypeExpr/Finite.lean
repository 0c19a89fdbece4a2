import Mathlib.Data.Set.Finite.Lattice
import Mathlib.Data.Set.Finite.List
import Mathlib.Data.Set.Finite.Powerset
import Monomorph.Proofs.TypeExpr.Variables

/-!
# Finite sets of expressions

Three ways to get from finite sets to finite sets: the sets of annotations over finitely many ones, the
lists of one length over finitely many members, and the expressions that an expression becomes by more
annotations at its root and another choice of variables.
-/

namespace Monomorph

/-- The sets of annotations over finitely many annotations. -/
theorem Annots.finite_of_mem {S : Set Annot} (h : S.Finite) : {a : Annots | ∀ b ∈ a, b ∈ S}.Finite := by
  refine Set.Finite.of_injOn (f := fun a : Annots => {b | b ∈ a}) (t := 𝒫 S) (fun a ha => ha) ?_ h.finite_subsets
  intro a _ b _ heq
  exact Annots.ext_mem fun x => Set.ext_iff.1 heq x

/-- The lists of one length over finitely many members. -/
theorem finite_lists {α : Type} {S : Set α} (h : S.Finite) (n : Nat) :
    {items : List α | items.length = n ∧ ∀ x ∈ items, x ∈ S}.Finite := by
  have : Finite S := h
  apply ((List.finite_length_eq S n).image (List.map Subtype.val)).subset
  rintro items ⟨hlength, hmem⟩
  refine ⟨items.attach.map fun x => ⟨x.1, hmem x.1 x.2⟩, by simpa using hlength, ?_⟩
  rw [List.map_map]
  exact List.attach_map_subtype_val items

namespace TypeExpr

/-- The expressions that differ from an expression in the choice of their variables. -/
theorem finite_renameVars {W : Set String} (h : W.Finite) (t : TypeExpr) :
    {u | ∃ f, (∀ x ∈ t.varNames, f x ∈ W) ∧ u = t.renameVars f}.Finite := by
  refine ((finite_lists h t.varNames.length).image fun names =>
    t.renameVars fun x => names.getD (t.varNames.idxOf x) x).subset ?_
  rintro u ⟨f, hf, rfl⟩
  refine ⟨t.varNames.map f, ⟨List.length_map _, fun y hy => ?_⟩, renameVars_congr fun x hx => ?_⟩
  · obtain ⟨x, hx, rfl⟩ := List.mem_map.1 hy
    exact hf x hx
  · have hidx := List.idxOf_lt_length_of_mem hx
    simp [List.getD, hidx]

/-- What the members of a set become by more annotations and another choice of variables. -/
def variations (base : Set TypeExpr) (A : Set Annots) (W : Set String) : Set TypeExpr :=
  {u | ∃ t ∈ base, ∃ a ∈ A, ∃ f, (∀ x ∈ t.varNames, f x ∈ W) ∧ u = (t.annotate a).renameVars f}

theorem finite_variations {base : Set TypeExpr} {A : Set Annots} {W : Set String} (hbase : base.Finite)
    (hA : A.Finite) (hW : W.Finite) : (variations base A W).Finite := by
  apply (hbase.biUnion fun t _ => hA.biUnion fun a _ => finite_renameVars hW (t.annotate a)).subset
  rintro u ⟨t, ht, a, ha, f, hf, rfl⟩
  simp only [Set.mem_iUnion]
  refine ⟨t, ht, a, ha, f, ?_, rfl⟩
  rwa [varNames_annotate]

end TypeExpr

end Monomorph
