import Monomorph.Proofs.Expansion.Proper
import Monomorph.Proofs.Signature.Nesting

/-!
# What references stand for

The name of a specialization stands for an application with canonical variables, and a reference applies
the name to the variables that take their place. To erase references is to put what they stand for in
their place, again and again; since the names inside a signature are shorter than the name that it makes,
that comes to an end.

`Erases` states the equations of an erasure, and `TypeExpr.erase` solves them for any meaning of the names
that agrees with how they are written. There is no other solution: `Erases.unique`.
-/

namespace Monomorph

/-- The applications that names of specializations stand for. -/
abbrev Meaning := String → Option Use

/-- Put variables in the place of canonical ones. -/
def placing (vars : List String) (x : String) : String :=
  ((vars.zipIdx.map fun (name, n) => (canonicalVar n, name)).lookup x).getD x

/-- A function replaces every reference by what it stands for, recursively, and keeps all else. -/
structure Erases (meaning : Meaning) (erase : TypeExpr → TypeExpr) : Prop where
  sum : ∀ variants a, erase (.sum variants a) = .sum (variants.map (Variant.map erase)) a
  record : ∀ fields a, erase (.record fields a) = .record (fields.map (Field.map erase)) a
  tuple : ∀ items a, erase (.tuple items a) = .tuple (items.map erase) a
  container : ∀ kind element a, erase (.container kind element a) = .container kind (erase element) a
  var : ∀ name a, erase (.var name a) = .var name a
  named : ∀ name args a, meaning name = none → erase (.named name args a) = .named name (args.map erase) a
  reference : ∀ name vars a u, meaning name = some u → vars.length = u.width →
    erase (.named name (vars.map (.var · ∅)) a) =
      (TypeExpr.apply u.generic (u.args.map erase) a).renameVars (placing vars)
  /-- Only a name with as many bare variables as its use has is a reference. -/
  misapplied : ∀ name args a u, meaning name = some u →
    (∀ vars : List String, vars.length = u.width → args ≠ vars.map (.var · ∅)) →
    erase (.named name args a) = .named name (args.map erase) a

theorem Erases.descends {meaning : Meaning} {erase : TypeExpr → TypeExpr} (h : Erases meaning erase) :
    TypeExpr.Descends erase where
  sum := h.sum
  record := h.record
  tuple := h.tuple

/-- Names stand for the applications that they are written for. -/
def Meaning.Faithful (meaning : Meaning) : Prop := ∀ name u, meaning name = some u →
  name = "@(" ++ TypeExpr.signature u.generic u.args u.annots ++ ")"

/-- The equations determine the erasure. -/
theorem Erases.unique {meaning : Meaning} (hfaithful : meaning.Faithful) {F G : TypeExpr → TypeExpr}
    (hF : Erases meaning F) (hG : Erases meaning G) (t : TypeExpr) : F t = G t := by
  induction t using TypeExpr.signature_induct with
  | node t ih ihInside =>
    cases t with
    | sum variants a =>
      rw [hF.sum, hG.sum]
      exact congrArg (TypeExpr.sum · a) (Variant.map_congr fun v hv c hc =>
        ih c (List.mem_filterMap.2 ⟨v, hv, hc⟩))
    | record fields a =>
      rw [hF.record, hG.record]
      exact congrArg (TypeExpr.record · a) (Field.map_congr fun line hline =>
        ih _ (List.mem_map_of_mem hline))
    | tuple items a =>
      rw [hF.tuple, hG.tuple]
      exact congrArg (TypeExpr.tuple · a) (List.map_congr_left ih)
    | container kind element a =>
      rw [hF.container, hG.container, ih element (List.mem_singleton_self element)]
    | var name a => rw [hF.var, hG.var]
    | named name args a =>
      have hargs : args.map F = args.map G := List.map_congr_left ih
      cases hmeaning : meaning name with
      | none => rw [hF.named _ _ _ hmeaning, hG.named _ _ _ hmeaning, hargs]
      | some u =>
        by_cases hvars : ∃ vars : List String, vars.length = u.width ∧ args = vars.map (.var · ∅)
        · obtain ⟨vars, hwidth, rfl⟩ := hvars
          have hname := hfaithful name u hmeaning
          have hinner : u.args.map F = u.args.map G := List.map_congr_left fun arg harg =>
            ihInside u.generic u.args u.annots _ a (by rw [hname]) arg harg
          rw [hF.reference _ _ _ _ hmeaning hwidth, hG.reference _ _ _ _ hmeaning hwidth, hinner]
        · have hother : ∀ vars : List String, vars.length = u.width → args ≠ vars.map (.var · ∅) :=
            fun vars hwidth heq => hvars ⟨vars, hwidth, heq⟩
          rw [hF.misapplied _ _ _ _ hmeaning hother, hG.misapplied _ _ _ _ hmeaning hother, hargs]

namespace TypeExpr

/-- Replace references, where it is known what the names stand for and how many variables they take. -/
def erasure (standsFor : String → Option (TypeExpr × Nat)) : Rebuild where
  named name args a := match standsFor name with
    | some (t, width) =>
      let vars := args.filterMap var?
      if vars.length = width ∧ args = vars.map (var · ∅) then (t.annotate a).renameVars (placing vars)
      else named name args a
    | none => named name args a

/-- What a name stands for after all references are replaced, without annotations, and the number of its
variables. -/
def standsFor (meaning : Meaning) (name : String) : Option (TypeExpr × Nat) :=
  (meaning name).map fun u => (apply u.generic (u.args.map (rebuild (erasure fun inner =>
    if inner.length < name.length then standsFor meaning inner else none))) ∅, u.width)
termination_by name.length

/-- Replace all references by what they stand for. -/
def erase (meaning : Meaning) : TypeExpr → TypeExpr := rebuild (erasure (standsFor meaning))

section Equations

variable {meaning : Meaning}

/-- The names inside a signature are shorter, so none of them is left out. -/
theorem standsFor_eq (hfaithful : meaning.Faithful) {name : String} {u : Use}
    (h : meaning name = some u) :
    standsFor meaning name = some (apply u.generic (u.args.map (erase meaning)) ∅, u.width) := by
  rw [standsFor, h, Option.map_some]
  refine congrArg (fun args => some (apply u.generic args ∅, u.width)) (List.map_congr_left fun t ht => ?_)
  refine rebuild_congr (fun _ _ => rfl) rfl fun inner args a hmem => ?_
  have hlength : inner.length < name.length := by
    rw [hfaithful name u h]
    exact length_lt_of_mem_args ht hmem
  funext args a
  simp only [erasure, if_pos hlength]

theorem standsFor_eq_none {name : String} (h : meaning name = none) : standsFor meaning name = none := by
  rw [standsFor, h, Option.map_none]

theorem annotate_apply (name : String) (args : List TypeExpr) (a : Annots) :
    (apply name args ∅).annotate a = apply name args a := by
  obtain ⟨kind, element, rfl, rfl, happly⟩ | ⟨h, happly⟩ := apply_cases name args ∅
  · rw [happly, apply_name]
    simp [annotate, mapAnnots]
  · rw [happly, apply_eq_named a h]
    simp [annotate, mapAnnots]

theorem filterMap_var? (vars : List String) :
    (vars.map (var · ∅)).filterMap var? = vars := by
  rw [List.filterMap_map]
  exact List.filterMap_some

/-- Nothing but a variable becomes one. -/
theorem eq_var_of_erase (hfaithful : meaning.Faithful) {t : TypeExpr} {x : String}
    (h : erase meaning t = var x ∅) : t = var x ∅ := by
  cases t with
  | sum variants a => rw [erase, rebuild_sum] at h; cases h
  | record fields a => rw [erase, rebuild_record] at h; cases h
  | tuple items a => rw [erase, rebuild_tuple] at h; cases h
  | container kind element a => rw [erase, rebuild_container] at h; cases h
  | var name a => rwa [erase, rebuild_var] at h
  | named name args a =>
    rw [erase, rebuild_named] at h
    cases hmeaning : meaning name with
    | none =>
      simp only [erasure, standsFor_eq_none hmeaning] at h
      cases h
    | some u =>
      simp only [erasure, standsFor_eq hfaithful hmeaning] at h
      split at h
      · have hvar := congrArg var? h
        rw [annotate_apply, renameVars_apply, var?_apply] at hvar
        cases hvar
      · cases h

theorem eq_vars_of_map_erase (hfaithful : meaning.Faithful) {args : List TypeExpr} {vars : List String}
    (h : args.map (erase meaning) = vars.map (var · ∅)) : args = vars.map (var · ∅) := by
  induction args generalizing vars with
  | nil => rw [← h, List.map_nil]
  | cons t args ih =>
    cases vars with
    | nil => cases h
    | cons x vars =>
      obtain ⟨hfirst, hrest⟩ := List.cons.inj h
      exact congrArg₂ List.cons (eq_var_of_erase hfaithful hfirst) (ih hrest)

theorem erases_erase (hfaithful : meaning.Faithful) : Erases meaning (erase meaning) where
  sum variants a := rebuild_sum _ _ _
  record fields a := rebuild_record _ _ _
  tuple items a := rebuild_tuple _ _ _
  container kind element a := rebuild_container _ _ _ _
  var name a := rebuild_var _ _ _
  named name args a h := by
    rw [erase, rebuild_named]
    simp only [erasure, standsFor_eq_none h]
  reference name vars a u h hlength := by
    have hvars : (vars.map (TypeExpr.var · ∅)).map (rebuild (erasure (standsFor meaning))) =
        vars.map (TypeExpr.var · ∅) := by
      rw [List.map_map]
      exact List.map_congr_left fun x _ => rebuild_var _ _ _
    rw [erase, rebuild_named, hvars]
    simp only [erasure, standsFor_eq hfaithful h]
    rw [filterMap_var?, if_pos ⟨hlength, rfl⟩, annotate_apply]
    rfl
  misapplied name args a u h hargs := by
    rw [erase, rebuild_named]
    simp only [erasure, standsFor_eq hfaithful h]
    exact if_neg fun ⟨hlength, hvars⟩ => hargs _ hlength (eq_vars_of_map_erase hfaithful hvars)

end Equations

end TypeExpr

end Monomorph
