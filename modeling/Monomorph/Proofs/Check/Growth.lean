import Monomorph.Check
import Monomorph.Proofs.TypeExpr.Variables
import Monomorph.Proofs.TypeExpr.Vocabulary

/-!
# Applications and arguments that grow

What the checker asks of recursive generics is about applications and about arguments that grow, both of
which it finds by going through an expression. Here they are described without the search: an application
is a node with arguments, and an argument does not grow if it is a variable or closed.
-/

namespace Monomorph

namespace TypeExpr

variable {t : TypeExpr}

theorem mem_applications {call : Application} : call ∈ t.applications ↔
    call.args ≠ [] ∧ ∃ a, named call.callee call.args a ∈ t.subterms := by
  constructor
  · intro h
    obtain ⟨node, hnode, happlied⟩ := List.mem_filterMap.1 h
    cases node with
    | named name args a =>
      cases args with
      | nil => cases happlied
      | cons arg rest =>
        obtain rfl := Option.some.inj happlied
        exact ⟨List.cons_ne_nil arg rest, a, hnode⟩
    | _ => cases happlied
  · rintro ⟨hne, a, hnode⟩
    obtain ⟨callee, _ | ⟨arg, rest⟩⟩ := call
    · exact absurd rfl hne
    · exact List.mem_filterMap.2 ⟨_, hnode, rfl⟩

theorem application?_annotate (t : TypeExpr) (a : Annots) :
    (t.annotate a).application? = t.application? := by
  cases t with
  | named name args b => cases args <;> rfl
  | _ => rfl

@[simp] theorem applications_annotate (t : TypeExpr) (a : Annots) :
    (t.annotate a).applications = t.applications := by
  rw [applications, applications, subterms_eq, subterms_eq t, children_annotate, List.filterMap_cons,
    List.filterMap_cons, application?_annotate]

/-- An expression is closed if it has no variables. -/
theorem isOpen_eq_false_iff : t.isOpen = false ↔ t.varNames = [] := by
  simp [isOpen, isVar, varNames, List.filterMap_eq_nil_iff]

/-- An argument does not grow if it is a variable or closed. -/
theorem isGrowing_eq_false_iff : Check.isGrowing t = false ↔ t.isVar = true ∨ t.varNames = [] := by
  rw [Check.isGrowing, Bool.and_eq_false_iff, isOpen_eq_false_iff, Bool.not_eq_false']

theorem isGrowing_annotate (h : Check.isGrowing t = false) (a : Annots) :
    Check.isGrowing (t.annotate a) = false := by
  simpa [isGrowing_eq_false_iff, isVar] using h

theorem isGrowing_renameVars (h : Check.isGrowing t = false) (f : String → String) :
    Check.isGrowing (t.renameVars f) = false := by
  simpa [isGrowing_eq_false_iff, isVar] using h

end TypeExpr

end Monomorph
