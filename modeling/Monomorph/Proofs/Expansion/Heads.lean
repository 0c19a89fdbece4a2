import Monomorph.Proofs.Expansion.Body
import Monomorph.Proofs.Expansion.Result

/-!
# What the definitions of an expansion apply

Every head in an expansion is the name of a specialization, or it stood in the file and has the arity that
the file gives it. Where a specialization is referred to, it is demanded and has as many parameters as the
reference has arguments, and if it is kept it is among the definitions of the expansion.
-/

namespace Monomorph

/-- A head that an expansion can show: the name of a specialization, or a name that the file could write
with this number of arguments. -/
def ShownHead (definitions : List TypeDef) (name : String) (arity : Nat) : Prop :=
  isSynthetic name = true ∨ IsPlain name ∧ HasArity Catalogue.standard definitions name arity

namespace Accepted

variable {definitions : List TypeDef} {keepPoly : Bool} {added : List Use}

theorem expanded_eq (h : Accepted definitions) {d : TypeDef} (hd : d ∈ definitions) : d.expanded =
    { d with body := d.body.substituteBy Use.reference Environment.empty } := by
  rw [TypeDef.expanded, h.normalize_eq hd, TypeExpr.normalize_eq_self (h.writable d hd).normal]

/-- The uses in a definition that is kept are met by the expansion. -/
theorem mem_roots (h : Accepted definitions) {d : TypeDef} (hd : d ∈ definitions)
    (hkept : d.isKept keepPoly = true) {u : Use}
    (hu : u ∈ d.body.uses Use.reference Environment.empty) : u ∈ TypeDef.roots keepPoly definitions := by
  refine List.mem_flatMap.2 ⟨d, hd, ?_⟩
  rwa [if_pos hkept, TypeDef.uses, TypeExpr.normalize_eq_self (h.writable d hd).normal]

/-- Containers are not abstract. -/
theorem ofName?_of_isAbstract (h : Accepted definitions) {name : String} {d : TypeDef}
    (hd : h.library.find name = some d) (hmarked : d.body.isAbstract = true) :
    ContainerKind.ofName? name = none := by
  obtain ⟨hmem, rfl⟩ | ⟨kind, -, rfl⟩ := h.find_cases hd
  · apply Option.eq_none_iff_forall_ne_some.2
    intro kind hkind
    exact h.name_ne_container hmem kind (ContainerKind.ofName?_eq_some.1 hkind).symm
  · cases hmarked

/-- The definitions of the library are tidy for what holds of the heads in them. -/
theorem tidy (h : Accepted definitions) {K : String → Nat → Prop} {name : String} {d : TypeDef}
    (hd : h.library.find name = some d)
    (hhead : ∀ name args a, .named name args a ∈ d.body.subterms → K name args.length) :
    d.body.Tidy K := by
  refine TypeExpr.tidy_of_plain (h.written hd).1 ?_ hhead
  obtain ⟨hmem, rfl⟩ | ⟨kind, -, rfl⟩ := h.find_cases hd
  · exact (h.writable d hmem).wide
  · intro items a hmem
    have hsubterms : (Catalogue.containerDef kind).body.subterms =
        [.container kind (.var "a" ∅) ∅, .var "a" ∅] := rfl
    simp [hsubterms] at hmem

theorem tidy_shownHead (h : Accepted definitions) {name : String} {d : TypeDef}
    (hd : h.library.find name = some d) : d.body.Tidy (ShownHead definitions) := by
  refine h.tidy hd fun head args a hmem => Or.inr ?_
  obtain ⟨hmem', rfl⟩ | ⟨kind, -, rfl⟩ := h.find_cases hd
  · refine ⟨?_, h.wellFormed.known d hmem' head args a hmem⟩
    exact (h.writable d hmem').body.names head
      (List.mem_flatMap.2 ⟨_, hmem, List.mem_singleton_self head⟩)
  · have hsubterms : (Catalogue.containerDef kind).body.subterms =
        [.container kind (.var "a" ∅) ∅, .var "a" ∅] := rfl
    simp [hsubterms] at hmem

/-- The generic of a demanded use can be written in the file, with as many arguments. -/
theorem shownHead_generic (h : Accepted definitions) {u : Use}
    (hu : Demanded h.library (TypeDef.roots keepPoly definitions) u) :
    ShownHead definitions u.generic u.args.length := by
  obtain ⟨d, hd, harity⟩ := hu.declared h.sound (h.roots keepPoly)
  obtain ⟨hmem, hname⟩ | ⟨kind, hname, rfl⟩ := h.find_cases hd
  · refine Or.inr ⟨hname ▸ (h.writable d hmem).name, Or.inl ⟨d, hmem, hname, harity⟩⟩
  · refine Or.inr ⟨?_, Or.inr ⟨_, containerType_mem_standard kind, hname.symm, harity⟩⟩
    rw [hname]
    exact isPlain_kind kind

theorem tidy_args (h : Accepted definitions) {u : Use}
    (hu : Demanded h.library (TypeDef.roots keepPoly definitions) u) :
    ∀ arg ∈ u.args, arg.Tidy (ShownHead definitions) := by
  refine (hu.tidy (R := fun _ => True) Or.inl (fun _ _ _ _ => trivial) (fun v hv => ?_) ?_).2
  · obtain ⟨name, d, hd, hmem, -⟩ := h.roots keepPoly v hv
    exact ⟨name, d, trivial, hd, hmem⟩
  · exact fun _ hd => h.tidy_shownHead hd

/-- The definitions of an expansion are tidy. -/
theorem tidy_outcome (h : Accepted definitions)
    (hvisits : Visits h.library [] (TypeDef.roots keepPoly definitions) added) {out : TypeDef}
    (hout : out ∈ (h.library.outcome keepPoly definitions added).definitions) :
    out.body.Tidy (ShownHead definitions) := by
  obtain ⟨d, hd, -, rfl⟩ | ⟨u, hu, -, d, hd, rfl⟩ := Library.mem_outcome.1 hout
  · rw [h.expanded_eq hd]
    exact (h.tidy_shownHead (h.find_definition hd)).substituteBy Or.inl nofun
  · have hdemanded := hvisits.demanded u hu
    exact Use.tidy_specialization Or.inl (h.tidy_shownHead hd) (h.shownHead_generic hdemanded)
      (h.tidy_args hdemanded) (hdemanded.plain_annots h.written (h.roots keepPoly))

/-- The definitions of an expansion are proper. -/
theorem proper_outcome (h : Accepted definitions)
    (hvisits : Visits h.library [] (TypeDef.roots keepPoly definitions) added) {out : TypeDef}
    (hout : out ∈ (h.library.outcome keepPoly definitions added).definitions) :
    out.body.Proper (Demanded h.library (TypeDef.roots keepPoly definitions)) := by
  obtain ⟨d, hd, hkept, rfl⟩ | ⟨u, hu, -, d, hd, rfl⟩ := Library.mem_outcome.1 hout
  · rw [h.expanded_eq hd]
    refine TypeExpr.proper_substituteBy nofun (h.writable d hd).body (h.writable d hd).normal ?_
    intro u hu hproper
    exact TypeExpr.proper_reference (.root (h.mem_roots hd hkept hu)) hproper
  · exact (hvisits.demanded u hu).proper_specialization h.written (h.roots keepPoly) hd
      (h.ofName?_of_isAbstract hd)

/-- A specialization that is referred to is among the definitions of the expansion, if it is kept. -/
theorem exists_specialization (h : Accepted definitions)
    (hvisits : Visits h.library [] (TypeDef.roots keepPoly definitions) added) {u : Use}
    (hu : Demanded h.library (TypeDef.roots keepPoly definitions) u)
    (hkept : u.width = 0 ∨ keepPoly = true) :
    ∃ d, h.library.find u.generic = some d ∧
      u.specialization d ∈ (h.library.outcome keepPoly definitions added).definitions := by
  obtain ⟨w, hw, hcanonical⟩ := hvisits.exists_canonical h.written (h.roots keepPoly) hu
  obtain ⟨d, hd, -⟩ := hu.declared h.sound (h.roots keepPoly)
  have hgeneric : w.generic = u.generic := (Use.mk.inj hcanonical).1
  refine ⟨d, hd, Library.mem_outcome.2 (Or.inr ⟨w, hw, ?_, d, hgeneric ▸ hd, ?_⟩)⟩
  · rwa [Use.width_eq_of_canonical_eq hcanonical]
  · exact Use.specialization_eq_of_canonical_eq hcanonical d

end Accepted

end Monomorph
