import Monomorph.Proofs.Expansion.Growth
import Monomorph.Proofs.Expansion.Heads

/-!
# Paths in an expansion

A path of calls from a generic leads to generics that it leads to in the file, and to specializations of
uses that are demanded from there on: `Accepted.reaches_of_path`. If it leads back to where the generic was
called, the generic and the caller lead to each other in the file as well, and between such generics the
arguments of uses do not grow: `Accepted.isGrowing_of_demanded`.
-/

namespace Monomorph

/-! ## Demand from a generic on -/

open scoped Classical in
/-- The uses in the definitions that a generic leads to. -/
noncomputable def Library.rootsFrom (library : Library) (definitions : List TypeDef) (start : String) :
    List Use :=
  TypeDef.roots true (definitions.filter fun d => library.Leads start d.name)

/-- The heads that occur in the definitions that a generic leads to, and in what comes of them: names of
specializations, names without arguments, and generics that it leads to. -/
def Library.LedHead (library : Library) (start name : String) (arity : Nat) : Prop :=
  isSynthetic name = true ∨ arity = 0 ∨ library.Leads start name

namespace Accepted

variable {definitions : List TypeDef} {start : String}

theorem mem_rootsFrom (h : Accepted definitions) {u : Use} :
    u ∈ h.library.rootsFrom definitions start ↔ ∃ d ∈ definitions, h.library.Leads start d.name ∧
      u ∈ d.body.uses Use.reference Environment.empty := by
  have hkept : ∀ d : TypeDef, d.isKept true = true := fun d => Bool.or_true _
  simp only [Library.rootsFrom, TypeDef.roots, List.mem_flatMap, List.mem_filter, decide_eq_true_eq, hkept,
    ↓reduceIte, and_assoc]
  constructor
  · rintro ⟨d, hd, hleads, hu⟩
    rw [TypeDef.uses, TypeExpr.normalize_eq_self (h.writable d hd).normal] at hu
    exact ⟨d, hd, hleads, hu⟩
  · rintro ⟨d, hd, hleads, hu⟩
    refine ⟨d, hd, hleads, ?_⟩
    rwa [TypeDef.uses, TypeExpr.normalize_eq_self (h.writable d hd).normal]

theorem roots_rootsFrom (h : Accepted definitions) (start : String) :
    h.library.Roots (h.library.rootsFrom definitions start) := by
  intro u hu
  obtain ⟨d, hd, hleads, hmem⟩ := h.mem_rootsFrom.1 hu
  refine ⟨d.name, d, h.find_definition hd, hmem, fun v hv => ?_⟩
  exact h.mem_rootsFrom.2 ⟨d, hd, hleads, hv⟩

/-- What is demanded from a generic on is demanded by the file. -/
theorem demanded_of_rootsFrom (h : Accepted definitions) {u : Use}
    (hu : Demanded h.library (h.library.rootsFrom definitions start) u) :
    Demanded h.library (TypeDef.roots true definitions) u := by
  refine hu.mono id fun v hv => ?_
  obtain ⟨d, hd, -, hmem⟩ := h.mem_rootsFrom.1 hv
  exact h.mem_roots hd (Bool.or_true _) hmem

theorem leads_call {library : Library} {name : String} {d : TypeDef} (hd : library.find name = some d)
    {call : Application} (hcall : call ∈ d.body.calls) : library.Leads name call.callee :=
  .single ⟨d, hd, call, hcall, rfl⟩

/-- The definitions that a generic leads to apply what it leads to. -/
theorem tidy_ledHead (h : Accepted definitions) {name : String} {d : TypeDef}
    (hleads : h.library.Leads start name) (hd : h.library.find name = some d) :
    d.body.Tidy (h.library.LedHead start) := by
  refine h.tidy hd fun head args a hmem => ?_
  cases args with
  | nil => exact Or.inr (Or.inl rfl)
  | cons arg rest =>
    have hcall : (⟨head, arg :: rest⟩ : Application) ∈ d.body.calls :=
      List.mem_filterMap.2 ⟨_, hmem, rfl⟩
    exact Or.inr (Or.inr (hleads.trans (leads_call hd hcall)))

/-- Uses that are demanded from a generic on are of generics that it leads to, and so is what is applied
in their arguments. -/
theorem led_of_demanded (h : Accepted definitions) {u : Use}
    (hu : Demanded h.library (h.library.rootsFrom definitions start) u) :
    h.library.Leads start u.generic ∧ ∀ arg ∈ u.args, arg.Tidy (h.library.LedHead start) := by
  refine hu.tidy Or.inl (fun hleads hd call hcall => hleads.trans (leads_call hd hcall)) (fun v hv => ?_)
    h.tidy_ledHead
  obtain ⟨d, hd, hleads, hmem⟩ := h.mem_rootsFrom.1 hv
  exact ⟨d.name, d, hleads, h.find_definition hd, hmem⟩

/-- The arguments of uses do not grow between generics that lead to each other. -/
theorem isGrowing_of_demanded (h : Accepted definitions) {u : Use}
    (hu : Demanded h.library (h.library.rootsFrom definitions start) u)
    (hback : h.library.Leads u.generic start) : ∀ arg ∈ u.args, Check.isGrowing arg = false := by
  -- Every use comes from a call in a definition that the generic of the use leads back to.
  have huses : ∀ {name d env v}, h.library.Leads start name → h.library.find name = some d →
      (∀ {x w}, env x = some w → Check.isGrowing w = false) → v ∈ d.body.uses Use.reference env →
      h.library.Leads v.generic start → ∀ arg ∈ v.args, Check.isGrowing arg = false := by
    intro name d env v hleads hd henv hv hback arg harg
    obtain ⟨node, hnode, call, hcall, rfl⟩ := TypeExpr.mem_uses hv
    obtain ⟨part, hpart, rfl⟩ := List.mem_map.1 harg
    have hmem : call ∈ d.body.calls := List.mem_filterMap.2 ⟨node, hnode, hcall⟩
    have hflat := h.regular.flat hd call hmem (hback.trans hleads) part hpart
    exact TypeExpr.isGrowing_substituteBy henv (TypeExpr.isGrowing_eq_false_iff.2 hflat)
  induction hu with
  | @root u hroot =>
    obtain ⟨d, hd, hleads, hmem⟩ := h.mem_rootsFrom.1 hroot
    refine huses hleads (h.find_definition hd) (fun hbind => ?_) hmem hback
    cases hbind
  | @nested u v d hdemanded hd hnested ih =>
    have hmem := Use.mem_uses_of_nested hnested
    have hcalls := leads_of_uses hd hmem
    refine huses (h.led_of_demanded hdemanded).1 hd (fun hbind => ?_) hmem hback
    have hwanted := Use.forall_wanted (fun harg => TypeExpr.isGrowing_renameVars harg _)
      (ih (hcalls.trans hback))
    exact hwanted _ (Use.mem_of_environment hbind)

end Accepted

/-! ## Paths in an expansion -/

/-- What paths of calls in an expansion can lead to from a generic on: generics that it leads to in the
file, and specializations that are demanded from there on. -/
def Library.Reaches (library : Library) (definitions : List TypeDef) (start name : String) : Prop :=
  (∃ d ∈ definitions, d.name = name ∧ library.Leads start name) ∨
    ∃ w, Demanded library (library.rootsFrom definitions start) w ∧ w.name = name

namespace Accepted

variable {definitions : List TypeDef} {start : String} {added : List Use}

/-- No two definitions of an expansion have the same name. -/
theorem eq_of_name_eq (h : Accepted definitions) {keepPoly : Bool}
    (hvisits : Visits h.library [] (TypeDef.roots keepPoly definitions) added) {out other : TypeDef}
    (hout : out ∈ (h.library.outcome keepPoly definitions added).definitions)
    (hother : other ∈ (h.library.outcome keepPoly definitions added).definitions)
    (hname : out.name = other.name) : out = other :=
  List.inj_on_of_nodup_map (h.nodup_names_outcome hvisits) hout hother hname

/-- A definition that a path leads to applies and refers to what the start of the path leads to. -/
theorem led_of_reaches (h : Accepted definitions)
    (hvisits : Visits h.library [] (TypeDef.roots true definitions) added) {out : TypeDef}
    (hout : out ∈ (h.library.outcome true definitions added).definitions)
    (hreaches : h.library.Reaches definitions start out.name) :
    out.body.Tidy (h.library.LedHead start) ∧
      out.body.Proper (Demanded h.library (h.library.rootsFrom definitions start)) := by
  have hroots := h.roots_rootsFrom start
  obtain ⟨d, hd, hname, hleads⟩ | ⟨w, hw, hname⟩ := hreaches
  · have hmem : d.expanded ∈ (h.library.outcome true definitions added).definitions :=
      Library.expanded_mem_outcome hd (Bool.or_true _)
    obtain rfl := h.eq_of_name_eq hvisits hmem hout hname
    change h.library.Leads start d.name at hleads
    rw [h.expanded_eq hd]
    constructor
    · exact (h.tidy_ledHead hleads (h.find_definition hd)).substituteBy Or.inl nofun
    · refine TypeExpr.proper_substituteBy nofun (h.writable d hd).body (h.writable d hd).normal ?_
      intro u hu hproper
      exact TypeExpr.proper_reference (.root (h.mem_rootsFrom.2 ⟨d, hd, hleads, hu⟩)) hproper
  · obtain ⟨d, hd, hmem⟩ := h.exists_specialization hvisits (h.demanded_of_rootsFrom hw) (Or.inr rfl)
    obtain rfl := h.eq_of_name_eq hvisits hmem hout hname
    obtain ⟨hleads, hargs⟩ := h.led_of_demanded hw
    constructor
    · exact Use.tidy_specialization Or.inl (h.tidy_ledHead hleads hd) (Or.inr (Or.inr hleads)) hargs
        (hw.plain_annots h.written hroots)
    · exact hw.proper_specialization h.written hroots hd (h.ofName?_of_isAbstract hd)

/-- A definition of an expansion with a plain name is one of the file. -/
theorem exists_definition (h : Accepted definitions) {keepPoly : Bool} {out : TypeDef}
    (hout : out ∈ (h.library.outcome keepPoly definitions added).definitions)
    (hplain : isSynthetic out.name = false) : ∃ d ∈ definitions, d.expanded = out := by
  obtain ⟨d, hd, -, heq⟩ | ⟨u, -, -, d, -, rfl⟩ := Library.mem_outcome.1 hout
  · exact ⟨d, hd, heq⟩
  · have hsynthetic := u.isSynthetic_name
    change isSynthetic u.name = false at hplain
    rw [hplain] at hsynthetic
    cases hsynthetic

/-- One more call leads no further. -/
theorem reaches_of_calls (h : Accepted definitions)
    (hvisits : Visits h.library [] (TypeDef.roots true definitions) added) {caller callee : String}
    (hreaches : h.library.Reaches definitions start caller)
    (hcalls : Calls (h.library.outcome true definitions added).definitions caller callee) :
    h.library.Reaches definitions start callee := by
  obtain ⟨⟨out, hout, rfl, -, call, hcall, rfl⟩, target, htarget, hname, -⟩ := hcalls
  obtain ⟨htidy, hproper⟩ := h.led_of_reaches hvisits hout hreaches
  obtain ⟨hne, a, hnode⟩ := TypeExpr.mem_applications.1 hcall
  cases hsynthetic : isSynthetic call.callee with
  | true =>
    obtain ⟨w, hw, hname, -⟩ := (hproper _ hnode).reference rfl hsynthetic
    exact Or.inr ⟨w, hw, hname⟩
  | false =>
    obtain ⟨d, hd, rfl⟩ := h.exists_definition htarget (hname ▸ hsynthetic)
    obtain hhead | hzero | hleads := (htidy _ hnode).head rfl
    · rw [hsynthetic] at hhead
      cases hhead
    · exact absurd (List.eq_nil_of_length_eq_zero hzero) hne
    · exact Or.inl ⟨d, hd, hname, hleads⟩

/-- A path of calls leads from a generic to what is demanded from it on. -/
theorem reaches_of_path (h : Accepted definitions)
    (hvisits : Visits h.library [] (TypeDef.roots true definitions) added)
    (hstart : ∃ d ∈ definitions, d.name = start) {name : String}
    (hpath : Relation.ReflTransGen (Calls (h.library.outcome true definitions added).definitions)
      start name) : h.library.Reaches definitions start name := by
  induction hpath with
  | refl =>
    obtain ⟨d, hd, hname⟩ := hstart
    exact Or.inl ⟨d, hd, hname, .refl⟩
  | tail _ hcalls ih => exact h.reaches_of_calls hvisits ih hcalls

end Accepted

end Monomorph
