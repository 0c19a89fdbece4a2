import Mathlib.Data.Set.Card
import Monomorph.Proofs.Expansion.Demand
import Monomorph.Proofs.TypeExpr.Finite

/-!
# Finitely many specializations

A library is regular if a generic hands nothing but variables and closed expressions to the generics that
lead back to it. Then only finitely many specializations are demanded, which is proved generic by
generic, those first that lead to the others.

Between generics that lead to each other, an argument can only gain annotations and change its
variables: it is a variation of an expression that comes in from outside or stands closed in some
definition. Since the number of different variables never grows, variations are finite in number. What
comes in from outside is written by generics that are dealt with, in finitely many of their instances.
-/

namespace Monomorph

/-- Calls lead from one generic of a library to another, in any number of steps. -/
def Library.Leads (library : Library) : String → String → Prop :=
  Relation.ReflTransGen fun x y => ∃ d, library.find x = some d ∧ ∃ call ∈ d.body.calls, call.callee = y

/-- A library is finite, and what a generic hands to the generics that lead back to it is flat. -/
structure Library.Regular (library : Library) : Prop where
  finite : {name | (library.find name).isSome}.Finite
  flat : ∀ {name d}, library.find name = some d → ∀ call ∈ d.body.calls,
    library.Leads call.callee name → ∀ arg ∈ call.args, arg.isVar = true ∨ arg.varNames = []

namespace Library

variable {library : Library}

/-- What can be said of each definition of a finite library collects to a finite set. -/
theorem Regular.finite_collect (h : library.Regular) {α : Type} {f : TypeDef → Set α}
    (hf : ∀ d, (f d).Finite) : {x | ∃ name d, library.find name = some d ∧ x ∈ f d}.Finite := by
  refine (h.finite.biUnion fun name _ =>
    show (⋃ d ∈ {d | library.find name = some d}, f d).Finite from
      Set.Finite.biUnion ?_ fun d _ => hf d).subset ?_
  · apply Set.Subsingleton.finite
    intro d hd e he
    exact Option.some.inj (hd.symm.trans he)
  · rintro x ⟨name, d, hd, hx⟩
    simp only [Set.mem_iUnion]
    exact ⟨name, Option.isSome_iff_exists.2 ⟨d, hd⟩, d, hd, hx⟩

/-- The sets of annotations that uses can gather. -/
def gathered (library : Library) : Set Annots :=
  {a | ∀ b ∈ a, b ∈ {b | ∃ name d, library.find name = some d ∧ b ∈ d.body.annotations}}

theorem Regular.finite_gathered (h : library.Regular) : library.gathered.Finite :=
  Annots.finite_of_mem (h.finite_collect fun d => List.finite_toSet d.body.annotations)

theorem annots_mem_gathered {name : String} {d : TypeDef} (hd : library.find name = some d)
    {node : TypeExpr} (hnode : node ∈ d.body.subterms) : node.annots ∈ library.gathered :=
  fun _ hb => ⟨name, d, hd, List.mem_flatMap.2 ⟨node, hnode, hb⟩⟩

theorem union_mem_gathered {a b : Annots} (ha : a ∈ library.gathered) (hb : b ∈ library.gathered) :
    a ∪ b ∈ library.gathered := by
  intro c hc
  obtain hc | hc := Annots.mem_union.1 hc
  · exact ha c hc
  · exact hb c hc

/-- The parts of definitions, as they stand there. -/
def standing (library : Library) : Set TypeExpr :=
  {t | ∃ name d, library.find name = some d ∧
    t ∈ d.body.subterms.map (TypeExpr.substituteBy Use.reference Environment.empty)}

theorem Regular.finite_standing (h : library.Regular) : library.standing.Finite :=
  h.finite_collect fun _ => List.finite_toSet _

/-- No generic has more parameters than this. -/
theorem Regular.exists_width (h : library.Regular) :
    ∃ width, ∀ name d, library.find name = some d → d.params.length ≤ width := by
  obtain ⟨width, hwidth⟩ :=
    (h.finite_collect fun d => Set.finite_singleton d.params.length).bddAbove
  exact ⟨width, fun name d hd => hwidth ⟨name, d, hd, rfl⟩⟩

end Library

/-! ## The number of variables -/

/-- The canonical variables of uses with no more than `width` different variables. -/
def canonicalVars (width : Nat) : Set String := canonicalVar '' {k | k < width}

theorem finite_canonicalVars (width : Nat) : (canonicalVars width).Finite :=
  (Set.finite_lt_nat width).image _

/-- The arguments of a use have no more than `width` different variables. -/
def Use.Narrow (width : Nat) (u : Use) : Prop :=
  ∃ names : List String, names.length ≤ width ∧ Instance.occurrences u.args ⊆ names

theorem Use.Narrow.canonical_mem {width : Nat} {u : Use} (h : u.Narrow width) {x : String}
    (hx : x ∈ Instance.occurrences u.args) : Instance.canonical u.args x ∈ canonicalVars width := by
  obtain ⟨names, hlength, hsubset⟩ := h
  refine ⟨_, ?_, rfl⟩
  have hmem := List.mem_eraseDups.2 hx
  have hidx := List.idxOf_lt_length_of_mem hmem
  have hcount : (Instance.occurrences u.args).eraseDups.length ≤ names.length :=
    ((Occurrences.nodup_eraseDups _).subperm fun y hy => hsubset (List.mem_eraseDups.1 hy)).length_le
  exact Nat.lt_of_lt_of_le hidx (Nat.le_trans hcount hlength)

theorem Use.Narrow.varNames_wanted {width : Nat} {u : Use} (h : u.Narrow width) {t : TypeExpr}
    (ht : t ∈ u.wanted.args) : ∀ x ∈ t.varNames, x ∈ canonicalVars width := by
  intro x hx
  rw [Use.args_wanted] at ht
  obtain ⟨arg, harg, rfl⟩ := List.mem_map.1 ht
  rw [TypeExpr.varNames_renameVars] at hx
  obtain ⟨y, hy, rfl⟩ := List.mem_map.1 hx
  exact h.canonical_mem (Instance.mem_occurrences harg hy)

/-- The variables of the uses in an expression are those that the environment puts there. -/
theorem TypeExpr.forall_occurrences_uses {P : String → Prop} {env : Environment} {t : TypeExpr}
    (h : ∀ name ∈ t.varNames, ∀ a, ∀ x ∈ (env.occurrence name a).varNames, P x) {u : Use}
    (hu : u ∈ t.uses Use.reference env) : ∀ x ∈ Instance.occurrences u.args, P x := by
  obtain ⟨node, hnode, call, hcall, rfl⟩ := mem_uses hu
  intro x hx
  rw [Instance.occurrences, List.flatMap_map] at hx
  obtain ⟨arg, harg, hx⟩ := List.mem_flatMap.1 hx
  have hmem := mem_subterms_of_call hnode hcall arg harg
  exact forall_varNames_substituteBy (fun name hname => h name (varNames_subset hmem hname)) x hx

section Demanded

variable {library : Library} {roots : List Use} {width : Nat}

/-- Uses have no more different variables than the generics have parameters. -/
theorem Demanded.narrow (hsound : library.Sound) (hroots : library.Roots roots)
    (hwidth : ∀ name d, library.find name = some d → d.params.length ≤ width) {u : Use}
    (h : Demanded library roots u) : u.Narrow width := by
  induction h with
  | root hroot =>
    obtain ⟨name, d, hd, hu, -⟩ := hroots _ hroot
    refine ⟨d.params, hwidth name d hd, ?_⟩
    refine TypeExpr.forall_occurrences_uses (fun x hx a y hy => ?_) hu
    rw [Environment.occurrence_empty, TypeExpr.varNames_eq] at hy
    rw [List.mem_singleton.1 hy]
    exact hsound.bound hd hx
  | @nested u v d hdemanded hd hnested ih =>
    obtain ⟨e, he, harity⟩ := hdemanded.declared hsound hroots
    obtain rfl := Option.some.inj (hd.symm.trans he)
    refine ⟨(List.range width).map canonicalVar, by simp, ?_⟩
    refine TypeExpr.forall_occurrences_uses (fun x hx a y hy => ?_) (Use.mem_uses_of_nested hnested)
    obtain ⟨t, ht, hbind⟩ := Use.environment_isSome harity (hsound.bound hd hx)
    rw [Environment.occurrence_of_eq_some hbind, TypeExpr.varNames_annotate] at hy
    obtain ⟨k, hk, rfl⟩ := ih.varNames_wanted ht y hy
    exact List.mem_map_of_mem (List.mem_range.2 hk)

/-! ## The arguments that come in -/

/-- The arguments of the demanded instances of a generic. -/
def instances (library : Library) (roots : List Use) (generic : String) : Set (List TypeExpr) :=
  {args | ∃ u, Demanded library roots u ∧ u.generic = generic ∧ u.wanted.args = args}

/-- What the uses lead to that hand arguments to a generic and are not led to by it. -/
def handed (library : Library) (roots : List Use) (generic : String) : Set TypeExpr :=
  {t | ∃ caller, (library.Leads caller generic ∧ ¬ library.Leads generic caller) ∧
    ∃ d, library.find caller = some d ∧ ∃ args ∈ instances library roots caller,
      t ∈ (d.body.uses Use.reference (Environment.bind d.params args)).flatMap Use.args}

/-- The arguments that a generic, and those it calls and is called by, are handed from outside. -/
def incoming (library : Library) (roots : List Use) (generic : String) : Set TypeExpr :=
  {t | t ∈ roots.flatMap Use.args} ∪ library.standing ∪ handed library roots generic

theorem finite_incoming (hregular : library.Regular) {generic : String}
    (h : ∀ caller, (library.find caller).isSome → library.Leads caller generic →
      ¬ library.Leads generic caller → (instances library roots caller).Finite) :
    (incoming library roots generic).Finite := by
  apply ((List.finite_toSet _).union hregular.finite_standing).union
  let callers : Set String := {caller | (library.find caller).isSome ∧
    library.Leads caller generic ∧ ¬ library.Leads generic caller}
  have hcallers : callers.Finite := hregular.finite.subset fun caller hcaller => hcaller.1
  refine (hcallers.biUnion fun caller hcaller =>
    (h caller hcaller.1 hcaller.2.1 hcaller.2.2).biUnion fun args _ =>
      show ((library.find caller).elim ∅ fun d => {t | t ∈ (d.body.uses Use.reference
        (Environment.bind d.params args)).flatMap Use.args}).Finite from ?_).subset ?_
  · cases library.find caller with
    | none => exact Set.finite_empty
    | some d => exact List.finite_toSet _
  · rintro t ⟨caller, hleads, d, hd, args, hargs, ht⟩
    simp only [Set.mem_iUnion]
    refine ⟨caller, ⟨by simp [hd], hleads⟩, args, hargs, ?_⟩
    rw [hd]
    exact ht

/-- A use of a generic is a call of it. -/
theorem leads_of_uses {name : String} {d : TypeDef} (hd : library.find name = some d)
    {env : Environment} {u : Use} (hu : u ∈ d.body.uses Use.reference env) :
    library.Leads name u.generic := by
  obtain ⟨node, hnode, call, hcall, rfl⟩ := TypeExpr.mem_uses hu
  exact .single ⟨d, hd, call, List.mem_filterMap.2 ⟨node, hnode, hcall⟩, rfl⟩

/-- Arguments that come in from outside are variations of themselves. -/
theorem variation_of_incoming {generic : String} {u : Use} (hnarrow : u.Narrow width) {t : TypeExpr}
    (ht : t ∈ u.args) (hincoming : t ∈ incoming library roots generic) :
    t.renameVars (Instance.canonical u.args) ∈
      TypeExpr.variations (incoming library roots generic) library.gathered (canonicalVars width) :=
  ⟨t, hincoming, ∅, fun _ hb => absurd hb (Annots.not_mem_empty _), Instance.canonical u.args,
    fun _ hx => hnarrow.canonical_mem (Instance.mem_occurrences ht hx), by rw [TypeExpr.annotate_empty]⟩

/-- Between generics that lead to each other, arguments only vary. -/
theorem Demanded.variations (hsound : library.Sound) (hregular : library.Regular)
    (hroots : library.Roots roots)
    (hwidth : ∀ name d, library.find name = some d → d.params.length ≤ width) {generic : String}
    {u : Use} (h : Demanded library roots u) (hto : library.Leads u.generic generic)
    (hfrom : library.Leads generic u.generic) : ∀ t ∈ u.wanted.args,
      t ∈ TypeExpr.variations (incoming library roots generic) library.gathered (canonicalVars width) := by
  induction h with
  | @root u hroot =>
    intro t ht
    obtain ⟨arg, harg, rfl⟩ := List.mem_map.1 ht
    apply variation_of_incoming ((Demanded.root hroot).narrow hsound hroots hwidth) harg
    exact Or.inl (Or.inl (List.mem_flatMap.2 ⟨u, hroot, harg⟩))
  | @nested u v d hdemanded hd hnested ih =>
    have huses := Use.mem_uses_of_nested hnested
    have hnarrow := (hdemanded.nested hd hnested).narrow hsound hroots hwidth
    have hcalls := leads_of_uses hd huses
    intro t ht
    obtain ⟨arg, harg, rfl⟩ := List.mem_map.1 ht
    by_cases hback : library.Leads generic u.generic
    · -- The caller is one of the generics that lead to each other, so what it hands on is flat.
      obtain ⟨e, he, harity⟩ := hdemanded.declared hsound hroots
      obtain rfl := Option.some.inj (hd.symm.trans he)
      obtain ⟨node, hnode, call, hcall, heq⟩ := TypeExpr.mem_uses huses
      have hargs : v.args = call.args.map
        (TypeExpr.substituteBy Use.reference (u.environment d)) := congrArg Use.args heq
      rw [hargs] at harg
      obtain ⟨part, hpart, rfl⟩ := List.mem_map.1 harg
      rw [← hargs] at harg
      have hmem := TypeExpr.mem_subterms_of_call hnode hcall part hpart
      have hcycle : library.Leads call.callee u.generic := by
        rw [heq] at hto
        exact hto.trans hback
      obtain hvar | hclosed := hregular.flat hd call (List.mem_filterMap.2 ⟨node, hnode, hcall⟩)
        hcycle part hpart
      · obtain ⟨name, hname⟩ := Option.isSome_iff_exists.1 hvar
        obtain ⟨b, rfl⟩ := TypeExpr.var?_eq_some.1 hname
        have hbound : name ∈ d.params := hsound.bound hd (List.mem_filterMap.2 ⟨_, hmem, rfl⟩)
        obtain ⟨t, ht, hbind⟩ := Use.environment_isSome harity hbound
        obtain ⟨w, hw, a, ha, f, hf, rfl⟩ := ih (hcalls.trans hto) hback t ht
        have hoccurrence : (TypeExpr.var name b).substituteBy Use.reference (u.environment d) =
            (w.annotate (a ∪ b)).renameVars f := by
          rw [TypeExpr.substituteBy_var, Environment.occurrence_of_eq_some hbind,
            ← TypeExpr.renameVars_annotate, TypeExpr.annotate_annotate]
        rw [hoccurrence] at harg ⊢
        refine ⟨w, hw, a ∪ b, Library.union_mem_gathered ha (Library.annots_mem_gathered hd hmem),
          Instance.canonical v.args ∘ f, fun x hx => ?_, TypeExpr.renameVars_renameVars _ _ _⟩
        refine hnarrow.canonical_mem (Instance.mem_occurrences harg ?_)
        rw [TypeExpr.varNames_renameVars, TypeExpr.varNames_annotate]
        exact List.mem_map_of_mem hx
      · refine variation_of_incoming hnarrow harg (Or.inl (Or.inr ⟨u.generic, d, hd, ?_⟩))
        rw [TypeExpr.substituteBy_of_closed _ _ hclosed Environment.empty]
        exact List.mem_map_of_mem hmem
    · refine variation_of_incoming hnarrow harg (Or.inr ?_)
      exact ⟨u.generic, ⟨hcalls.trans hto, hback⟩, d, hd, u.wanted.args, ⟨u, hdemanded, rfl, rfl⟩,
        List.mem_flatMap.2 ⟨v, huses, harg⟩⟩

/-- The generics that lead to a generic. -/
def callers (library : Library) (generic : String) : Set String :=
  {name | (library.find name).isSome ∧ library.Leads name generic}

/-- Each generic is demanded in finitely many instances. -/
theorem finite_instances (hsound : library.Sound) (hregular : library.Regular)
    (hroots : library.Roots roots) (generic : String) : (instances library roots generic).Finite := by
  obtain ⟨width, hwidth⟩ := hregular.exists_width
  -- Generics come after those that lead to them and are not led to by them.
  induction h : (callers library generic).ncard using Nat.strongRecOn generalizing generic with
  | ind n ih =>
    cases hd : library.find generic with
    | none =>
      apply Set.finite_empty.subset
      rintro args ⟨u, hdemanded, rfl, -⟩
      obtain ⟨d, hsome, -⟩ := hdemanded.declared hsound hroots
      rw [hd] at hsome
      cases hsome
    | some d =>
      have hincoming : (incoming library roots generic).Finite := by
        refine finite_incoming hregular fun caller hcaller hto hfrom => ih _ ?_ caller rfl
        rw [← h]
        refine Set.ncard_lt_ncard ⟨fun name hname => ⟨hname.1, hname.2.trans hto⟩, fun hsubset => ?_⟩
          (hregular.finite.subset fun name hname => hname.1)
        exact hfrom (hsubset ⟨by simp [hd], .refl⟩).2
      refine (finite_lists (TypeExpr.finite_variations hincoming hregular.finite_gathered
        (finite_canonicalVars width)) d.arity).subset ?_
      rintro args ⟨u, hdemanded, rfl, rfl⟩
      obtain ⟨e, he, harity⟩ := hdemanded.declared hsound hroots
      obtain rfl := Option.some.inj (hd.symm.trans he)
      refine ⟨u.length_args_wanted.trans harity.symm, fun t ht => ?_⟩
      exact hdemanded.variations hsound hregular hroots hwidth .refl .refl t ht

/-- The annotations of a use are those of a node. -/
theorem Demanded.annots_mem (hroots : library.Roots roots) {u : Use} (h : Demanded library roots u) :
    u.annots ∈ library.gathered := by
  have hnode : ∀ {name d env}, library.find name = some d → u ∈ d.body.uses Use.reference env →
      u.annots ∈ library.gathered := by
    intro name d env hd hu
    obtain ⟨node, hnode, call, -, heq⟩ := TypeExpr.mem_uses hu
    rw [heq]
    exact Library.annots_mem_gathered hd hnode
  cases h with
  | root hroot =>
    obtain ⟨name, d, hd, hu, -⟩ := hroots u hroot
    exact hnode hd hu
  | nested _ hd hnested => exact hnode hd (Use.mem_uses_of_nested hnested)

/-- Finitely many specializations are demanded. -/
theorem finite_names (hsound : library.Sound) (hregular : library.Regular)
    (hroots : library.Roots roots) : (Use.name '' {u | Demanded library roots u}).Finite := by
  refine ((hregular.finite.biUnion fun generic _ =>
    (finite_instances hsound hregular hroots generic).biUnion fun args _ =>
      hregular.finite_gathered.image fun a =>
        "@(" ++ TypeExpr.signature generic args a ++ ")")).subset ?_
  rintro name ⟨u, hdemanded, rfl⟩
  obtain ⟨d, hd, -⟩ := hdemanded.declared hsound hroots
  simp only [Set.mem_iUnion]
  exact ⟨u.generic, by simp [hd], u.wanted.args, ⟨u, hdemanded, rfl, rfl⟩, u.annots,
    hdemanded.annots_mem hroots, rfl⟩

end Demanded

end Monomorph
