import Monomorph.Proofs.Expansion.Flat
import Monomorph.Proofs.Expansion.Heads

/-!
# The monomorphic normal form

In an expansion, generics and containers are handed nothing but variables, except at the root of
specializations that have to say what they are specializations of: the container of an argument, an
abstract generic with its arguments, and a generic whose declared body applies the generic itself.
Unless generics are kept, no variable and no parameter is left, and every name without arguments is
built in or defined exactly once. `Source.expand_normal` states this for every accepted file.
-/

namespace Monomorph

/-- The specializations whose bodies are applications at the root, to any arguments. -/
inductive TypeDef.AppliedAtRoot (definitions : List TypeDef) (generic : String) (out : TypeDef) : Prop
  /-- A container of the argument of the specialization. -/
  | container (kind : ContainerKind) (element : TypeExpr) (a : Annots) (builtin : generic = kind.name)
      (name : out.name = "@(" ++ TypeExpr.signature kind.name [element] a ++ ")")
      (body : out.body = .container kind element a) (flat : element.IsFlat)
  /-- An abstract generic, applied to the arguments of the specialization. -/
  | abstract (g : TypeDef) (args : List TypeExpr) (a : Annots) (declared : g ∈ definitions)
      (named : generic = g.name) (marked : g.body.isAbstract = true)
      (name : out.name = "@(" ++ TypeExpr.signature g.name args a ++ ")")
      (body : out.body = .named g.name args a) (flat : ∀ arg ∈ args, arg.IsFlat)
  /-- The declared body of a generic that is an application of the generic itself, with the arguments of
  the specialization in the place of the parameters. -/
  | selfApplied (g : TypeDef) (own args : List TypeExpr) (b a : Annots) (declared : g ∈ definitions)
      (named : generic = g.name) (root : g.body = .named g.name own b) (applied : own ≠ [])
      (name : out.name = "@(" ++ TypeExpr.signature g.name args a ++ ")")
      (body : out.body = (g.body.replaceVars (Environment.bind g.params args)).annotate a)
      (flat : ∀ arg ∈ args, arg.IsFlat)

/-- The definitions of an expansion are flat but for the roots of some specializations, and unless
generics are kept they are closed and apply nothing but what is built in or defined, exactly once. -/
structure Expansion.Normal (definitions : List TypeDef) (keepPoly : Bool) (expansion : Expansion) :
    Prop where
  flat : ∀ out ∈ expansion.definitions, out.body.IsFlat ∨
    ∃ origin, expansion.origins.lookup out.name = some origin ∧
      out.AppliedAtRoot definitions origin.generic
  closed : keepPoly = false → ∀ out ∈ expansion.definitions, out.params = [] ∧ out.body.varNames = []
  heads : keepPoly = false → ∀ out ∈ expansion.definitions, ∀ name a,
    .named name [] a ∈ out.body.subterms →
      (∃ b ∈ Catalogue.standard, b.name = name ∧ b.arity = 0) ∨
      (expansion.definitions.map TypeDef.name).count name = 1

namespace Accepted

variable {definitions : List TypeDef} {keepPoly : Bool} {added : List Use}

/-- The specialization of an abstract generic applies the generic to its arguments. -/
theorem appliedAtRoot_of_isAbstract (h : Accepted definitions) {u : Use}
    (hargs : ∀ arg ∈ u.wanted.args, arg.IsFlat) {d : TypeDef} (hd : h.library.find u.generic = some d)
    (hmarked : d.body.isAbstract = true) :
    (u.specialization d).AppliedAtRoot definitions u.generic := by
  obtain ⟨hmem, hgeneric⟩ | ⟨kind, -, rfl⟩ := h.find_cases hd
  · refine .abstract d u.wanted.args u.annots hmem hgeneric.symm hmarked ?_ ?_ hargs
    · rw [hgeneric]
      rfl
    · rw [Use.specialization, Use.body, if_pos hmarked, hgeneric]
      exact congrArg (TypeExpr.named u.generic u.wanted.args) (Annots.empty_union _)
  · cases hmarked

/-- The specialization of a container is the container of its argument, where it would refer to itself. -/
theorem appliedAtRoot_container (h : Accepted definitions) {u : Use}
    (hu : Demanded h.library (TypeDef.roots keepPoly definitions) u) {kind : ContainerKind}
    (hkind : u.generic = kind.name) (hbody : u.body (Catalogue.containerDef kind) =
      (Catalogue.containerDef kind).body.replaceVars (u.environment (Catalogue.containerDef kind))) :
    (u.specialization (Catalogue.containerDef kind)).AppliedAtRoot definitions u.generic := by
  obtain ⟨d, hd, harity⟩ := hu.declared h.sound (h.roots keepPoly)
  rw [hkind] at hd
  obtain rfl := Option.some.inj ((h.find_container kind).symm.trans hd)
  obtain ⟨element, helement⟩ := List.length_eq_one_iff.1 (u.length_args_wanted.trans harity.symm)
  have hflat : element.IsFlat := by
    apply hu.isFlat_wanted (h.roots keepPoly)
    rw [helement]
    exact List.mem_singleton_self element
  have henv : u.environment (Catalogue.containerDef kind) "a" = some element := by
    rw [Use.environment, helement]
    rfl
  have hroot : (Catalogue.containerDef kind).body.replaceVars (u.environment (Catalogue.containerDef kind)) =
      .container kind element ∅ := by
    rw [Catalogue.containerDef, TypeExpr.replaceVars_container, TypeExpr.replaceVars_var]
    rw [Catalogue.containerDef] at henv
    rw [Environment.occurrence_of_eq_some henv, TypeExpr.annotate_empty]
  refine .container kind element u.annots hkind ?_ ?_ hflat
  · rw [← hkind, ← helement]
    rfl
  · rw [Use.specialization, hbody, hroot]
    exact congrArg (TypeExpr.container kind element) (Annots.empty_union _)

/-- A specialization that would refer to itself at the root is its declared body, with the arguments in
the place of the parameters. -/
theorem appliedAtRoot_of_isNamed (h : Accepted definitions) {u : Use}
    (hu : Demanded h.library (TypeDef.roots keepPoly definitions) u) {d : TypeDef}
    (hd : h.library.find u.generic = some d) (hmarked : ¬ d.body.isAbstract = true)
    (hself : (d.body.substituteBy Use.reference (u.environment d)).isNamed u.name = true) :
    (u.specialization d).AppliedAtRoot definitions u.generic := by
  have hbody : u.body d = d.body.replaceVars (u.environment d) := by
    rw [Use.body, if_neg hmarked]
    exact if_pos hself
  obtain ⟨hmem, hgeneric⟩ | ⟨kind, hkind, rfl⟩ := h.find_cases hd
  · obtain ⟨kind, element, a, -, heq⟩ | ⟨own, b, hroot, happlied⟩ :=
      Use.root_of_isNamed h.written (h.roots keepPoly) hu hd hmarked hself
    · exact absurd (hgeneric.trans heq) (h.name_ne_container hmem kind)
    · refine .selfApplied d own u.wanted.args b u.annots hmem hgeneric.symm ?_ happlied ?_ ?_
        (hu.isFlat_wanted (h.roots keepPoly))
      · rw [hgeneric, hroot]
      · rw [hgeneric]
        rfl
      · rw [Use.specialization, hbody]
        rfl
  · exact h.appliedAtRoot_container hu hkind hbody

/-- The body of a specialization is flat but for an application at the root. -/
theorem flat_specialization (h : Accepted definitions) {u : Use}
    (hu : Demanded h.library (TypeDef.roots keepPoly definitions) u) {d : TypeDef}
    (hd : h.library.find u.generic = some d) : (u.specialization d).body.IsFlat ∨
      (u.specialization d).AppliedAtRoot definitions u.generic := by
  have hargs := hu.isFlat_wanted (h.roots keepPoly)
  by_cases hmarked : d.body.isAbstract = true
  · exact Or.inr (h.appliedAtRoot_of_isAbstract hargs hd hmarked)
  by_cases hself : (d.body.substituteBy Use.reference (u.environment d)).isNamed u.name = true
  · exact Or.inr (h.appliedAtRoot_of_isNamed hu hd hmarked hself)
  have hbody : u.body d = d.body.substituteBy Use.reference (u.environment d) := by
    rw [Use.body, if_neg hmarked]
    exact if_neg hself
  left
  rw [Use.specialization, hbody]
  refine TypeExpr.IsFlat.annotate (TypeExpr.isFlat_substituteBy (fun hbind => ?_) _) _
  exact hargs _ (Use.mem_of_environment hbind)

theorem flat_expanded (h : Accepted definitions) {d : TypeDef} (hd : d ∈ definitions) :
    d.expanded.body.IsFlat := by
  rw [h.expanded_eq hd]
  apply TypeExpr.isFlat_substituteBy
  intro x v hbind
  cases hbind

/-- The origin of a specialization is its generic. -/
theorem lookup_origins (h : Accepted definitions)
    (hvisits : Visits h.library [] (TypeDef.roots keepPoly definitions) added) {u : Use} (hu : u ∈ added) :
    (h.library.outcome keepPoly definitions added).origins.lookup u.name =
      some ⟨u.generic, u.args.length⟩ :=
  (Use.lookup_origins (h.nodup_names_added hvisits)).2 ⟨u, hu, rfl⟩

/-- Unless generics are kept, neither parameters nor variables are left. -/
theorem closed_outcome (h : Accepted definitions)
    (hvisits : Visits h.library [] (TypeDef.roots false definitions) added) {out : TypeDef}
    (hout : out ∈ (h.library.outcome false definitions added).definitions) :
    out.params = [] ∧ out.body.varNames = [] := by
  obtain ⟨d, hd, hkept, rfl⟩ | ⟨u, hu, hwidth, d, hd, rfl⟩ := Library.mem_outcome.1 hout
  · have hparams : d.params = [] := by simpa [TypeDef.isKept] using hkept
    have hclosed : d.body.varNames = [] :=
      List.subset_nil.1 (hparams ▸ h.wellFormed.bound d hd)
    rw [h.expanded_eq hd]
    refine ⟨hparams, List.eq_nil_iff_forall_not_mem.2 ?_⟩
    apply TypeExpr.forall_varNames_substituteBy
    intro name hname
    rw [hclosed] at hname
    cases hname
  · have hzero : u.width = 0 := by simpa using hwidth
    obtain ⟨e, he, harity⟩ := (hvisits.demanded u hu).declared h.sound (h.roots false)
    obtain rfl := Option.some.inj (hd.symm.trans he)
    constructor
    · show u.wanted.params = []
      rw [u.params_wanted, hzero]
      rfl
    · apply List.eq_nil_iff_forall_not_mem.2
      intro x hx
      obtain ⟨k, hk, -⟩ := Use.varNames_specialization (h.sound.bound hd) harity hx
      omega

/-- A definition of an expansion is the only one of its name. -/
theorem count_names (h : Accepted definitions)
    (hvisits : Visits h.library [] (TypeDef.roots keepPoly definitions) added) {out : TypeDef}
    (hout : out ∈ (h.library.outcome keepPoly definitions added).definitions) :
    ((h.library.outcome keepPoly definitions added).definitions.map TypeDef.name).count out.name = 1 :=
  List.count_eq_one_of_mem (h.nodup_names_outcome hvisits) (List.mem_map_of_mem hout)

/-- A name without arguments is built in or defined. -/
theorem defined_outcome (h : Accepted definitions)
    (hvisits : Visits h.library [] (TypeDef.roots keepPoly definitions) added) {out : TypeDef}
    (hout : out ∈ (h.library.outcome keepPoly definitions added).definitions) {name : String} {a : Annots}
    (hname : .named name [] a ∈ out.body.subterms) :
    (∃ b ∈ Catalogue.standard, b.name = name ∧ b.arity = 0) ∨
      ((h.library.outcome keepPoly definitions added).definitions.map TypeDef.name).count name = 1 := by
  obtain hsynthetic | ⟨-, ⟨d, hd, rfl, harity⟩ | hbuiltin⟩ := (h.tidy_outcome hvisits hout _ hname).head rfl
  · obtain ⟨u, hu, rfl, vars, hvars, hlength⟩ :=
      (h.proper_outcome hvisits hout _ hname).reference rfl hsynthetic
    have hwidth : u.width = 0 := by
      rw [← hlength, List.map_eq_nil_iff.1 hvars.symm]
      rfl
    obtain ⟨d, -, hmem⟩ := h.exists_specialization hvisits hu (Or.inl hwidth)
    exact Or.inr (h.count_names hvisits hmem)
  · have hkept : d.isKept keepPoly = true := by
      rw [TypeDef.isKept, List.length_eq_zero_iff.1 harity]
      rfl
    have hcount := h.count_names hvisits (Library.expanded_mem_outcome hd hkept)
    exact Or.inr hcount
  · exact Or.inl hbuiltin

theorem normal (h : Accepted definitions)
    (hvisits : Visits h.library [] (TypeDef.roots keepPoly definitions) added) :
    (h.library.outcome keepPoly definitions added).Normal definitions keepPoly where
  flat := by
    intro out hout
    obtain ⟨d, hd, -, rfl⟩ | ⟨u, hu, -, d, hd, rfl⟩ := Library.mem_outcome.1 hout
    · exact Or.inl (h.flat_expanded hd)
    · have hflat := h.flat_specialization (hvisits.demanded u hu) hd
      exact hflat.imp_right fun happlied => ⟨_, h.lookup_origins hvisits hu, happlied⟩
  closed := by
    rintro rfl out hout
    exact h.closed_outcome hvisits hout
  heads := by
    intro _ out hout name a hname
    exact h.defined_outcome hvisits hout hname

end Accepted

namespace Source

/-- A file that is read and checked without errors is expanded to its monomorphic normal form. -/
theorem expand_normal {source : String} {items : List Item} (hclean : (parse source).clean? = some items)
    (hcheck : hasErrors (check Catalogue.standard items) = false) (keepPoly : Bool) :
    ∃ expansion, ExpandsTo (items.map Item.definition) keepPoly expansion ∧
      expansion.Normal (items.map Item.definition) keepPoly := by
  have h := Accepted.of_source hclean hcheck
  obtain ⟨added, hvisits, hexpands⟩ := h.expandsTo keepPoly
  exact ⟨_, hexpands, h.normal hvisits⟩

/-- An abstract generic, a generic that applies itself, and uses of both and of a container. -/
def mixed : String :=
  "type 'a cell = abstract\ntype 'a loop = 'a loop\n" ++
    "type use = (bool cell * int loop * (int * int) list)"

/-- The definitions of `mixed` and their places. -/
def mixedItems : List Item :=
  [⟨⟨"cell", ["a"], ∅, .atom "abstract"⟩, ⟨0, 23⟩⟩,
    ⟨⟨"loop", ["a"], ∅, .named "loop" [.var "a" ∅] ∅⟩, ⟨24, 46⟩⟩,
    ⟨⟨"use", [], ∅, .tuple [.named "cell" [.atom "bool"] ∅, .named "loop" [.atom "int"] ∅,
      .container .list (.tuple [.atom "int", .atom "int"] ∅) ∅] ∅⟩, ⟨47, 99⟩⟩]

/-- The expansion of `mixed`, with an application at the root of every specialization. -/
def mixedExpansion : Expansion where
  definitions := [⟨"use", [], ∅, .tuple [.atom "@(bool cell)", .atom "@(int loop)",
      .atom "@((int * int) list)"] ∅⟩,
    ⟨"@(bool cell)", [], ∅, .named "cell" [.atom "bool"] ∅⟩,
    ⟨"@(int loop)", [], ∅, .named "loop" [.atom "int"] ∅⟩,
    ⟨"@((int * int) list)", [], ∅, .container .list (.tuple [.atom "int", .atom "int"] ∅) ∅⟩]
  origins := [("@(bool cell)", ⟨"cell", 1⟩), ("@(int loop)", ⟨"loop", 1⟩),
    ("@((int * int) list)", ⟨"list", 1⟩)]

theorem clean?_mixed : (parse mixed).clean? = some mixedItems := by decide +kernel

theorem hasErrors_mixed : hasErrors (check Catalogue.standard mixedItems) = false := by decide +kernel

/-- The three kinds of specializations that are not flat at the root. -/
theorem expand_normal_mixed :
    (parse mixed).clean? = some mixedItems ∧
    hasErrors (check Catalogue.standard mixedItems) = false ∧
    ExpandsTo (mixedItems.map Item.definition) false mixedExpansion ∧
    mixedExpansion.Normal (mixedItems.map Item.definition) false := by
  have hexpand : (expand 1 Catalogue.standard (mixedItems.map Item.definition) false).1 =
    .ok mixedExpansion := by decide +kernel
  obtain ⟨expansion, hexpands, hnormal⟩ := expand_normal clean?_mixed hasErrors_mixed false
  obtain hresult | hdeep := hexpands.only 1
  · obtain rfl := Except.ok.inj (hexpand.symm.trans hresult)
    exact ⟨clean?_mixed, hasErrors_mixed, hexpands, hnormal⟩
  · rw [hexpand] at hdeep
    cases hdeep

end Source

end Monomorph
