import Monomorph.Proofs.Expansion.Meaning
import Monomorph.Proofs.Expansion.Termination

/-!
# Expansion preserves meaning

An expansion is right if the names of its specializations can be read as applications such that, with
every reference replaced by what it stands for, the kept definitions are those of the file and each
specialization is the body of its generic with the arguments in place of the parameters.
`Expansion.Preserves` says so in terms of the definitions alone, and `Source.expand_preserves` is the
theorem that every expansion of an accepted file is right.
-/

namespace Monomorph

/-- A definition that is kept is left as it is, up to the normal form and what references stand for. -/
structure TypeDef.Keeps (erase : TypeExpr → TypeExpr) (d out : TypeDef) : Prop where
  name : out.name = d.name
  params : out.params = d.params
  annots : out.annots = d.annots
  body : erase out.body = d.body.normalize

/-- A specialization for a use is what the generic says of the arguments. An abstract generic says
nothing of them and stays an application. -/
structure TypeDef.Specializes (erase : TypeExpr → TypeExpr) (u : Use) (d out : TypeDef) : Prop where
  generic : d.name = u.generic
  arity : d.arity = u.args.length
  params : out.params = (List.range u.width).map canonicalVar
  annots : out.annots = d.annots
  body : erase out.body =
    if d.body.isAbstract then .named u.generic (u.args.map erase) u.annots
    else (d.body.replaceVars (Environment.bind d.params (u.args.map erase))).annotate u.annots

/-- An expansion says what the definitions say, with what the names of specializations stand for. -/
structure Expansion.Preserves (definitions : List TypeDef) (keepPoly : Bool) (meaning : Meaning)
    (erase : TypeExpr → TypeExpr) (expansion : Expansion) : Prop where
  erases : Erases meaning erase
  faithful : meaning.Faithful
  /-- Each specialization stands for its generic, applied to arguments with canonical variables. -/
  origins : ∀ entry ∈ expansion.origins, ∃ u, meaning entry.1 = some u ∧ entry.2.generic = u.generic ∧
    (Instance.occurrences u.args).eraseDups = (List.range u.width).map canonicalVar
  /-- Nothing else stands for anything. -/
  domain : ∀ name u, meaning name = some u → ∃ origin, (name, origin) ∈ expansion.origins
  definitions : ∃ kept specializations, expansion.definitions = kept ++ specializations ∧
    List.Forall₂ (TypeDef.Keeps erase) (definitions.filter (TypeDef.isKept keepPoly)) kept ∧
    List.Forall₂ (fun entry out => out.name = entry.1 ∧ ∃ u d, meaning entry.1 = some u ∧
        (d ∈ definitions ∨ ∃ kind, d = Catalogue.containerDef kind) ∧ TypeDef.Specializes erase u d out)
      (expansion.origins.filter fun entry => keepPoly || (meaning entry.1).any fun u => u.width == 0)
      specializations

theorem forall₂_filterMap {α β γ : Type} {R : β → γ → Prop} {f : α → β} {g : α → Option γ} {items : List α}
    (h : ∀ x ∈ items, ∃ y, g x = some y ∧ R (f x) y) :
    List.Forall₂ R (items.map f) (items.filterMap g) := by
  induction items with
  | nil => exact .nil
  | cons x rest ih =>
    obtain ⟨⟨y, hy, hxy⟩, hrest⟩ := List.forall_mem_cons.1 h
    rw [List.map_cons, List.filterMap_cons_some hy]
    exact .cons hxy (ih hrest)

namespace Accepted

variable {definitions : List TypeDef} {keepPoly : Bool} {added : List Use}

theorem written (h : Accepted definitions) : h.library.Written := by
  intro name d hd
  obtain ⟨hmem, -⟩ | ⟨kind, -, rfl⟩ := h.find_cases hd
  · exact ⟨(h.writable d hmem).body, (h.writable d hmem).normal⟩
  · refine ⟨TypeExpr.writtenIn_iff.2 ⟨nofun, nofun, nofun, fun c hc => ?_⟩, fun name args a hmem => ?_⟩
    · rw [List.mem_singleton.1 hc]
      exact TypeExpr.writtenIn_var (by decide) nofun
    · have hsubterms : (Catalogue.containerDef kind).body.subterms =
          [.container kind (.var "a" ∅) ∅, .var "a" ∅] := rfl
      rw [hsubterms] at hmem
      simp at hmem

theorem keeps_expanded (h : Accepted definitions)
    (hvisits : Visits h.library [] (TypeDef.roots keepPoly definitions) added) {d : TypeDef}
    (hd : d ∈ definitions) (hkept : d.isKept keepPoly = true) :
    d.Keeps (TypeExpr.erase (.of added)) d.expanded := by
  have hnormal := (h.writable d hd).normal
  have hreads := hvisits.reads h.written (h.roots keepPoly)
  refine ⟨rfl, rfl, rfl, erase_expanded hreads (TypeExpr.erases_erase (Meaning.faithful_of added))
    (h.writable d hd).body hnormal fun u hu => .root ?_⟩
  refine List.mem_flatMap.2 ⟨d, hd, ?_⟩
  rwa [if_pos hkept, TypeDef.uses, TypeExpr.normalize_eq_self hnormal]

theorem specializes (h : Accepted definitions)
    (hvisits : Visits h.library [] (TypeDef.roots keepPoly definitions) added) {u : Use}
    (hu : u ∈ added) : ∃ d, h.library.find u.generic = some d ∧
      (d ∈ definitions ∨ ∃ kind, d = Catalogue.containerDef kind) ∧
      d.Specializes (TypeExpr.erase (.of added)) u.canonical (u.specialization d) := by
  have hdemanded := hvisits.demanded u hu
  have hreads := hvisits.reads h.written (h.roots keepPoly)
  obtain ⟨d, hd, harity⟩ := hdemanded.declared h.sound (h.roots keepPoly)
  have hdefined : d.name = u.generic ∧ (d ∈ definitions ∨ ∃ kind, d = Catalogue.containerDef kind) := by
    obtain ⟨hmem, hname⟩ | ⟨kind, hname, rfl⟩ := h.find_cases hd
    · exact ⟨hname, Or.inl hmem⟩
    · exact ⟨hname.symm, Or.inr ⟨kind, rfl⟩⟩
  refine ⟨d, hd, hdefined.2, hdefined.1, ?_, ?_, rfl, ?_⟩
  · rw [harity]
    exact u.length_args_wanted.symm
  · rw [u.width_canonical]
    exact u.params_wanted
  · exact erase_specialization hreads (TypeExpr.erases_erase (Meaning.faithful_of added)) hdemanded hd
      h.written

/-- What an expansion returns is right. -/
theorem preserves (h : Accepted definitions)
    (hvisits : Visits h.library [] (TypeDef.roots keepPoly definitions) added) :
    (h.library.outcome keepPoly definitions added).Preserves definitions keepPoly (.of added)
      (TypeExpr.erase (.of added)) := by
  have hmeaning : ∀ u ∈ added, Meaning.of added u.name = some u.canonical := fun u hu =>
    (hvisits.reads h.written (h.roots keepPoly)).demanded (hvisits.demanded u hu)
  have hkept : (h.library.outcome keepPoly definitions added).origins.filter
      (fun entry => keepPoly || (Meaning.of added entry.1).any fun u => u.width == 0) =
        (added.filter fun u => u.wanted.arity == 0 || keepPoly).map Use.origin := by
    rw [Library.outcome, List.filter_map]
    refine congrArg (List.map Use.origin) (List.filter_congr fun u hu => ?_)
    have hname : u.origin.1 = u.name := rfl
    rw [Function.comp_apply, hname, hmeaning u hu, Option.any_some, u.width_canonical, u.arity_wanted, Bool.or_comm]
  refine ⟨TypeExpr.erases_erase (Meaning.faithful_of added), Meaning.faithful_of added, ?_, ?_,
    _, _, rfl, ?_, ?_⟩
  · intro entry hentry
    obtain ⟨u, hu, rfl⟩ := List.mem_map.1 hentry
    refine ⟨u.canonical, hmeaning u hu, rfl, ?_⟩
    rw [u.occurrences_canonical, u.width_canonical]
  · intro name v hv
    obtain ⟨u, hu, rfl, -⟩ := Meaning.of_eq_some hv
    exact ⟨_, List.mem_map_of_mem hu⟩
  · rw [List.forall₂_map_right_iff, List.forall₂_same]
    intro d hd
    obtain ⟨hd, hkept⟩ := List.mem_filter.1 hd
    exact h.keeps_expanded hvisits hd hkept
  · rw [hkept]
    apply forall₂_filterMap
    intro u hu
    have hu := List.mem_of_mem_filter hu
    obtain ⟨d, hd, hdefined, hspecializes⟩ := h.specializes hvisits hu
    refine ⟨u.specialization d, by rw [hd]; rfl, rfl, u.canonical, d, hmeaning u hu, hdefined, hspecializes⟩

end Accepted

/-- Expansion preserves the meaning of a file that is read and checked without errors. -/
theorem Source.expand_preserves {source : String} {items : List Item}
    (hclean : (parse source).clean? = some items)
    (hcheck : hasErrors (check Catalogue.standard items) = false) {keepPoly : Bool} {depth : Nat}
    {expansion : Expansion}
    (hexpand : (expand depth Catalogue.standard (items.map Item.definition) keepPoly).1 = .ok expansion) :
    ∃ meaning erase, expansion.Preserves (items.map Item.definition) keepPoly meaning erase := by
  have h := Accepted.of_source hclean hcheck
  obtain ⟨added, hvisits, houtcome⟩ | ⟨-, -, -, hdeep⟩ := h.expand_cases keepPoly depth
  · obtain rfl := Except.ok.inj (houtcome.symm.trans hexpand)
    exact ⟨_, _, h.preserves hvisits⟩
  · rw [hdeep] at hexpand
    cases hexpand

namespace Source

/-- The expansion of `forest`. -/
def forestExpansion : Expansion where
  definitions := [⟨"names", [], ∅, .atom "@(string tree)"⟩,
    ⟨"@(string tree)", [], ∅, .record [.labelled "value" (.atom "string"),
      .labelled "children" (.atom "@(string forest)")] ∅⟩,
    ⟨"@(string forest)", [], ∅, .atom "@(@(string tree) list)"⟩,
    ⟨"@(@(string tree) list)", [], ∅, .container .list (.atom "@(string tree)") ∅⟩]
  origins := [("@(string tree)", ⟨"tree", 1⟩), ("@(string forest)", ⟨"forest", 1⟩),
    ("@(@(string tree) list)", ⟨"list", 1⟩)]

/-- Specializations that lead to each other, one of them for a container. -/
theorem expand_preserves_forest :
    (parse forest).clean? = some forestItems ∧
    hasErrors (check Catalogue.standard forestItems) = false ∧
    (expand 3 Catalogue.standard (forestItems.map Item.definition) false).1 = .ok forestExpansion ∧
    ∃ meaning erase,
      forestExpansion.Preserves (forestItems.map Item.definition) false meaning erase :=
  have hexpand : (expand 3 Catalogue.standard (forestItems.map Item.definition) false).1 =
    .ok forestExpansion := by decide +kernel
  ⟨clean?_forest, hasErrors_forest, hexpand, expand_preserves clean?_forest hasErrors_forest hexpand⟩

end Source

end Monomorph
