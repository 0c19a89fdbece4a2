import Monomorph.Proofs.Check.Completeness
import Monomorph.Proofs.Expansion.Result

/-!
# Expansion and the order of definitions

The specializations that a file demands are a closure: which of them are begun, and what they are, does
not depend on the order in which the definitions are met. A file that has all the definitions of another
one, and perhaps more, therefore has all its expanded definitions and origins. Permuting the definitions
of a file permutes those of its expansion and changes nothing else.
-/

namespace Monomorph

/-- One expansion has all the definitions and origins of another one. -/
structure Expansion.Within (expansion wider : Expansion) : Prop where
  definitions : expansion.definitions ⊆ wider.definitions
  origins : ∀ name origin, expansion.origins.lookup name = some origin →
    wider.origins.lookup name = some origin

/-- Two expansions are the same up to the order of the definitions. -/
structure Expansion.Same (expansion other : Expansion) : Prop where
  definitions : expansion.definitions.Perm other.definitions
  origins : ∀ name, expansion.origins.lookup name = other.origins.lookup name

theorem TypeDef.isKept_mono {keepPoly keepMore : Bool} (hkeep : keepPoly = true → keepMore = true)
    {d : TypeDef} (h : d.isKept keepPoly = true) : d.isKept keepMore = true := by
  rw [isKept, Bool.or_eq_true] at h ⊢
  exact h.imp_right hkeep

theorem TypeDef.roots_subset {keepPoly keepMore : Bool} (hkeep : keepPoly = true → keepMore = true)
    {definitions more : List TypeDef} (hsubset : definitions ⊆ more) :
    roots keepPoly definitions ⊆ roots keepMore more := by
  intro u hu
  obtain ⟨d, hd, hmem⟩ := List.mem_flatMap.1 hu
  split at hmem
  · next hkept =>
    refine List.mem_flatMap.2 ⟨d, hsubset hd, ?_⟩
    rwa [if_pos (isKept_mono hkeep hkept)]
  · cases hmem

namespace Accepted

variable {definitions more : List TypeDef}

/-- A definition stands for the same in a file that has all definitions of another one. -/
theorem find_mono (h : Accepted definitions) (hmore : Accepted more) (hsubset : definitions ⊆ more)
    {name : String} {d : TypeDef} (hd : h.library.find name = some d) :
    hmore.library.find name = some d := by
  obtain ⟨hmem, rfl⟩ | ⟨kind, rfl, rfl⟩ := h.find_cases hd
  · exact hmore.find_definition (hsubset hmem)
  · exact hmore.find_container kind

/-- A file that has all definitions of another one has its expansion in its own. -/
theorem within (h : Accepted definitions) (hmore : Accepted more) (hsubset : definitions ⊆ more)
    {keepPoly keepMore : Bool} (hkeep : keepPoly = true → keepMore = true) {added further : List Use}
    (hvisits : Visits h.library [] (TypeDef.roots keepPoly definitions) added)
    (hvisitsMore : Visits hmore.library [] (TypeDef.roots keepMore more) further) :
    (h.library.outcome keepPoly definitions added).Within
      (hmore.library.outcome keepMore more further) := by
  have hfind : ∀ {name d}, h.library.find name = some d → hmore.library.find name = some d :=
    h.find_mono hmore hsubset
  -- What is begun for the one file is demanded for the other, so it is begun there in some order.
  have hbegun : ∀ u ∈ added, ∃ w ∈ further, w.canonical = u.canonical := by
    intro u hu
    have hdemanded := (hvisits.demanded u hu).mono hfind (TypeDef.roots_subset hkeep hsubset)
    exact hvisitsMore.exists_canonical hmore.written (hmore.roots keepMore) hdemanded
  constructor
  · intro out hout
    rw [Library.mem_outcome] at hout ⊢
    obtain ⟨d, hd, hkept, rfl⟩ | ⟨u, hu, hwidth, d, hd, rfl⟩ := hout
    · exact Or.inl ⟨d, hsubset hd, TypeDef.isKept_mono hkeep hkept, rfl⟩
    · obtain ⟨w, hw, hcanonical⟩ := hbegun u hu
      have hgeneric : w.generic = u.generic := (Use.mk.inj hcanonical).1
      refine Or.inr ⟨w, hw, ?_, d, ?_, Use.specialization_eq_of_canonical_eq hcanonical d⟩
      · rw [Use.width_eq_of_canonical_eq hcanonical]
        exact hwidth.imp_right hkeep
      · rw [hgeneric]
        exact hfind hd
  · intro name origin horigin
    have hnames := h.nodup_names_added hvisits
    have hnamesMore := hmore.nodup_names_added hvisitsMore
    obtain ⟨u, hu, heq⟩ := (Use.lookup_origins hnames).1 horigin
    obtain ⟨w, hw, hcanonical⟩ := hbegun u hu
    refine (Use.lookup_origins hnamesMore).2 ⟨w, hw, ?_⟩
    rw [Use.origin_eq_of_canonical_eq hcanonical, heq]

/-- Whether definitions are accepted does not depend on their order. -/
theorem perm (h : Accepted definitions) (hperm : definitions.Perm more) : Accepted more where
  wellFormed := h.wellFormed.perm hperm
  writable d hd := h.writable d (hperm.mem_iff.2 hd)

/-- Files with the same definitions have the same expansion, up to its order. -/
theorem same (h : Accepted definitions) (hmore : Accepted more) (hperm : definitions.Perm more)
    {keepPoly : Bool} {added further : List Use}
    (hvisits : Visits h.library [] (TypeDef.roots keepPoly definitions) added)
    (hvisitsMore : Visits hmore.library [] (TypeDef.roots keepPoly more) further) :
    (h.library.outcome keepPoly definitions added).Same
      (hmore.library.outcome keepPoly more further) := by
  have hthere := h.within hmore hperm.subset id hvisits hvisitsMore
  have hback := hmore.within h hperm.symm.subset id hvisitsMore hvisits
  constructor
  · have hnodup := (h.nodup_names_outcome hvisits).of_map
    have hnodupMore := (hmore.nodup_names_outcome hvisitsMore).of_map
    refine (List.perm_ext_iff_of_nodup hnodup hnodupMore).2 fun d => ?_
    constructor
    · intro hd
      exact hthere.definitions hd
    · intro hd
      exact hback.definitions hd
  · intro name
    apply Option.ext
    intro origin
    constructor
    · exact hthere.origins name origin
    · exact hback.origins name origin

end Accepted

namespace Source

/-- Expansion is monotone and does not depend on the order of definitions: a file that has all definitions
of another one, and keeps generics if that one does, has all its expanded definitions and origins; and a
permutation of a file is accepted if the file is, and has the same expansion up to its order. -/
theorem expand_mono {source : String} {items : List Item} (hclean : (parse source).clean? = some items)
    (hcheck : hasErrors (check Catalogue.standard items) = false) :
    (∀ {larger : String} {more : List Item}, (parse larger).clean? = some more →
      hasErrors (check Catalogue.standard more) = false →
      items.map Item.definition ⊆ more.map Item.definition →
      ∀ {keepPoly keepMore : Bool}, (keepPoly = true → keepMore = true) →
        ∃ expansion wider, ExpandsTo (items.map Item.definition) keepPoly expansion ∧
          ExpandsTo (more.map Item.definition) keepMore wider ∧ expansion.Within wider) ∧
    ∀ {permuted : List Item}, (items.map Item.definition).Perm (permuted.map Item.definition) →
      hasErrors (check Catalogue.standard permuted) = false ∧
      ∀ keepPoly, ∃ expansion other, ExpandsTo (items.map Item.definition) keepPoly expansion ∧
        ExpandsTo (permuted.map Item.definition) keepPoly other ∧ expansion.Same other := by
  have h := Accepted.of_source hclean hcheck
  constructor
  · intro larger more hcleanMore hcheckMore hsubset keepPoly keepMore hkeep
    have hmore := Accepted.of_source hcleanMore hcheckMore
    obtain ⟨added, hvisits, hexpands⟩ := h.expandsTo keepPoly
    obtain ⟨further, hvisitsMore, hexpandsMore⟩ := hmore.expandsTo keepMore
    exact ⟨_, _, hexpands, hexpandsMore, h.within hmore hsubset hkeep hvisits hvisitsMore⟩
  · intro permuted hperm
    have hmore := h.perm hperm
    refine ⟨Check.noErrors_of_wellFormed nodup_standard hmore.wellFormed, fun keepPoly => ?_⟩
    obtain ⟨added, hvisits, hexpands⟩ := h.expandsTo keepPoly
    obtain ⟨further, hvisitsMore, hexpandsMore⟩ := hmore.expandsTo keepPoly
    exact ⟨_, _, hexpands, hexpandsMore, h.same hmore hperm hvisits hvisitsMore⟩

/-- The definitions of `forest`, later ones first, and one more. -/
def grove : String :=
  "type names = string tree\ntype 'a forest = 'a tree list\n" ++
    "type 'a tree = \x7bvalue : 'a; children : 'a forest\x7d\ntype 'a twin = ('a * 'a) list"

/-- The definitions of `grove` and their places. -/
def groveItems : List Item :=
  [⟨⟨"names", [], ∅, .named "tree" [.atom "string"] ∅⟩, ⟨0, 24⟩⟩,
    ⟨⟨"forest", ["a"], ∅, .container .list (.named "tree" [.var "a" ∅] ∅) ∅⟩, ⟨25, 54⟩⟩,
    ⟨⟨"tree", ["a"], ∅, .record [.labelled "value" (.var "a" ∅),
      .labelled "children" (.named "forest" [.var "a" ∅] ∅)] ∅⟩, ⟨55, 104⟩⟩,
    ⟨⟨"twin", ["a"], ∅, .container .list (.tuple [.var "a" ∅, .var "a" ∅] ∅) ∅⟩, ⟨105, 134⟩⟩]

theorem clean?_grove : (parse grove).clean? = some groveItems := by decide +kernel

theorem hasErrors_grove : hasErrors (check Catalogue.standard groveItems) = false := by decide +kernel

/-- A larger file in another order, and the same file in another order. -/
theorem expand_mono_grove :
    (parse forest).clean? = some forestItems ∧
    hasErrors (check Catalogue.standard forestItems) = false ∧
    (parse grove).clean? = some groveItems ∧
    hasErrors (check Catalogue.standard groveItems) = false ∧
    forestItems.map Item.definition ⊆ groveItems.map Item.definition ∧
    (∃ expansion wider, ExpandsTo (forestItems.map Item.definition) false expansion ∧
      ExpandsTo (groveItems.map Item.definition) true wider ∧ expansion.Within wider) ∧
    (forestItems.map Item.definition).Perm (forestItems.reverse.map Item.definition) ∧
    ∃ expansion other, ExpandsTo (forestItems.map Item.definition) true expansion ∧
      ExpandsTo (forestItems.reverse.map Item.definition) true other ∧ expansion.Same other := by
  have hsubset : forestItems.map Item.definition ⊆ groveItems.map Item.definition := by
    decide +kernel
  have hperm : (forestItems.map Item.definition).Perm (forestItems.reverse.map Item.definition) :=
    (List.reverse_perm forestItems).symm.map _
  have hmono := expand_mono clean?_forest hasErrors_forest
  exact ⟨clean?_forest, hasErrors_forest, clean?_grove, hasErrors_grove, hsubset,
    hmono.1 clean?_grove hasErrors_grove hsubset (fun _ => rfl), hperm, (hmono.2 hperm).2 true⟩

end Source

end Monomorph
