import Monomorph.Proofs.Check.Accepted

/-!
# Expansions of accepted files end

Finitely many specializations are demanded, so no more than that can be nested in each other, and an
expansion that may nest as many runs to its end. What it returns does not depend on how deep it may
nest, and there is nothing else that it could fail with.
-/

namespace Monomorph

/-- Specializations that are nested in each other have different names. -/
theorem Engine.Nests.length_le {Q : Use → Prop} {seen chain : List Use} (h : Nests Q seen chain)
    (hfinite : (Use.name '' {u | Q u}).Finite) : chain.length ≤ hfinite.toFinset.card := by
  have hsubset : Use.names chain ⊆ hfinite.toFinset.toList := by
    intro name hname
    obtain ⟨u, hu, rfl⟩ := List.mem_map.1 hname
    rw [Finset.mem_toList, Set.Finite.mem_toFinset]
    exact ⟨u, h.all u hu, rfl⟩
  have hlength := (h.nodup.subperm hsubset).length_le
  rwa [Use.names, List.length_map, Finset.length_toList] at hlength

namespace Accepted

variable {definitions : List TypeDef}

/-- An expansion ends with the outcome for the demanded specializations, or for lack of depth. -/
theorem expand_cases (h : Accepted definitions) (keepPoly : Bool) (depth : Nat) :
    (∃ added, Visits h.library [] (TypeDef.roots keepPoly definitions) added ∧
      (expand depth Catalogue.standard definitions keepPoly).1 =
        .ok (h.library.outcome keepPoly definitions added)) ∨
    ∃ chain, Engine.Nests (Demanded h.library (TypeDef.roots keepPoly definitions)) [] chain ∧
      chain.length = depth + 1 ∧
      (expand depth Catalogue.standard definitions keepPoly).1 = .error .tooDeep :=
  expand_ends h.seedable (h.sound.supports (h.roots keepPoly)) (fun _ hu => .root hu) depth

/-- There is a depth at which the expansion succeeds. -/
theorem exists_visits (h : Accepted definitions) (keepPoly : Bool) :
    ∃ added depth, Visits h.library [] (TypeDef.roots keepPoly definitions) added ∧
      ∀ deeper, depth ≤ deeper → (expand deeper Catalogue.standard definitions keepPoly).1 =
        .ok (h.library.outcome keepPoly definitions added) := by
  have hfinite := finite_names h.sound h.regular (h.roots keepPoly)
  have hdeep : ∀ deeper, hfinite.toFinset.card ≤ deeper →
      ∃ added, Visits h.library [] (TypeDef.roots keepPoly definitions) added ∧
        (expand deeper Catalogue.standard definitions keepPoly).1 =
          .ok (h.library.outcome keepPoly definitions added) := by
    intro deeper hdeeper
    obtain hdone | ⟨chain, hnests, hlength, -⟩ := h.expand_cases keepPoly deeper
    · exact hdone
    · have hle := hnests.length_le hfinite
      omega
  obtain ⟨added, hvisits, -⟩ := hdeep _ (Nat.le_refl _)
  refine ⟨added, hfinite.toFinset.card, hvisits, fun deeper hdeeper => ?_⟩
  obtain ⟨added', hvisits', hexpand⟩ := hdeep deeper hdeeper
  rw [hvisits.unique hvisits', hexpand]

end Accepted

/-- A file that is read and checked without errors is expanded: some depth is enough, every greater one
gives the same, and a smaller one can only turn out to be too small. -/
theorem Source.expand_of_noErrors {source : String} {items : List Item}
    (hclean : (parse source).clean? = some items)
    (hcheck : hasErrors (check Catalogue.standard items) = false) (keepPoly : Bool) :
    ∃ expansion depth,
      (∀ deeper, depth ≤ deeper →
        (expand deeper Catalogue.standard (items.map Item.definition) keepPoly).1 = .ok expansion) ∧
      ∀ bound, (expand bound Catalogue.standard (items.map Item.definition) keepPoly).1 = .ok expansion ∨
        (expand bound Catalogue.standard (items.map Item.definition) keepPoly).1 = .error .tooDeep := by
  have h := Accepted.of_source hclean hcheck
  obtain ⟨added, depth, hvisits, hexpand⟩ := h.exists_visits keepPoly
  refine ⟨_, depth, hexpand, fun bound => ?_⟩
  obtain ⟨added', hvisits', hbound⟩ | ⟨-, -, -, hbound⟩ := h.expand_cases keepPoly bound
  · rw [hvisits.unique hvisits']
    exact Or.inl hbound
  · exact Or.inr hbound

/-- Two generics that lead to each other through a container. -/
theorem Source.expand_of_noErrors_forest :
    (parse forest).clean? = some forestItems ∧
    hasErrors (check Catalogue.standard forestItems) = false ∧
    ∃ expansion depth,
      (∀ deeper, depth ≤ deeper →
        (expand deeper Catalogue.standard (forestItems.map Item.definition) false).1 = .ok expansion) ∧
      ∀ bound,
        (expand bound Catalogue.standard (forestItems.map Item.definition) false).1 = .ok expansion ∨
        (expand bound Catalogue.standard (forestItems.map Item.definition) false).1 = .error .tooDeep :=
  ⟨clean?_forest, hasErrors_forest, expand_of_noErrors clean?_forest hasErrors_forest false⟩

end Monomorph
