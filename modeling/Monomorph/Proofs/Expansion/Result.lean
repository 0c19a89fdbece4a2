import Monomorph.Proofs.Expansion.Preservation

/-!
# The definitions of an expansion

An expansion consists of the kept definitions and of one specialization for each use that is begun, and
no two of its definitions have the same name. `ExpandsTo` says that some definitions have an expansion,
whatever depth it takes.
-/

namespace Monomorph

/-- What definitions are expanded to: some depth is enough for it, and no depth gives anything else. -/
structure ExpandsTo (definitions : List TypeDef) (keepPoly : Bool) (expansion : Expansion) : Prop where
  enough : ∃ depth, ∀ deeper, depth ≤ deeper →
    (expand deeper Catalogue.standard definitions keepPoly).1 = .ok expansion
  only : ∀ depth, (expand depth Catalogue.standard definitions keepPoly).1 = .ok expansion ∨
    (expand depth Catalogue.standard definitions keepPoly).1 = .error .tooDeep

/-! ## Specializations up to their canonical forms -/

namespace Use

variable {u v : Use}

theorem name_eq_of_canonical_eq (h : u.canonical = v.canonical) : u.name = v.name := by
  have hname : ∀ w : Use, w.name =
      "@(" ++ TypeExpr.signature w.canonical.generic w.canonical.args w.canonical.annots ++ ")" :=
    fun _ => rfl
  rw [hname u, hname v, h]

theorem width_eq_of_canonical_eq (h : u.canonical = v.canonical) : u.width = v.width := by
  rw [← u.width_canonical, h, v.width_canonical]

/-- A specialization depends on the canonical form of the use only. -/
theorem specialization_eq_of_canonical_eq (h : u.canonical = v.canonical) (d : TypeDef) :
    u.specialization d = v.specialization d := by
  obtain ⟨hgeneric, hargs, hannots⟩ := mk.inj h
  have hname := name_eq_of_canonical_eq h
  have hbody : u.body d = v.body d := by
    simp only [body, environment, hgeneric, hargs, hname]
    rfl
  rw [specialization, specialization, hname, u.params_wanted, v.params_wanted,
    width_eq_of_canonical_eq h, hbody, hannots]

theorem origin_eq_of_canonical_eq (h : u.canonical = v.canonical) : u.origin = v.origin := by
  obtain ⟨hgeneric, hargs, -⟩ := mk.inj h
  have hlength : u.args.length = v.args.length := by
    rw [← u.length_args_wanted, ← v.length_args_wanted, hargs]
  rw [origin, origin, name_eq_of_canonical_eq h, hgeneric, hlength]

end Use

/-- Every demanded use has a specialization in the end, up to its canonical form. -/
theorem Visits.exists_canonical {library : Library} {roots added : List Use}
    (h : Visits library [] roots added) (hwritten : library.Written) (hroots : library.Roots roots)
    {u : Use} (hu : Demanded library roots u) : ∃ w ∈ added, w.canonical = u.canonical := by
  obtain ⟨w, hw, hname⟩ := List.mem_map.1 (h.covers_demanded hwritten hroots hu)
  have hproper := (h.demanded w hw).proper hwritten hroots
  exact ⟨w, hw, Use.canonical_eq_of_name_eq hproper (hu.proper hwritten hroots) hname⟩

/-- The origins of uses with different names are looked up by the name. -/
theorem Use.lookup_origins {added : List Use} (hnodup : (names added).Nodup) {name : String}
    {origin : Origin} :
    (added.map Use.origin).lookup name = some origin ↔ ∃ u ∈ added, u.origin = (name, origin) := by
  rw [← List.mem_map]
  constructor
  · exact Association.mem_of_lookup
  · have hkeys : (added.map Use.origin).map Prod.fst = names added := by
      rw [List.map_map]
      rfl
    exact Association.lookup_of_mem (hkeys ▸ hnodup)

/-- The definitions of an outcome are kept definitions and specializations. -/
theorem Library.mem_outcome {library : Library} {keepPoly : Bool} {definitions : List TypeDef}
    {added : List Use} {out : TypeDef} :
    out ∈ (library.outcome keepPoly definitions added).definitions ↔
      (∃ d ∈ definitions, d.isKept keepPoly = true ∧ d.expanded = out) ∨
      ∃ u ∈ added, (u.width = 0 ∨ keepPoly = true) ∧
        ∃ d, library.find u.generic = some d ∧ u.specialization d = out := by
  simp only [outcome, List.mem_append, List.mem_map, List.mem_filterMap, List.mem_filter,
    Option.map_eq_some_iff, Use.arity_wanted, Bool.or_eq_true, beq_iff_eq, and_assoc]

theorem Library.expanded_mem_outcome {library : Library} {keepPoly : Bool} {definitions : List TypeDef}
    {added : List Use} {d : TypeDef} (hd : d ∈ definitions) (hkept : d.isKept keepPoly = true) :
    d.expanded ∈ (library.outcome keepPoly definitions added).definitions :=
  mem_outcome.2 (Or.inl ⟨d, hd, hkept, rfl⟩)

namespace Accepted

variable {definitions : List TypeDef} {keepPoly : Bool} {added : List Use}

/-- Accepted definitions are expanded to the outcome for the uses that they begin. -/
theorem expandsTo (h : Accepted definitions) (keepPoly : Bool) :
    ∃ added, Visits h.library [] (TypeDef.roots keepPoly definitions) added ∧
      ExpandsTo definitions keepPoly (h.library.outcome keepPoly definitions added) := by
  obtain ⟨added, depth, hvisits, hexpand⟩ := h.exists_visits keepPoly
  refine ⟨added, hvisits, ⟨depth, hexpand⟩, fun bound => ?_⟩
  obtain ⟨added', hvisits', hbound⟩ | ⟨-, -, -, hbound⟩ := h.expand_cases keepPoly bound
  · rw [hvisits.unique hvisits']
    exact Or.inl hbound
  · exact Or.inr hbound

/-- No two uses that are begun have the same name. -/
theorem nodup_names_added (h : Accepted definitions)
    (hvisits : Visits h.library [] (TypeDef.roots keepPoly definitions) added) :
    (Use.names added).Nodup :=
  hvisits.nodup List.nodup_nil

/-- Every use that is begun has a specialization, and it has the name of the use. -/
theorem names_specializations (h : Accepted definitions)
    (hvisits : Visits h.library [] (TypeDef.roots keepPoly definitions) added) {uses : List Use}
    (hsubset : uses ⊆ added) :
    (uses.filterMap fun u => (h.library.find u.generic).map u.specialization).map TypeDef.name =
      Use.names uses := by
  induction uses with
  | nil => rfl
  | cons u rest ih =>
    obtain ⟨hu, hrest⟩ := List.cons_subset.1 hsubset
    obtain ⟨d, hd, -⟩ := (hvisits.demanded u hu).declared h.sound (h.roots keepPoly)
    simp only [List.filterMap_cons, hd, Option.map_some, List.map_cons, ih hrest]
    rfl

/-- No two definitions of an expansion have the same name. -/
theorem nodup_names_outcome (h : Accepted definitions)
    (hvisits : Visits h.library [] (TypeDef.roots keepPoly definitions) added) :
    ((h.library.outcome keepPoly definitions added).definitions.map TypeDef.name).Nodup := by
  have hkept : ((definitions.filter (TypeDef.isKept keepPoly)).map TypeDef.expanded).map TypeDef.name =
      (definitions.filter (TypeDef.isKept keepPoly)).map TypeDef.name := by
    rw [List.map_map]
    rfl
  have hsubset := List.filter_sublist (p := fun u : Use => u.wanted.arity == 0 || keepPoly) (l := added)
  rw [Library.outcome, List.map_append, hkept, h.names_specializations hvisits hsubset.subset]
  refine List.nodup_append.2 ⟨?_, ?_, ?_⟩
  · exact h.wellFormed.names.sublist (List.filter_sublist.map _)
  · exact (h.nodup_names_added hvisits).sublist (hsubset.map _)
  · -- A definition of the file has a plain name, a specialization has not.
    rintro name hname other hother rfl
    obtain ⟨d, hd, rfl⟩ := List.mem_map.1 hname
    obtain ⟨u, -, heq⟩ := List.mem_map.1 hother
    have hplain := h.plain (List.mem_of_mem_filter hd)
    rw [← heq, u.isSynthetic_name] at hplain
    cases hplain

end Accepted

end Monomorph
