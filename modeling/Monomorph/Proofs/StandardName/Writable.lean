import Monomorph.Proofs.Expansion.WellFormed
import Monomorph.Proofs.StandardName.Numbering
import Monomorph.Proofs.StandardName.Renaming

/-!
# Expansions under standard names can be written

In an expansion nothing but the names of specializations is out of place in a source text. Standard names
are plain, so a source text can contain every definition once it has been renamed. They are also free, so
the renaming keeps the definitions apart from each other and from the built-ins.
-/

namespace Monomorph

namespace TypeExpr

variable {K L : String → Nat → Prop} {f : String → String} {t : TypeExpr}

@[simp] theorem labels_renameHeads (f : String → String) (t : TypeExpr) :
    (t.renameHeads f).labels = t.labels := by
  cases t with
  | sum variants a => simp [labels, rootNames]
  | record fields a =>
    rw [renameHeads_record]
    exact rootNames_map_fields _ fields a a
  | _ => simp [labels, rootNames]

/-- A renamed expression is tidy for what holds of the new heads in it. -/
theorem Tidy.renameHeads (h : t.Tidy K)
    (hhead : ∀ name args a, named name args a ∈ t.subterms → L (f name) args.length) :
    (t.renameHeads f).Tidy L := by
  intro u hu
  rw [subterms_renameHeads] at hu
  obtain ⟨part, hpart, rfl⟩ := List.mem_map.1 hu
  have hroot := h part hpart
  refine ⟨fun heq => ?_, ?_, ?_, fun heq => ?_⟩
  · cases part <;> simp at heq
    obtain ⟨rfl, rfl, rfl⟩ := heq
    rw [List.length_map]
    exact hhead _ _ _ hpart
  · rw [labels_renameHeads]
    exact hroot.labels
  · rw [annots_renameHeads]
    exact hroot.annots
  · cases part <;> simp at heq
    obtain ⟨rfl, rfl⟩ := heq
    rw [List.length_map]
    exact hroot.wide rfl

/-- A tidy expression with plain heads is one of a source text. -/
theorem Tidy.writtenIn (h : t.Tidy fun name _ => IsPlain name)
    (hvars : ∀ name ∈ t.varNames, IsVariable name) : t.WrittenIn .plain where
  names name hname := by
    obtain ⟨u, hu, hname⟩ := List.mem_flatMap.1 hname
    have hroot := h u hu
    cases u with
    | named head args a =>
      rw [List.mem_singleton.1 hname]
      exact hroot.head rfl
    | _ => exact hroot.labels name hname
  vars := hvars
  annots a ha := by
    obtain ⟨u, hu, ha⟩ := List.mem_flatMap.1 ha
    exact (h u hu).annots a ha

theorem Tidy.isWide (h : t.Tidy K) : t.IsWide := fun _ _ hmem => (h _ hmem).wide rfl

end TypeExpr

/-- A definition that a source text can contain but for the names of specializations. -/
structure TypeDef.Nameable (d : TypeDef) : Prop where
  name : isSynthetic d.name = true ∨ IsPlain d.name
  params : ∀ param ∈ d.params, IsVariable param
  annots : ∀ a ∈ d.annots.toList, a.WrittenIn .plain
  body : d.body.Tidy fun name _ => isSynthetic name = true ∨ IsPlain name
  vars : ∀ name ∈ d.body.varNames, IsVariable name
  normal : d.body.IsNormal

namespace StandardName

variable {definitions : List TypeDef} {stem : String} {taken : List String} {f : String → String}

theorem mem_synthetic_of_head {d : TypeDef} (hd : d ∈ definitions) {name : String} {args : List TypeExpr}
    {a : Annots} (hhead : .named name args a ∈ d.body.subterms) (hsynthetic : isSynthetic name = true) :
    name ∈ synthetic definitions := by
  refine List.mem_eraseDups.2 (List.mem_filter.2 ⟨List.mem_append_right _ ?_, hsynthetic⟩)
  exact List.mem_flatMap.2 ⟨d, hd, List.mem_filterMap.2 ⟨_, hhead, rfl⟩⟩

theorem mem_synthetic_of_name {d : TypeDef} (hd : d ∈ definitions) (hsynthetic : isSynthetic d.name = true) :
    d.name ∈ synthetic definitions := by
  refine List.mem_eraseDups.2 (List.mem_filter.2 ⟨List.mem_append_left _ ?_, hsynthetic⟩)
  exact List.mem_map_of_mem hd

namespace Assigns

/-- A new name is a plain one. -/
theorem isPlain (hf : Assigns definitions stem taken f) (hstem : IsIdentifier stem) {name : String}
    (hmem : isSynthetic name = true → name ∈ synthetic definitions)
    (hname : isSynthetic name = true ∨ IsPlain name) : IsPlain (f name) := by
  obtain hsynthetic | hplain := hname
  · obtain ⟨⟨n, hn⟩, -⟩ := hf.fresh (hmem hsynthetic)
    rw [hn]
    exact isPlain_numbered hstem n
  · rw [hf.plain (isSynthetic_of_isIdentifier hplain.1)]
    exact hplain

/-- Definitions under standard names can be written. -/
theorem writable_renameTypes (hf : Assigns definitions stem taken f) (hstem : IsIdentifier stem)
    (htaken : ∀ kind : ContainerKind, kind.name ∈ taken) {d : TypeDef} (hd : d ∈ definitions)
    (h : d.Nameable) : (d.renameTypes f).Writable where
  name := hf.isPlain hstem (mem_synthetic_of_name hd) h.name
  params := h.params
  annots := h.annots
  body := by
    apply TypeExpr.Tidy.writtenIn
    · refine h.body.renameHeads fun name args a hmem => ?_
      exact hf.isPlain hstem (mem_synthetic_of_head hd hmem) ((h.body _ hmem).head rfl)
    · intro name hname
      change name ∈ (d.body.renameHeads f).varNames at hname
      rw [TypeExpr.varNames_renameHeads] at hname
      exact h.vars name hname
  wide := by
    refine TypeExpr.Tidy.isWide (K := fun _ _ => True) ?_
    exact h.body.renameHeads fun _ _ _ _ => trivial
  normal := by
    intro name args a hmem
    obtain ⟨head, parts, hhead, rfl, rfl⟩ := TypeExpr.exists_of_named_mem_renameHeads hmem
    rw [List.length_map]
    cases hsynthetic : isSynthetic head with
    | false =>
      rw [hf.plain hsynthetic]
      exact h.normal head parts a hhead
    | true =>
      left
      apply Option.eq_none_iff_forall_ne_some.2
      intro kind hkind
      obtain ⟨-, hfree, -⟩ := hf.fresh (mem_synthetic_of_head hd hhead hsynthetic)
      rw [← ContainerKind.ofName?_eq_some.1 hkind] at hfree
      exact hfree (htaken kind)

end Assigns

end StandardName

/-! ## Accepted definitions -/

namespace Accepted

variable {definitions : List TypeDef} {keepPoly : Bool} {added : List Use}

/-- In an expansion nothing but the names of specializations is out of place in a source text. -/
theorem nameable_outcome (h : Accepted definitions)
    (hvisits : Visits h.library [] (TypeDef.roots keepPoly definitions) added) {out : TypeDef}
    (hout : out ∈ (h.library.outcome keepPoly definitions added).definitions) : out.Nameable where
  name := by
    obtain ⟨d, hd, -, rfl⟩ | ⟨u, -, -, d, -, rfl⟩ := Library.mem_outcome.1 hout
    · exact Or.inr (h.writable d hd).name
    · exact Or.inl u.isSynthetic_name
  params := by
    obtain ⟨d, hd, -, rfl⟩ | ⟨u, -, -, d, -, rfl⟩ := Library.mem_outcome.1 hout
    · exact (h.writable d hd).params
    · intro param hparam
      change param ∈ u.wanted.params at hparam
      rw [u.params_wanted] at hparam
      obtain ⟨k, -, rfl⟩ := List.mem_map.1 hparam
      exact isVariable_canonicalVar k
  annots := by
    obtain ⟨d, hd, -, rfl⟩ | ⟨u, -, -, d, hd, rfl⟩ := Library.mem_outcome.1 hout
    · exact (h.writable d hd).annots
    · obtain ⟨hmem, -⟩ | ⟨kind, -, rfl⟩ := h.find_cases hd
      · exact (h.writable d hmem).annots
      · nofun
  body := by
    intro u hu
    have hroot := h.tidy_outcome hvisits hout u hu
    exact ⟨fun heq => (hroot.head heq).imp_right And.left, hroot.labels, hroot.annots, hroot.wide⟩
  vars := (h.proper_outcome hvisits hout).writtenIn.vars
  normal := (h.proper_outcome hvisits hout).isNormal

/-- Standard names keep the definitions of an expansion apart from each other and from the built-ins. -/
theorem keepsApart_outcome (h : Accepted definitions) {f : String → String} {stem : String}
    {taken : List String}
    (hf : StandardName.Assigns (h.library.outcome keepPoly definitions added).definitions stem taken f)
    (htaken : Catalogue.standard.map Builtin.name ⊆ taken) :
    KeepsApart Catalogue.standard (h.library.outcome keepPoly definitions added).definitions f where
  injective := hf.injective_names
  builtin b hb := hf.plain (isSynthetic_of_isIdentifier (isIdentifier_standard b hb))
  fresh out hout := by
    intro hbuiltin
    cases hsynthetic : isSynthetic out.name with
    | true =>
      obtain ⟨-, hfree, -⟩ := hf.fresh (StandardName.mem_synthetic_of_name hout hsynthetic)
      exact hfree (htaken hbuiltin)
    | false =>
      rw [hf.plain hsynthetic] at hbuiltin
      exact h.fresh_outcome hout hbuiltin

end Accepted

end Monomorph
