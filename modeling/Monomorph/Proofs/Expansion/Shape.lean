import Monomorph.Proofs.Expansion.Order
import Monomorph.Proofs.StandardName.Standardized

/-!
# The shape of an expansion

An expansion lists the kept definitions in the order of the file and then one specialization for
each name that has an origin. `Expansion.Shaped` says so, and that a specialization comes after
those that the application it is named for refers to.
-/

namespace Monomorph

/-- The normal form of an expression refers to the same specializations. -/
theorem TypeExpr.RefersTo.of_normalize {names : List String} {t : TypeExpr}
    (h : t.normalize.RefersTo names) : t.RefersTo names := by
  induction t using children_induct with
  | node t ih =>
    obtain ⟨hroot, hchildren⟩ := refersTo_iff.1 h
    rw [children_normalize] at hchildren
    refine refersTo_iff.2 ⟨?_, fun c hc => ih c hc (hchildren _ (List.mem_map_of_mem hc))⟩
    cases t with
    | named name args a =>
      intro hsynthetic
      have hnormalize : (named name args a).normalize = apply name (args.map normalize) a :=
        rebuild_named _ _ _ _
      obtain ⟨kind, element, rfl, -, -⟩ | ⟨-, happly⟩ := apply_cases name (args.map normalize) a
      · rw [isSynthetic_of_isIdentifier (isIdentifier_container kind)] at hsynthetic
        cases hsynthetic
      · rw [hnormalize, happly] at hroot
        exact hroot hsynthetic
    | _ => trivial

/-- The definitions have the same name, parameters and annotations. -/
structure TypeDef.SameHead (d out : TypeDef) : Prop where
  name : out.name = d.name
  params : out.params = d.params
  annots : out.annots = d.annots

/-- An expansion consists of the kept definitions and of the specializations that have an origin. -/
structure Expansion.Shaped (definitions : List TypeDef) (keepPoly : Bool) (expansion : Expansion)
    (kept specializations : List TypeDef) : Prop where
  split : expansion.definitions = kept ++ specializations
  /-- The kept definitions are those without parameters, or all of them, in order. -/
  kept : List.Forall₂ TypeDef.SameHead
    (definitions.filter fun d => d.params.isEmpty || keepPoly) kept
  nodup : (expansion.definitions.map TypeDef.name).Nodup
  origins : expansion.origins.map Prod.fst = specializations.map TypeDef.name
  /-- An origin is a generic with the number of parameters that it is declared with. -/
  declared : ∀ entry ∈ expansion.origins, 0 < entry.2.arity ∧
    HasArity Catalogue.standard definitions entry.2.generic entry.2.arity
  /-- The name of a specialization denotes an application of the generic that it comes from. -/
  denotes : ∀ entry ∈ expansion.origins, ∃ args a,
    Denotes entry.1 entry.2.generic args a ∧ args.length = entry.2.arity
  /-- The arguments of this application only refer to specializations that come before. -/
  earlier : ∀ before out after, specializations = before ++ out :: after → ∀ generic args a,
    Denotes out.name generic args a → ∀ arg ∈ args, arg.RefersTo (before.map TypeDef.name)

theorem Demanded.args_ne_nil {library : Library} {roots : List Use} (hroots : library.Roots roots)
    {u : Use} (h : Demanded library roots u) : u.args ≠ [] := by
  cases h with
  | root hroot =>
    obtain ⟨name, d, -, hu, -⟩ := hroots u hroot
    exact TypeExpr.args_ne_nil_of_mem_uses hu
  | nested _ _ hnested => exact TypeExpr.args_ne_nil_of_mem_uses (Use.mem_uses_of_nested hnested)

namespace Accepted

variable {definitions : List TypeDef} {keepPoly : Bool} {added : List Use}

/-- The generic of a demanded use is declared or built in, with as many parameters as arguments. -/
theorem hasArity_of_demanded (h : Accepted definitions) {u : Use}
    (hu : Demanded h.library (TypeDef.roots keepPoly definitions) u) :
    HasArity Catalogue.standard definitions u.generic u.args.length := by
  obtain ⟨d, hd, harity⟩ := hu.declared h.sound (h.roots keepPoly)
  obtain ⟨hmem, hname⟩ | ⟨kind, hname, rfl⟩ := h.find_cases hd
  · exact .inl ⟨d, hmem, hname, harity⟩
  · exact .inr ⟨_, containerType_mem_standard kind, hname.symm, harity⟩

/-- All specializations that are begun are in the result. -/
theorem filter_added (h : Accepted definitions)
    (hvisits : Visits h.library [] (TypeDef.roots keepPoly definitions) added) :
    added.filter (fun u => u.wanted.arity == 0 || keepPoly) = added := by
  refine List.filter_eq_self.2 fun u hu => ?_
  cases keepPoly with
  | false => rw [u.arity_wanted, h.width_eq_zero hvisits hu]; rfl
  | true => exact Bool.or_true _

/-- The uses in the definitions that are kept are ordered. -/
theorem ordered_roots (h : Accepted definitions) (keepPoly : Bool) :
    Use.Ordered [] (TypeDef.roots keepPoly definitions) := by
  refine Use.ordered_flatMap fun d hd => ?_
  split
  · rw [TypeDef.uses, TypeExpr.normalize_eq_self (h.writable d hd).normal]
    refine TypeExpr.ordered_uses (h.writable d hd).body fun hbind => ?_
    cases hbind
  · trivial

/-- The arguments in the name of a specialization only refer to those that are begun before. -/
theorem refersTo_of_denotes (h : Accepted definitions)
    (hvisits : Visits h.library [] (TypeDef.roots keepPoly definitions) added)
    {before after : List String} {name generic : String} {args : List TypeExpr} {a : Annots}
    (hnames : Use.names added = before ++ name :: after) (hdenotes : Denotes name generic args a) :
    ∀ arg ∈ args, arg.RefersTo before := by
  obtain ⟨first, rest, rfl, rfl, hrest⟩ := List.map_eq_append_iff.1 hnames
  obtain ⟨u, last, rfl, rfl, -⟩ := List.map_eq_cons_iff.1 hrest
  have hordered := hvisits.ordered h.written (h.ordered_roots keepPoly)
  have hu : u ∈ first ++ u :: last := List.mem_append_right _ List.mem_cons_self
  have hproper := (hvisits.demanded u hu).proper h.written (h.roots keepPoly)
  have hargs : args.map TypeExpr.normalize = u.wanted.args :=
    (hdenotes.inj hproper.denotes).2.1.trans hproper.map_normalize
  intro arg harg
  have hmem : arg.normalize ∈ u.wanted.args := hargs ▸ List.mem_map_of_mem harg
  have hwanted : ∀ t ∈ u.wanted.args, t.RefersTo (Use.names first) :=
    Use.forall_wanted (fun ht => ht.renameVars _) hordered.refersTo
  exact (hwanted _ hmem).of_normalize

theorem shaped (h : Accepted definitions)
    (hvisits : Visits h.library [] (TypeDef.roots keepPoly definitions) added) :
    (h.library.outcome keepPoly definitions added).Shaped definitions keepPoly
      ((definitions.filter (TypeDef.isKept keepPoly)).map TypeDef.expanded)
      (added.filterMap fun u => (h.library.find u.generic).map u.specialization) where
  split := by rw [Library.outcome, h.filter_added hvisits]
  kept := List.forall₂_map_right_iff.2 (List.forall₂_same.2 fun _ _ => ⟨rfl, rfl, rfl⟩)
  nodup := h.nodup_names_outcome hvisits
  origins := by
    rw [h.names_specializations hvisits (List.Subset.refl added)]
    exact h.names_origins
  declared entry hentry := by
    obtain ⟨u, hu, rfl⟩ := List.mem_map.1 hentry
    have hdemanded := hvisits.demanded u hu
    have hargs := hdemanded.args_ne_nil (h.roots keepPoly)
    exact ⟨List.length_pos_iff.2 hargs, h.hasArity_of_demanded hdemanded⟩
  denotes entry hentry := by
    obtain ⟨u, hu, rfl⟩ := List.mem_map.1 hentry
    have hproper := (hvisits.demanded u hu).proper h.written (h.roots keepPoly)
    exact ⟨u.wanted.args, u.annots, hproper.denotes, u.length_args_wanted⟩
  earlier before out after hsplit generic args a hdenotes := by
    have hnames := h.names_specializations hvisits (List.Subset.refl added)
    rw [hsplit, List.map_append, List.map_cons] at hnames
    exact h.refersTo_of_denotes hvisits hnames.symm hdenotes

end Accepted

namespace Source

/-- A file that is read and checked without errors is expanded to its kept definitions and to
specializations. -/
theorem expand_shaped {source : String} {items : List Item}
    (hclean : (parse source).clean? = some items)
    (hcheck : hasErrors (check Catalogue.standard items) = false) (keepPoly : Bool) :
    ∃ expansion kept specializations, ExpandsTo (items.map Item.definition) keepPoly expansion ∧
      expansion.Shaped (items.map Item.definition) keepPoly kept specializations := by
  have h := Accepted.of_source hclean hcheck
  obtain ⟨added, hvisits, hexpands⟩ := h.expandsTo keepPoly
  exact ⟨_, _, _, hexpands, h.shaped hvisits⟩

/-- A generic with an application in its body that keeps its parameter, and nested containers. -/
def crates : String := "type 'a crate = 'a list list\ntype use = string crate list"

/-- The definitions of `crates` and their places. -/
def cratesItems : List Item :=
  [⟨⟨"crate", ["a"], ∅, .container .list (.container .list (.var "a" ∅) ∅) ∅⟩, ⟨0, 28⟩⟩,
    ⟨⟨"use", [], ∅, .container .list (.named "crate" [.atom "string"] ∅) ∅⟩, ⟨29, 57⟩⟩]

/-- The origins of the specializations for `crates`, with generics kept. -/
def cratesOrigins : Origins :=
  [("@('a list list)", ⟨"list", 1⟩), ("@(string crate)", ⟨"crate", 1⟩),
    ("@(string list)", ⟨"list", 1⟩), ("@(@(string list) list)", ⟨"list", 1⟩),
    ("@(@(string crate) list)", ⟨"list", 1⟩)]

theorem clean?_crates : (parse crates).clean? = some cratesItems := by decide +kernel

theorem hasErrors_crates : hasErrors (check Catalogue.standard cratesItems) = false := by
  decide +kernel

theorem expand_crates :
    (expand 2 Catalogue.standard (cratesItems.map Item.definition) true).1.toOption.map
      (fun expansion => (expansion.definitions.map TypeDef.name, expansion.origins)) =
      some (["crate", "use"] ++ cratesOrigins.map Prod.fst, cratesOrigins) := by
  decide +kernel

/-- The arguments of two specializations refer to specializations that come before. -/
theorem expand_shaped_crates :
    (parse crates).clean? = some cratesItems ∧
    hasErrors (check Catalogue.standard cratesItems) = false ∧
    ∃ expansion kept specializations, expansion.origins = cratesOrigins ∧
      ExpandsTo (cratesItems.map Item.definition) true expansion ∧
      expansion.Shaped (cratesItems.map Item.definition) true kept specializations := by
  obtain ⟨expansion, kept, specializations, hexpands, hshaped⟩ :=
    expand_shaped clean?_crates hasErrors_crates true
  have horigins : expansion.origins = cratesOrigins := by
    have hcrates := expand_crates
    obtain hresult | hdeep := hexpands.only 2
    · rw [hresult] at hcrates
      exact (Prod.mk.inj (Option.some.inj hcrates)).2
    · rw [hdeep] at hcrates
      cases hcrates
  exact ⟨clean?_crates, hasErrors_crates, expansion, kept, specializations, horigins, hexpands,
    hshaped⟩

end Source

end Monomorph
