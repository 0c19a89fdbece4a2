import Mathlib.Data.List.Basic
import Monomorph.Proofs.TypeExpr.Vocabulary
import Monomorph.TypeExpr.Normal
import Monomorph.TypeExpr.Renaming

/-!
# Variables under renaming and in normal form

A renaming acts on the variables of an expression in place, and the normal form keeps all words but
the names of containers. Both leave the shape of an expression as it is, so each statement is proved
from the root and the children alone; `TypeExpr.children_induct` is the induction for that.

The list of the variables in the order of their first occurrence is `List.eraseDups` of all
occurrences. It commutes with renamings that confuse no two variables.
-/

namespace Monomorph

namespace TypeExpr

/-- An induction that does not look at the constructor. -/
theorem children_induct {motive : TypeExpr → Prop}
    (node : ∀ t, (∀ u ∈ t.children, motive u) → motive t) (t : TypeExpr) : motive t := by
  induction t with
  | sum variants a ih =>
    apply node _
    intro u hu
    obtain ⟨v, hv, hu⟩ := List.mem_filterMap.1 hu
    exact ih v hv u hu
  | record fields a ih =>
    apply node _
    intro u hu
    obtain ⟨f, hf, rfl⟩ := List.mem_map.1 hu
    exact ih f hf
  | tuple items a ih => exact node _ ih
  | container kind element a ih =>
    apply node _
    intro u hu
    rw [List.mem_singleton.1 hu]
    exact ih
  | var name a => exact node _ fun u hu => absurd hu List.not_mem_nil
  | named name args a ih => exact node _ ih

/-- A function that passes through sums, records and tuples. -/
structure Descends (F : TypeExpr → TypeExpr) : Prop where
  sum : ∀ variants a, F (.sum variants a) = .sum (variants.map (Variant.map F)) a
  record : ∀ fields a, F (.record fields a) = .record (fields.map (Field.map F)) a
  tuple : ∀ items a, F (.tuple items a) = .tuple (items.map F) a

theorem descends_rebuild (r : Rebuild) : Descends (rebuild r) where
  sum := rebuild_sum r
  record := rebuild_record r
  tuple := rebuild_tuple r

section Descends

variable {F G : TypeExpr → TypeExpr}

theorem Descends.comp (hF : Descends F) (hG : Descends G) : Descends (F ∘ G) where
  sum variants a := by
    rw [Function.comp_apply, hG.sum, hF.sum, List.map_map, Variant.map_comp_map]
  record fields a := by
    rw [Function.comp_apply, hG.record, hF.record, List.map_map, Field.map_comp_map]
  tuple items a := by
    rw [Function.comp_apply, hG.tuple, hF.tuple, List.map_map]

/-- Two functions that pass through sums, records and tuples are equal if they agree at the other nodes,
where they agree on the parts. -/
theorem Descends.ext (hF : Descends F) (hG : Descends G) {P : TypeExpr → Prop}
    (hP : ∀ t, P t → ∀ c ∈ t.children, P c)
    (hcontainer : ∀ kind element a, P (container kind element a) → F element = G element →
      F (container kind element a) = G (container kind element a))
    (hvar : ∀ name a, P (var name a) → F (var name a) = G (var name a))
    (hnamed : ∀ name args a, P (named name args a) → args.map F = args.map G →
      F (named name args a) = G (named name args a)) {t : TypeExpr} (h : P t) : F t = G t := by
  induction t using children_induct with
  | node t ih =>
    have hchild : ∀ c ∈ t.children, F c = G c := by
      intro c hc
      exact ih c hc (hP t h c hc)
    cases t with
    | sum variants a =>
      rw [hF.sum, hG.sum]
      exact congrArg (TypeExpr.sum · a) (Variant.map_congr fun v hv c hc =>
        hchild c (List.mem_filterMap.2 ⟨v, hv, hc⟩))
    | record fields a =>
      rw [hF.record, hG.record]
      exact congrArg (TypeExpr.record · a) (Field.map_congr fun line hline =>
        hchild _ (List.mem_map_of_mem hline))
    | tuple items a =>
      rw [hF.tuple, hG.tuple]
      exact congrArg (TypeExpr.tuple · a) (List.map_congr_left hchild)
    | container kind element a => exact hcontainer kind element a h (hchild element List.mem_cons_self)
    | var name a => exact hvar name a h
    | named name args a => exact hnamed name args a h (List.map_congr_left hchild)

end Descends

/-! ## Parts -/

theorem subterms_child {t u : TypeExpr} (hu : u ∈ t.children) : u.subterms ⊆ t.subterms := by
  intro w hw
  rw [subterms_eq]
  exact List.mem_cons_of_mem _ (List.mem_flatMap.2 ⟨u, hu, hw⟩)

theorem subset_subterms {t u : TypeExpr} (h : u ∈ t.subterms) : u.subterms ⊆ t.subterms := by
  induction t using children_induct with
  | node t ih =>
    rw [subterms_eq, List.mem_cons, List.mem_flatMap] at h
    obtain rfl | ⟨c, hc, hu⟩ := h
    · exact List.Subset.refl _
    · exact List.Subset.trans (ih c hc hu) (subterms_child hc)

/-- The variables of a part are among the variables of the whole. -/
theorem varNames_subset {t u : TypeExpr} (h : u ∈ t.subterms) : u.varNames ⊆ t.varNames :=
  List.filterMap_subset _ (subset_subterms h)

/-- A part has the words of the whole. -/
theorem WrittenIn.of_mem_subterms {V : Vocabulary} {t u : TypeExpr} (h : t.WrittenIn V)
    (hu : u ∈ t.subterms) : u.WrittenIn V where
  names name hname := by
    obtain ⟨part, hpart, hname⟩ := List.mem_flatMap.1 hname
    exact h.names name (List.mem_flatMap.2 ⟨part, subset_subterms hu hpart, hname⟩)
  vars name hname := h.vars name (varNames_subset hu hname)
  annots a ha := by
    obtain ⟨part, hpart, ha⟩ := List.mem_flatMap.1 ha
    exact h.annots a (List.mem_flatMap.2 ⟨part, subset_subterms hu hpart, ha⟩)

theorem children_map_variants (g : TypeExpr → TypeExpr) (variants : List (Variant TypeExpr)) :
    (variants.map (Variant.map g)).filterMap Variant.payload =
      (variants.filterMap Variant.payload).map g := by
  rw [List.filterMap_map, List.map_filterMap]
  rfl

theorem children_map_fields (g : TypeExpr → TypeExpr) (fields : List (Field TypeExpr)) :
    (fields.map (Field.map g)).map Field.type = (fields.map Field.type).map g := by
  rw [List.map_map, List.map_map]
  exact List.map_congr_left fun f _ => Field.type_map g f

theorem rootNames_map_fields (g : TypeExpr → TypeExpr) (fields : List (Field TypeExpr)) (a b : Annots) :
    (record (fields.map (Field.map g)) a).rootNames = (record fields b).rootNames := by
  simp only [rootNames, List.filterMap_map]
  apply List.filterMap_congr
  intro f _
  cases f <;> rfl

/-! ## Renamings -/

section Renaming

variable (f : String → String)

theorem children_renameVars (t : TypeExpr) :
    (t.renameVars f).children = t.children.map (renameVars f) := by
  cases t with
  | sum variants a => rw [renameVars_sum]; exact children_map_variants _ variants
  | record fields a => rw [renameVars_record]; exact children_map_fields _ fields
  | tuple items a => rw [renameVars_tuple]; rfl
  | container kind element a => rw [renameVars_container]; rfl
  | var name a => rw [renameVars_var]; rfl
  | named name args a => rw [renameVars_named]; rfl

@[simp] theorem rootNames_renameVars (t : TypeExpr) : (t.renameVars f).rootNames = t.rootNames := by
  cases t with
  | sum variants a => simp [rootNames]
  | record fields a => rw [renameVars_record, rootNames_map_fields]
  | _ => simp [rootNames]

@[simp] theorem annots_renameVars (t : TypeExpr) : (t.renameVars f).annots = t.annots := by
  cases t <;> simp [annots]

@[simp] theorem var?_renameVars (t : TypeExpr) : (t.renameVars f).var? = t.var?.map f := by
  cases t <;> simp [var?]

@[simp] theorem names_renameVars (t : TypeExpr) : (t.renameVars f).names = t.names := by
  induction t using children_induct with
  | node t ih =>
    rw [names_eq, names_eq t, children_renameVars, rootNames_renameVars, List.flatMap_map,
      List.flatMap_congr ih]

@[simp] theorem annotations_renameVars (t : TypeExpr) :
    (t.renameVars f).annotations = t.annotations := by
  induction t using children_induct with
  | node t ih =>
    rw [annotations_eq, annotations_eq t, children_renameVars, annots_renameVars, List.flatMap_map,
      List.flatMap_congr ih]

theorem renameVars_annotate (t : TypeExpr) (a : Annots) :
    (t.annotate a).renameVars f = (t.renameVars f).annotate a := by
  cases t <;> simp [annotate, mapAnnots]

/-- A renaming acts on the occurrences of variables, in place. -/
@[simp] theorem varNames_renameVars (t : TypeExpr) :
    (t.renameVars f).varNames = t.varNames.map f := by
  induction t using children_induct with
  | node t ih =>
    rw [varNames_eq, varNames_eq t, children_renameVars, var?_renameVars, List.flatMap_map,
      List.flatMap_congr ih, List.map_append, List.map_flatMap]
    cases t.var? <;> rfl

theorem WrittenIn.renameVars {V : Vocabulary} {t : TypeExpr} (h : t.WrittenIn V)
    (hf : ∀ name ∈ t.varNames, IsVariable (f name)) : (t.renameVars f).WrittenIn V where
  names := by
    rw [names_renameVars]
    exact h.names
  vars name hname := by
    rw [varNames_renameVars] at hname
    obtain ⟨v, hv, rfl⟩ := List.mem_map.1 hname
    exact hf v hv
  annots := by
    rw [annotations_renameVars]
    exact h.annots

end Renaming

theorem varNames_child {t u : TypeExpr} (hu : u ∈ t.children) {name : String}
    (hname : name ∈ u.varNames) : name ∈ t.varNames := by
  rw [varNames_eq]
  exact List.mem_append_right _ (List.mem_flatMap.2 ⟨u, hu, hname⟩)

/-- What rebuilding gives is determined by the names that occur. -/
theorem rebuild_congr {r r' : Rebuild} {t : TypeExpr} (hvar : ∀ name ∈ t.varNames, r.var name = r'.var name)
    (hcontainer : r.container = r'.container)
    (hnamed : ∀ name args a, named name args a ∈ t.subterms → r.named name = r'.named name) :
    rebuild r t = rebuild r' t := by
  apply @Descends.ext _ _ (descends_rebuild r) (descends_rebuild r')
    fun t => (∀ name ∈ t.varNames, r.var name = r'.var name) ∧
      ∀ name args a, named name args a ∈ t.subterms → r.named name = r'.named name
  case h => exact ⟨hvar, hnamed⟩
  case hP =>
    rintro t ⟨hvar, hnamed⟩ c hc
    refine ⟨fun name hname => hvar name (varNames_child hc hname), fun name args a hmem => ?_⟩
    exact hnamed name args a (subterms_child hc hmem)
  case hcontainer =>
    intro kind element a _ helement
    rw [rebuild_container, rebuild_container, hcontainer, helement]
  case hvar =>
    rintro name a ⟨hvar, -⟩
    have hname : name ∈ (var name a).varNames := by
      rw [varNames_eq]
      exact List.mem_cons_self
    rw [rebuild_var, rebuild_var, hvar name hname]
  case hnamed =>
    rintro name args a ⟨-, hnamed⟩ hargs
    rw [rebuild_named, rebuild_named, hnamed name args a (self_mem_subterms _), hargs]

/-- What a renaming does is determined by the variables that occur. -/
theorem renameVars_congr {f g : String → String} {t : TypeExpr}
    (h : ∀ name ∈ t.varNames, f name = g name) : t.renameVars f = t.renameVars g :=
  rebuild_congr (fun name hname => funext fun a => congrArg (var · a) (h name hname)) rfl fun _ _ _ _ => rfl

/-! ## Normal forms -/

theorem children_apply (name : String) (args : List TypeExpr) (a : Annots) :
    (apply name args a).children = args := by
  unfold apply
  split <;> rfl

theorem annots_apply (name : String) (args : List TypeExpr) (a : Annots) :
    (apply name args a).annots = a := by
  unfold apply
  split <;> rfl

theorem var?_apply (name : String) (args : List TypeExpr) (a : Annots) :
    (apply name args a).var? = none := by
  unfold apply
  split <;> rfl

theorem children_normalize (t : TypeExpr) : t.normalize.children = t.children.map normalize := by
  cases t with
  | sum variants a => rw [normalize, rebuild_sum]; exact children_map_variants _ variants
  | record fields a => rw [normalize, rebuild_record]; exact children_map_fields _ fields
  | tuple items a => rw [normalize, rebuild_tuple]; rfl
  | container kind element a => rw [normalize, rebuild_container]; rfl
  | var name a => rw [normalize, rebuild_var]; rfl
  | named name args a => rw [normalize, rebuild_named, children_apply]; rfl

@[simp] theorem annots_normalize (t : TypeExpr) : t.normalize.annots = t.annots := by
  cases t with
  | named name args a => rw [normalize, rebuild_named, annots_apply]; rfl
  | _ => simp [normalize, annots]

@[simp] theorem var?_normalize (t : TypeExpr) : t.normalize.var? = t.var? := by
  cases t with
  | named name args a => rw [normalize, rebuild_named, var?_apply]; rfl
  | _ => simp [normalize, var?]

@[simp] theorem varNames_normalize (t : TypeExpr) : t.normalize.varNames = t.varNames := by
  induction t using children_induct with
  | node t ih =>
    rw [varNames_eq, varNames_eq t, children_normalize, var?_normalize, List.flatMap_map,
      List.flatMap_congr ih]

/-- The two forms that an application can take. -/
theorem apply_cases (name : String) (args : List TypeExpr) (a : Annots) :
    (∃ kind element, name = ContainerKind.name kind ∧ args = [element] ∧
      apply name args a = container kind element a) ∨
    (ContainerKind.ofName? name = none ∨ args.length ≠ 1) ∧
      apply name args a = named name args a := by
  by_cases h : ContainerKind.ofName? name = none ∨ args.length ≠ 1
  · exact Or.inr ⟨h, apply_eq_named a h⟩
  · rw [not_or, Decidable.not_not] at h
    obtain ⟨kind, hkind⟩ := Option.ne_none_iff_exists'.1 h.1
    obtain ⟨element, rfl⟩ := List.length_eq_one_iff.1 h.2
    obtain rfl := ContainerKind.ofName?_eq_some.1 hkind
    exact Or.inl ⟨kind, element, rfl, rfl, apply_name kind element a⟩

theorem rootNames_apply_subset (name : String) (args : List TypeExpr) (a : Annots) :
    (apply name args a).rootNames ⊆ [name] := by
  unfold apply
  split
  · exact List.nil_subset _
  · exact List.Subset.refl _

/-- The normal form has no new words. -/
theorem WrittenIn.normalize {V : Vocabulary} {t : TypeExpr} (h : t.WrittenIn V) :
    t.normalize.WrittenIn V := by
  induction t using children_induct with
  | node t ih =>
    obtain ⟨hnames, hvars, hannots, hchildren⟩ := writtenIn_iff.1 h
    rw [writtenIn_iff, var?_normalize, annots_normalize, children_normalize]
    refine ⟨fun name hname => ?_, hvars, hannots, fun u hu => ?_⟩
    · apply hnames name
      cases t with
      | sum variants a =>
        rw [TypeExpr.normalize, rebuild_sum] at hname
        simpa [rootNames] using hname
      | record fields a => rwa [TypeExpr.normalize, rebuild_record, rootNames_map_fields] at hname
      | named head args a =>
        rw [TypeExpr.normalize, rebuild_named] at hname
        exact rootNames_apply_subset _ _ _ hname
      | _ => simp [TypeExpr.normalize, rootNames] at hname
    · obtain ⟨w, hw, rfl⟩ := List.mem_map.1 hu
      exact ih w hw (hchildren w hw)

theorem IsWide.normalize {t : TypeExpr} (h : t.IsWide) : t.normalize.IsWide := by
  induction t using children_induct with
  | node t ih =>
    obtain ⟨hroot, hchildren⟩ := isWide_iff.1 h
    rw [isWide_iff, children_normalize]
    refine ⟨fun items a heq => ?_, fun u hu => ?_⟩
    · cases t with
      | tuple items' a' =>
        rw [TypeExpr.normalize, rebuild_tuple] at heq
        obtain ⟨rfl, -⟩ := tuple.inj heq
        rw [List.length_map]
        exact hroot items' a' rfl
      | named head args a' =>
        have happly : apply head (args.map TypeExpr.normalize) a' = tuple items a := by
          rwa [TypeExpr.normalize, rebuild_named] at heq
        unfold apply at happly
        split at happly <;> cases happly
      | _ => simp [TypeExpr.normalize] at heq
    · obtain ⟨w, hw, rfl⟩ := List.mem_map.1 hu
      exact ih w hw (hchildren w hw)

theorem renameVars_apply (f : String → String) (name : String) (args : List TypeExpr) (a : Annots) :
    (apply name args a).renameVars f = apply name (args.map (renameVars f)) a := by
  obtain ⟨kind, element, rfl, rfl, happly⟩ | ⟨h, happly⟩ := apply_cases name args a
  · rw [happly, renameVars_container, List.map_singleton, apply_name]
  · rw [happly, renameVars_named, apply_eq_named a (by rwa [List.length_map])]

/-- The normal form and a renaming can be taken in either order. -/
theorem normalize_renameVars (f : String → String) (t : TypeExpr) :
    (t.renameVars f).normalize = t.normalize.renameVars f := by
  have hrename : Descends (renameVars f) := descends_rebuild _
  have hnormalize : Descends normalize := descends_rebuild _
  apply @Descends.ext _ _ (hnormalize.comp hrename) (hrename.comp hnormalize) fun _ => True
  case h => trivial
  case hP => exact fun _ _ _ _ => trivial
  case hcontainer =>
    intro kind element a _ helement
    simp only [Function.comp_apply, normalize, renameVars_container, rebuild_container] at helement ⊢
    rw [helement]
  case hvar =>
    intro name a _
    simp [normalize]
  case hnamed =>
    intro name args a _ hargs
    simp only [Function.comp_apply, normalize, renameVars_named, rebuild_named, renameVars_apply,
      List.map_map]
    exact congrArg (apply name · a) hargs

end TypeExpr

/-! ## First occurrences -/

namespace Occurrences

variable {f : String → String}

/-- Each variable stands once in the order of first occurrences. -/
theorem nodup_eraseDups (names : List String) : names.eraseDups.Nodup := by
  induction h : names.length using Nat.strongRecOn generalizing names with
  | ind n ih =>
    cases names with
    | nil => exact List.nodup_nil
    | cons name rest =>
      rw [List.eraseDups_cons, List.nodup_cons, List.mem_eraseDups]
      have hlength := List.length_filter_le (fun b => !b == name) rest
      rw [List.length_cons] at h
      exact ⟨by simp, ih _ (by omega) _ rfl⟩

theorem idxOf_map {names : List String}
    (hf : ∀ x ∈ names, ∀ y ∈ names, f x = f y → x = y) {name : String} (h : name ∈ names) :
    (names.map f).idxOf (f name) = names.idxOf name := by
  induction names with
  | nil => cases h
  | cons first rest ih =>
    rw [List.map_cons, List.idxOf_cons, List.idxOf_cons]
    by_cases hfirst : first = name
    · simp [hfirst]
    · have hne : f first ≠ f name := fun heq => hfirst (hf first List.mem_cons_self name h heq)
      have hrest : name ∈ rest := (List.mem_cons.1 h).resolve_left (Ne.symm hfirst)
      have hidx := ih (fun x hx y hy => hf x (List.mem_cons_of_mem _ hx) y
        (List.mem_cons_of_mem _ hy)) hrest
      rw [beq_eq_false_iff_ne.2 hne, beq_eq_false_iff_ne.2 hfirst, hidx]

/-- The order of first occurrences moves with a renaming that confuses no two variables. -/
theorem eraseDups_map {names : List String}
    (hf : ∀ x ∈ names, ∀ y ∈ names, f x = f y → x = y) :
    (names.map f).eraseDups = names.eraseDups.map f := by
  induction h : names.length using Nat.strongRecOn generalizing names with
  | ind n ih =>
    cases names with
    | nil => rfl
    | cons name rest =>
      have hfilter : (rest.map f).filter (fun b => !b == f name) =
          (rest.filter fun b => !b == name).map f := by
        rw [List.filter_map]
        refine congrArg (List.map f) (List.filter_congr fun x hx => ?_)
        have heq : f x = f name ↔ x = name :=
          ⟨hf x (List.mem_cons_of_mem _ hx) name List.mem_cons_self, congrArg f⟩
        simp [Function.comp, heq]
      have hlength := List.length_filter_le (fun b => !b == name) rest
      rw [List.length_cons] at h
      rw [List.map_cons, List.eraseDups_cons, List.eraseDups_cons, List.map_cons, hfilter,
        ih _ (by omega) (fun x hx y hy => hf x
          (List.mem_cons_of_mem _ (List.mem_of_mem_filter hx)) y
          (List.mem_cons_of_mem _ (List.mem_of_mem_filter hy))) rfl]

end Occurrences

end Monomorph
