import Monomorph.Proofs.Expansion.NormalForm
import Monomorph.Proofs.Hygiene.Parameters

/-!
# Hygiene

The names that definitions give to their parameters have no influence on an expansion: the specializations
are the same, in the same order and from the same origins, and a generic that is kept differs by its own
new names only.

Two expansions are compared use by use. A use in a definition gets other variables with the definition,
which its canonical form does not show; from there on, what is begun depends on canonical forms only.
`Visits.alike` is the induction for that.
-/

namespace Monomorph

/-! ## Uses with the same canonical forms -/

namespace Use

variable {u v : Use} {us vs : List Use}

theorem generic_eq_of_canonical_eq (h : u.canonical = v.canonical) : u.generic = v.generic :=
  (mk.inj h).1

/-- What depends on canonical forms only. -/
theorem map_eq_of_canonical_eq {α : Type} {F : Use → α}
    (hF : ∀ {u v : Use}, u.canonical = v.canonical → F u = F v)
    (h : us.map canonical = vs.map canonical) : us.map F = vs.map F := by
  have hcanonical : ∀ ws : List Use, ws.map F = (ws.map canonical).map F := by
    intro ws
    rw [List.map_map]
    exact List.map_congr_left fun w _ => (hF w.canonical_canonical).symm
  rw [hcanonical us, hcanonical vs, h]

theorem names_eq_of_canonical_eq (h : us.map canonical = vs.map canonical) : names us = names vs :=
  map_eq_of_canonical_eq name_eq_of_canonical_eq h

end Use

/-- Two libraries that lead the uses of a kind to the same uses and give them the same specializations. -/
structure Library.Alike (library library' : Library) (Q : Use → Prop) : Prop where
  find : ∀ {u d}, Q u → library.find u.generic = some d → ∃ d', library'.find u.generic = some d' ∧
    u.nested d' = u.nested d ∧ u.specialization d' = u.specialization d

section Alike

variable {library library' : Library} {Q : Use → Prop} {seen uses added : List Use}

/-- What is begun depends on canonical forms only. -/
theorem Visits.alike (hlibraries : library.Alike library' Q) (hQ : library.Supports Q)
    (h : Visits library seen uses added) (huses : ∀ u ∈ uses, Q u) {seen' uses' : List Use}
    (hseen' : seen'.map Use.canonical = seen.map Use.canonical)
    (huses' : uses'.map Use.canonical = uses.map Use.canonical) :
    ∃ added', added'.map Use.canonical = added.map Use.canonical ∧
      Visits library' seen' uses' added' := by
  induction h generalizing seen' uses' with
  | done =>
    obtain rfl := List.map_eq_nil_iff.1 huses'
    exact ⟨[], rfl, .done⟩
  | @known seen u rest added hseen _ ih =>
    obtain ⟨u', rest', rfl, hu', hrest'⟩ := List.map_eq_cons_iff.1 huses'
    obtain ⟨added', hadded', hvisits⟩ := ih (fun v hv => huses v (List.mem_cons_of_mem _ hv)) hseen' hrest'
    refine ⟨added', hadded', .known ?_ hvisits⟩
    rwa [Use.name_eq_of_canonical_eq hu', Use.names_eq_of_canonical_eq hseen']
  | @fresh seen u declared rest inner outer hseen hdeclared hinner houter ihInner ihOuter =>
    obtain ⟨u', rest', rfl, hu', hrest'⟩ := List.map_eq_cons_iff.1 huses'
    obtain ⟨hu, hrest⟩ := List.forall_mem_cons.1 huses
    obtain ⟨d', hd', hnested, -⟩ := hlibraries.find hu hdeclared
    -- The canonical arguments stand for the parameters, so from here on both follow the very same uses.
    have hnested' : (u'.nested d').map Use.canonical = (u.nested declared).map Use.canonical := by
      rw [Use.nested_eq_of_canonical_eq hu', hnested]
    have hbegun : (seen' ++ [u']).map Use.canonical = (seen ++ [u]).map Use.canonical := by
      simp [hseen', hu']
    obtain ⟨inner', hinner', hvisits⟩ := ihInner (fun v hv => hQ.nested hu hdeclared hv) hbegun hnested'
    have hended : (seen' ++ u' :: inner').map Use.canonical = (seen ++ u :: inner).map Use.canonical := by
      simp [hseen', hu', hinner']
    obtain ⟨outer', houter', hvisits'⟩ := ihOuter hrest hended hrest'
    refine ⟨u' :: inner' ++ outer', by simp [hu', hinner', houter'], .fresh ?_ ?_ hvisits hvisits'⟩
    · rwa [Use.name_eq_of_canonical_eq hu', Use.names_eq_of_canonical_eq hseen']
    · rwa [Use.generic_eq_of_canonical_eq hu']

/-- The specializations for some uses, those of generics only on demand. -/
def Library.specialized (library : Library) (keepPoly : Bool) (uses : List Use) : List TypeDef :=
  (uses.filter fun u => u.wanted.arity == 0 || keepPoly).filterMap fun u =>
    (library.find u.generic).map u.specialization

/-- The specialization for a use, that of a generic only on demand. -/
def Library.specialization? (library : Library) (keepPoly : Bool) (u : Use) : Option TypeDef :=
  if (u.wanted.arity == 0 || keepPoly) = true then (library.find u.generic).map u.specialization
  else none

theorem Library.specialized_eq_filterMap (keepPoly : Bool) (uses : List Use) :
    library.specialized keepPoly uses = (uses.map (library.specialization? keepPoly)).filterMap id := by
  rw [specialized, List.filterMap_filter, List.filterMap_map]
  rfl

theorem Library.isSynthetic_of_mem_specialized {keepPoly : Bool} {out : TypeDef}
    (h : out ∈ library.specialized keepPoly uses) : isSynthetic out.name = true := by
  obtain ⟨u, -, hout⟩ := List.mem_filterMap.1 h
  obtain ⟨d, -, rfl⟩ := Option.map_eq_some_iff.1 hout
  exact u.isSynthetic_name

theorem Library.specialization?_eq_of_canonical_eq {keepPoly : Bool} {u v : Use}
    (h : u.canonical = v.canonical) :
    library.specialization? keepPoly u = library.specialization? keepPoly v := by
  have hspecialization : u.specialization = v.specialization :=
    funext (Use.specialization_eq_of_canonical_eq h)
  rw [specialization?, specialization?, u.arity_wanted, v.arity_wanted, Use.width_eq_of_canonical_eq h,
    Use.generic_eq_of_canonical_eq h, hspecialization]

/-- Specializations depend on canonical forms only. -/
theorem Library.specialized_eq_of_canonical_eq {keepPoly : Bool} {us vs : List Use}
    (h : us.map Use.canonical = vs.map Use.canonical) :
    library.specialized keepPoly us = library.specialized keepPoly vs := by
  rw [specialized_eq_filterMap, specialized_eq_filterMap,
    Use.map_eq_of_canonical_eq specialization?_eq_of_canonical_eq h]

theorem Library.Alike.specialized_eq (hlibraries : library.Alike library' Q) (hQ : library.Supports Q)
    {keepPoly : Bool} (huses : ∀ u ∈ uses, Q u) :
    library'.specialized keepPoly uses = library.specialized keepPoly uses := by
  refine List.filterMap_congr fun u hu => ?_
  have hu := huses u (List.mem_of_mem_filter hu)
  obtain ⟨d, hd, -⟩ := hQ.declared hu
  obtain ⟨d', hd', -, hspecialization⟩ := hlibraries.find hu hd
  rw [hd, hd', Option.map_some, Option.map_some, hspecialization]

end Alike

/-! ## Accepted definitions under other names -/

namespace TypeDef

/-- Give other names to the parameters of a definition, where it is not a specialization. -/
def renameDeclared (names : String → String → String) (d : TypeDef) : TypeDef :=
  if isSynthetic d.name then d else d.renameParams (names d.name)

theorem renameDeclared_of_isSynthetic {d : TypeDef} (h : isSynthetic d.name = true)
    (names : String → String → String) : d.renameDeclared names = d := if_pos h

theorem renameDeclared_of_plain {d : TypeDef} (h : isSynthetic d.name = false)
    (names : String → String → String) : d.renameDeclared names = d.renameParams (names d.name) :=
  if_neg (by rw [h]; exact Bool.false_ne_true)

end TypeDef

/-- An expansion with other names for the parameters of the generics that are kept. -/
def Expansion.renameDeclared (names : String → String → String) (expansion : Expansion) : Expansion :=
  { expansion with definitions := expansion.definitions.map (TypeDef.renameDeclared names) }

namespace Accepted

variable {definitions : List TypeDef} {names : String → String → String} {keepPoly : Bool}
variable {added : List Use}

/-- Uses are specialized alike under any names for the parameters of the definitions. -/
theorem alike (h : Accepted definitions) (hnames : ∀ d ∈ definitions, d.Renaming (names d.name)) :
    h.library.Alike (h.renameEach hnames).library
      (Demanded h.library (TypeDef.roots keepPoly definitions)) where
  find {u d} hu hd := by
    obtain ⟨e, he, harity⟩ := hu.declared h.sound (h.roots keepPoly)
    obtain rfl := Option.some.inj (hd.symm.trans he)
    obtain ⟨hmem, hgeneric⟩ | ⟨kind, hkind, rfl⟩ := h.find_cases hd
    · have hfind := (h.renameEach hnames).find_definition (TypeDef.mem_renameEach.2 ⟨d, hmem, rfl⟩)
      have hbound := h.wellFormed.bound d hmem
      refine ⟨d.renameParams (names d.name), hgeneric ▸ hfind, ?_, ?_⟩
      · exact Use.nested_renameParams (hnames d hmem) hbound harity
      · exact Use.specialization_renameParams (hnames d hmem) hbound harity
    · exact ⟨_, hkind ▸ (h.renameEach hnames).find_container kind, rfl, rfl⟩

/-- The uses in the definitions have the same canonical forms under any names. -/
theorem canonical_roots (h : Accepted definitions)
    (hnames : ∀ d ∈ definitions, d.Renaming (names d.name)) :
    (TypeDef.roots keepPoly (TypeDef.renameEach names definitions)).map Use.canonical =
      (TypeDef.roots keepPoly definitions).map Use.canonical := by
  rw [TypeDef.roots, TypeDef.roots, TypeDef.renameEach, List.flatMap_map, List.map_flatMap,
    List.map_flatMap]
  refine List.flatMap_congr fun d hd => ?_
  rw [TypeDef.isKept_renameParams]
  split
  · exact TypeDef.canonical_uses_renameParams (hnames d hd) (h.wellFormed.bound d hd)
  · rfl

/-- The definitions that are kept are expanded to themselves under the new names. -/
theorem kept_renameEach (h : Accepted definitions)
    (hnames : ∀ d ∈ definitions, d.Renaming (names d.name)) :
    ((TypeDef.renameEach names definitions).filter (TypeDef.isKept keepPoly)).map TypeDef.expanded =
      ((definitions.filter (TypeDef.isKept keepPoly)).map TypeDef.expanded).map
        (TypeDef.renameDeclared names) := by
  have hkept : TypeDef.isKept keepPoly ∘ (fun d => d.renameParams (names d.name)) =
      TypeDef.isKept keepPoly :=
    funext fun d => TypeDef.isKept_renameParams keepPoly (names d.name) d
  rw [TypeDef.renameEach, List.filter_map, hkept, List.map_map, List.map_map]
  refine List.map_congr_left fun d hd => ?_
  have hmem := List.mem_of_mem_filter hd
  have hplain : isSynthetic d.name = false := h.plain hmem
  rw [Function.comp_apply, Function.comp_apply, TypeDef.renameDeclared_of_plain (d := d.expanded) hplain]
  exact TypeDef.expanded_renameParams (hnames d hmem) (h.wellFormed.bound d hmem)

/-- The outcome under other names is the outcome with the kept generics renamed. -/
theorem outcome_renameEach (h : Accepted definitions)
    (hnames : ∀ d ∈ definitions, d.Renaming (names d.name))
    (hvisits : Visits h.library [] (TypeDef.roots keepPoly definitions) added) {added' : List Use}
    (hadded' : added'.map Use.canonical = added.map Use.canonical) :
    (h.renameEach hnames).library.outcome keepPoly (TypeDef.renameEach names definitions) added' =
      (h.library.outcome keepPoly definitions added).renameDeclared names := by
  have hspecialized : (h.renameEach hnames).library.specialized keepPoly added' =
      h.library.specialized keepPoly added := by
    rw [Library.specialized_eq_of_canonical_eq hadded']
    exact (h.alike hnames).specialized_eq (h.sound.supports (h.roots keepPoly)) hvisits.demanded
  have hsame : (h.library.specialized keepPoly added).map (TypeDef.renameDeclared names) =
      h.library.specialized keepPoly added := by
    refine (List.map_congr_left fun out hout => ?_).trans (List.map_id' _)
    exact TypeDef.renameDeclared_of_isSynthetic (Library.isSynthetic_of_mem_specialized hout) names
  have hdefinitions : ((h.renameEach hnames).library.outcome keepPoly
      (TypeDef.renameEach names definitions) added').definitions =
        (h.library.outcome keepPoly definitions added).definitions.map (TypeDef.renameDeclared names) := by
    show _ ++ (h.renameEach hnames).library.specialized keepPoly added' =
      (_ ++ h.library.specialized keepPoly added).map (TypeDef.renameDeclared names)
    rw [List.map_append, hsame, hspecialized, h.kept_renameEach hnames]
  have horigins : added'.map Use.origin = added.map Use.origin :=
    Use.map_eq_of_canonical_eq Use.origin_eq_of_canonical_eq hadded'
  exact congrArg₂ Expansion.mk hdefinitions horigins

/-- Under any names for the parameters, accepted definitions are expanded to the same, but for the names of
the parameters of the generics that are kept. -/
theorem expandsTo_renameEach (h : Accepted definitions)
    (hnames : ∀ d ∈ definitions, d.Renaming (names d.name)) (keepPoly : Bool) :
    ∃ added, Visits h.library [] (TypeDef.roots keepPoly definitions) added ∧
      ExpandsTo definitions keepPoly (h.library.outcome keepPoly definitions added) ∧
      ExpandsTo (TypeDef.renameEach names definitions) keepPoly
        ((h.library.outcome keepPoly definitions added).renameDeclared names) := by
  obtain ⟨added, hvisits, hexpands⟩ := h.expandsTo keepPoly
  obtain ⟨added', hadded', hvisits'⟩ := hvisits.alike (h.alike hnames)
    (h.sound.supports (h.roots keepPoly)) (fun u hu => .root hu) rfl (h.canonical_roots hnames)
  obtain ⟨own, hown, hexpands'⟩ := (h.renameEach hnames).expandsTo keepPoly
  obtain rfl := hvisits'.unique hown
  rw [h.outcome_renameEach hnames hvisits hadded'] at hexpands'
  exact ⟨added, hvisits, hexpands, hexpands'⟩

/-- Without generics, an expansion has nothing to rename. -/
theorem renameDeclared_outcome (h : Accepted definitions)
    (hvisits : Visits h.library [] (TypeDef.roots false definitions) added) :
    (h.library.outcome false definitions added).renameDeclared names =
      h.library.outcome false definitions added := by
  have hsame : ∀ out ∈ (h.library.outcome false definitions added).definitions,
      out.renameDeclared names = out := by
    intro out hout
    obtain ⟨hparams, hbody⟩ := h.closed_outcome hvisits hout
    rw [TypeDef.renameDeclared, TypeDef.renameParams_of_closed hparams hbody, ite_self]
  have hdefinitions := (List.map_congr_left hsame).trans (List.map_id' _)
  exact congrArg (Expansion.mk · _) hdefinitions

end Accepted

namespace Source

/-- The definitions of a file that is read and checked without errors can give any other names to their
parameters, each definition on its own. The expansion without generics is the same; with generics it has
the same origins and the same specializations, and each generic differs by its own new names only. -/
theorem expand_renameParams {source : String} {items : List Item}
    (hclean : (parse source).clean? = some items)
    (hcheck : hasErrors (check Catalogue.standard items) = false) {names : String → String → String}
    (hnames : ∀ d ∈ items.map Item.definition, d.Renaming (names d.name)) :
    (∃ expansion, ExpandsTo (items.map Item.definition) false expansion ∧
      ExpandsTo (TypeDef.renameEach names (items.map Item.definition)) false expansion) ∧
    ∃ expansion, ExpandsTo (items.map Item.definition) true expansion ∧
      ExpandsTo (TypeDef.renameEach names (items.map Item.definition)) true
        (expansion.renameDeclared names) := by
  have h := Accepted.of_source hclean hcheck
  constructor
  · obtain ⟨added, hvisits, hexpands, hrenamed⟩ := h.expandsTo_renameEach hnames false
    rw [h.renameDeclared_outcome hvisits] at hrenamed
    exact ⟨_, hexpands, hrenamed⟩
  · obtain ⟨added, -, hexpands, hrenamed⟩ := h.expandsTo_renameEach hnames true
    exact ⟨_, hexpands, hrenamed⟩

/-- A generic that applies another one to its own parameters, in the other order. -/
def twist : String :=
  "type ('a, 'b) pair = \x7bleft : 'a; right : 'b list\x7d\n" ++
    "type ('x, 'y) twist = ('y, 'x option) pair\ntype use = (int, bool) twist"

/-- The definitions of `twist` and their places. -/
def twistItems : List Item :=
  [⟨⟨"pair", ["a", "b"], ∅, .record [.labelled "left" (.var "a" ∅),
      .labelled "right" (.container .list (.var "b" ∅) ∅)] ∅⟩, ⟨0, 49⟩⟩,
    ⟨⟨"twist", ["x", "y"], ∅, .named "pair" [.var "y" ∅, .container .option (.var "x" ∅) ∅] ∅⟩, ⟨50, 92⟩⟩,
    ⟨⟨"use", [], ∅, .named "twist" [.atom "int", .atom "bool"] ∅⟩, ⟨93, 121⟩⟩]

/-- The parameters of one generic are swapped, and those of the other one get the same names. -/
def twistNames : String → String → String
  | "pair", "a" => "b"
  | "pair", "b" => "a"
  | "twist", "x" => "b"
  | "twist", "y" => "a"
  | _, x => x

/-- All new names are canonical variables, and none stands where the canonical order would put it. -/
theorem expand_renameParams_twist :
    (parse twist).clean? = some twistItems ∧
    hasErrors (check Catalogue.standard twistItems) = false ∧
    (∀ d ∈ twistItems.map Item.definition, d.Renaming (twistNames d.name)) ∧
    (TypeDef.renameEach twistNames (twistItems.map Item.definition)).map TypeDef.params =
      [["b", "a"], ["b", "a"], []] ∧
    (∃ expansion, ExpandsTo (twistItems.map Item.definition) false expansion ∧
      ExpandsTo (TypeDef.renameEach twistNames (twistItems.map Item.definition)) false expansion) ∧
    ∃ expansion, ExpandsTo (twistItems.map Item.definition) true expansion ∧
      ExpandsTo (TypeDef.renameEach twistNames (twistItems.map Item.definition)) true
        (expansion.renameDeclared twistNames) := by
  have hclean : (parse twist).clean? = some twistItems := by decide +kernel
  have hcheck : hasErrors (check Catalogue.standard twistItems) = false := by decide +kernel
  have hnodup : ∀ d ∈ twistItems.map Item.definition,
      (d.renameParams (twistNames d.name)).params.Nodup := by
    decide
  have hlegal : ∀ d ∈ twistItems.map Item.definition,
      ∀ x ∈ (d.renameParams (twistNames d.name)).params, IsVariable x := by
    decide
  have hnames : ∀ d ∈ twistItems.map Item.definition, d.Renaming (twistNames d.name) :=
    fun d hd => TypeDef.renaming_of_nodup (hnodup d hd) (hlegal d hd)
  exact ⟨hclean, hcheck, hnames, by decide, expand_renameParams hclean hcheck hnames⟩

end Source

end Monomorph
