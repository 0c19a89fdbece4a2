import Monomorph.Proofs.Check.Growth
import Monomorph.Proofs.Check.WellFormed
import Monomorph.Proofs.Expansion.Finiteness
import Monomorph.Proofs.Expansion.Library
import Monomorph.Proofs.Printing.Legality

/-!
# Accepted files

A file is accepted if it is read and checked without errors, against the standard catalogue. Its
definitions can seed a table, and together with the containers they make a library that is sound and
regular: containers are the only generics that lead to containers, so the definitions that lead back to a
definition do so along the calls that the checker follows.
-/

namespace Monomorph

/-- Definitions that can be written in a source text and are in order. -/
structure Accepted (definitions : List TypeDef) : Prop where
  wellFormed : WellFormed Catalogue.standard definitions
  writable : ∀ d ∈ definitions, d.Writable

theorem Accepted.of_source {source : String} {items : List Item}
    (hclean : (Source.parse source).clean? = some items)
    (hcheck : hasErrors (check Catalogue.standard items) = false) :
    Accepted (items.map Item.definition) where
  wellFormed := Check.wellFormed_of_check hcheck
  writable := by
    intro d hd
    obtain ⟨item, hitem, rfl⟩ := List.mem_map.1 hd
    exact Source.writable_of_clean hclean item hitem

namespace Source

/-- A file with two generics that lead to each other, and a use of one of them. -/
def forest : String :=
  "type 'a tree = \x7bvalue : 'a; children : 'a forest\x7d\n" ++
    "type 'a forest = 'a tree list\n" ++ "type names = string tree"

/-- The definitions of `forest` and their places. -/
def forestItems : List Item :=
  [⟨⟨"tree", ["a"], ∅, .record [.labelled "value" (.var "a" ∅),
      .labelled "children" (.named "forest" [.var "a" ∅] ∅)] ∅⟩, ⟨0, 49⟩⟩,
    ⟨⟨"forest", ["a"], ∅, .container .list (.named "tree" [.var "a" ∅] ∅) ∅⟩, ⟨50, 79⟩⟩,
    ⟨⟨"names", [], ∅, .named "tree" [.atom "string"] ∅⟩, ⟨80, 104⟩⟩]

theorem clean?_forest : (parse forest).clean? = some forestItems := by decide +kernel

theorem hasErrors_forest : hasErrors (check Catalogue.standard forestItems) = false := by decide +kernel

end Source

/-! ## The standard catalogue -/

theorem nodup_standard : (Catalogue.standard.map Builtin.name).Nodup := by decide

theorem isIdentifier_standard : ∀ b ∈ Catalogue.standard, IsIdentifier b.name := by decide

/-- The built-ins with parameters are the containers. -/
theorem mem_standard {b : Builtin} (h : b ∈ Catalogue.standard) :
    (b.arity = 0 ∧ b.definition = none) ∨ ∃ kind, b = Catalogue.containerType kind := by
  obtain h | h := List.mem_append.1 h
  · obtain ⟨name, -, rfl⟩ := List.mem_map.1 h
    exact Or.inl ⟨rfl, rfl⟩
  · obtain ⟨kind, -, rfl⟩ := List.mem_map.1 h
    exact Or.inr ⟨kind, rfl⟩

theorem containerType_mem_standard (kind : ContainerKind) :
    Catalogue.containerType kind ∈ Catalogue.standard :=
  List.mem_append_right _ (List.mem_map_of_mem kind.mem_all)

namespace Accepted

variable {definitions : List TypeDef}

theorem nodup (h : Accepted definitions) :
    (definitions.map TypeDef.name ++ Catalogue.standard.map Builtin.name).Nodup := by
  refine List.nodup_append.2 ⟨h.wellFormed.names, nodup_standard, ?_⟩
  rintro name hname other hother rfl
  obtain ⟨d, hd, rfl⟩ := List.mem_map.1 hname
  exact h.wellFormed.fresh d hd hother

theorem plain (h : Accepted definitions) {d : TypeDef} (hd : d ∈ definitions) :
    isSynthetic d.name = false :=
  isSynthetic_of_isIdentifier (h.writable d hd).name.1

theorem normalize_eq (h : Accepted definitions) {d : TypeDef} (hd : d ∈ definitions) :
    d.normalize = d := by
  rw [TypeDef.normalize, TypeExpr.normalize_eq_self (h.writable d hd).normal]

theorem seedable (h : Accepted definitions) : Seedable Catalogue.standard definitions where
  nodup := h.wellFormed.names
  plain _ hd := h.plain hd
  builtin b hb := isSynthetic_of_isIdentifier (isIdentifier_standard b hb)
  arity b hb d hdefinition := by
    obtain ⟨-, hnone⟩ | ⟨kind, rfl⟩ := mem_standard hb
    · rw [hnone] at hdefinition
      cases hdefinition
    · obtain rfl := Option.some.inj hdefinition
      rfl
  abstract := ⟨Catalogue.atom Catalogue.abstractName, by decide, rfl⟩

/-- The library of an accepted file. -/
abbrev library (_ : Accepted definitions) : Library := Library.of Catalogue.standard definitions

/-- The generics are those of the file and the containers. -/
theorem find_cases (h : Accepted definitions) {name : String} {d : TypeDef}
    (hd : h.library.find name = some d) :
    (d ∈ definitions ∧ d.name = name) ∨ ∃ kind, name = kind.name ∧ d = Catalogue.containerDef kind := by
  obtain ⟨d', hd', rfl, rfl⟩ | ⟨b, hb, rfl, hdefinition⟩ := Library.find_cases hd
  · rw [h.normalize_eq hd']
    exact Or.inl ⟨hd', rfl⟩
  · obtain ⟨-, hnone⟩ | ⟨kind, rfl⟩ := mem_standard hb
    · rw [hnone] at hdefinition
      cases hdefinition
    · exact Or.inr ⟨kind, rfl, (Option.some.inj hdefinition).symm⟩

theorem find_definition (h : Accepted definitions) {d : TypeDef} (hd : d ∈ definitions) :
    h.library.find d.name = some d := by
  rw [Library.find_definition h.nodup hd (h.plain hd), h.normalize_eq hd]

theorem find_container (h : Accepted definitions) (kind : ContainerKind) :
    h.library.find kind.name = some (Catalogue.containerDef kind) := by
  have hmem := containerType_mem_standard kind
  exact Library.find_builtin h.nodup hmem (isSynthetic_of_isIdentifier (isIdentifier_standard _ hmem))

/-- No definition has the name of a container. -/
theorem name_ne_container (h : Accepted definitions) {d : TypeDef} (hd : d ∈ definitions)
    (kind : ContainerKind) : d.name ≠ kind.name := by
  intro heq
  apply h.wellFormed.fresh d hd
  rw [heq]
  exact List.mem_map_of_mem (containerType_mem_standard kind)

theorem mem_calls_containerDef {kind : ContainerKind} {call : Application}
    (h : call ∈ (Catalogue.containerDef kind).body.calls) : call = ⟨kind.name, [.var "a" ∅]⟩ := by
  have hcalls : (Catalogue.containerDef kind).body.calls = [⟨kind.name, [.var "a" ∅]⟩] := rfl
  rw [hcalls] at h
  exact List.mem_singleton.1 h

/-- A definition of the file applies containers, with one argument, and generics of the file. -/
theorem call_cases (h : Accepted definitions) {d : TypeDef} (hd : d ∈ definitions) {call : Application}
    (hcall : call ∈ d.body.calls) :
    (∃ kind arg, call = ⟨ContainerKind.name kind, [arg]⟩) ∨
    call ∈ d.body.applications ∧
      ∃ e ∈ definitions, e.name = call.callee ∧ e.arity = call.args.length ∧ e.params ≠ [] := by
  obtain ⟨node, hnode, hcall⟩ := List.mem_filterMap.1 hcall
  cases node with
  | container kind element a =>
    obtain rfl := Option.some.inj hcall
    exact Or.inl ⟨kind, element, rfl⟩
  | named name args a =>
    cases args with
    | nil => cases hcall
    | cons arg args =>
      obtain rfl := Option.some.inj hcall
      refine Or.inr ⟨List.mem_filterMap.2 ⟨_, hnode, rfl⟩, ?_⟩
      obtain ⟨e, he, hname, harity⟩ | ⟨b, hb, rfl, harity⟩ := h.wellFormed.known d hd _ _ _ hnode
      · refine ⟨e, he, hname, harity, fun hparams => ?_⟩
        rw [TypeDef.arity, hparams] at harity
        cases harity
      · -- A built-in with parameters is a container, which has a node of its own in normal form.
        obtain ⟨hzero, -⟩ | ⟨kind, rfl⟩ := mem_standard hb
        · rw [hzero] at harity
          cases harity
        · obtain hnone | hlength := (h.writable d hd).normal _ _ _ hnode
          · change ContainerKind.ofName? kind.name = none at hnone
            rw [ContainerKind.ofName?_name] at hnone
            cases hnone
          · exact absurd harity.symm hlength
  | _ => cases hcall

theorem sound (h : Accepted definitions) : h.library.Sound where
  bound {name d} hd := by
    obtain ⟨hmem, -⟩ | ⟨kind, -, rfl⟩ := h.find_cases hd
    · exact h.wellFormed.bound d hmem
    · exact List.Subset.refl _
  known {name d} hd call hcall := by
    obtain ⟨hmem, -⟩ | ⟨kind, -, rfl⟩ := h.find_cases hd
    · obtain ⟨kind, arg, rfl⟩ | ⟨-, e, he, hname, harity, -⟩ := h.call_cases hmem hcall
      · exact ⟨_, h.find_container kind, rfl⟩
      · exact ⟨e, hname ▸ h.find_definition he, harity⟩
    · obtain rfl := mem_calls_containerDef hcall
      exact ⟨_, h.find_container kind, rfl⟩

/-- From a generic of the file, calls lead to generics of the file along the calls that the checker
follows, or to containers. -/
theorem calls_of_leads (h : Accepted definitions) {e : TypeDef} (he : e ∈ definitions)
    (hparams : e.params ≠ []) {name : String} (hleads : h.library.Leads e.name name) :
    (Relation.ReflTransGen (Calls definitions) e.name name ∧
      ∃ d ∈ definitions, d.name = name ∧ d.params ≠ []) ∨ ∃ kind, name = ContainerKind.name kind := by
  induction hleads with
  | refl => exact Or.inl ⟨.refl, e, he, rfl, hparams⟩
  | tail _ hstep ih =>
    obtain ⟨d, hd, call, hcall, rfl⟩ := hstep
    obtain ⟨hcalls, d', hd', rfl, hdparams⟩ | ⟨kind, rfl⟩ := ih
    · obtain rfl := Option.some.inj ((h.find_definition hd').symm.trans hd)
      obtain ⟨kind, arg, rfl⟩ | ⟨happlication, e', he', hname, -, heparams⟩ := h.call_cases hd' hcall
      · exact Or.inr ⟨kind, rfl⟩
      · refine Or.inl ⟨hcalls.tail ⟨⟨d', hd', rfl, hdparams, call, happlication, rfl⟩, ?_⟩, ?_⟩
        · exact ⟨e', he', hname, heparams⟩
        · exact ⟨e', he', hname, heparams⟩
    · obtain rfl := Option.some.inj ((h.find_container kind).symm.trans hd)
      obtain rfl := mem_calls_containerDef hcall
      exact Or.inr ⟨kind, rfl⟩

/-- A container leads to containers only. -/
theorem container_of_leads (h : Accepted definitions) {kind : ContainerKind} {name : String}
    (hleads : h.library.Leads kind.name name) : ∃ other : ContainerKind, name = other.name := by
  induction hleads with
  | refl => exact ⟨kind, rfl⟩
  | tail _ hstep ih =>
    obtain ⟨other, rfl⟩ := ih
    obtain ⟨d, hd, call, hcall, rfl⟩ := hstep
    obtain rfl := Option.some.inj ((h.find_container other).symm.trans hd)
    obtain rfl := mem_calls_containerDef hcall
    exact ⟨other, rfl⟩

/-- What a definition of the file hands to generics that lead back to it does not grow. -/
theorem flat_definition (h : Accepted definitions) {d : TypeDef} (hd : d ∈ definitions)
    {call : Application} (hcall : call ∈ d.body.calls) (hleads : h.library.Leads call.callee d.name)
    {arg : TypeExpr} (harg : arg ∈ call.args) : arg.isVar = true ∨ arg.varNames = [] := by
  obtain ⟨kind, part, rfl⟩ | ⟨happlication, e, he, hname, -, heparams⟩ := h.call_cases hd hcall
  · obtain ⟨other, hother⟩ := h.container_of_leads hleads
    exact absurd hother (h.name_ne_container hd other)
  by_cases hclosed : arg.varNames = []
  · exact Or.inr hclosed
  obtain ⟨x, hx⟩ := List.exists_mem_of_ne_nil _ hclosed
  obtain ⟨node, hnode, hcall⟩ := List.mem_filterMap.1 hcall
  have hparam : x ∈ d.params := h.wellFormed.bound d hd
    (TypeExpr.varNames_subset (TypeExpr.mem_subterms_of_call hnode hcall arg harg) hx)
  have hdparams : d.params ≠ [] := List.ne_nil_of_mem hparam
  rw [← hname] at hleads
  obtain ⟨hpath, -⟩ | ⟨other, hother⟩ := h.calls_of_leads he heparams hleads
  · apply TypeExpr.isGrowing_eq_false_iff.1
    exact h.wellFormed.regular d hd hdparams call happlication
      ⟨⟨d, hd, rfl, hdparams, call, happlication, rfl⟩, e, he, hname, heparams⟩ (hname ▸ hpath) arg harg
  · exact absurd hother (h.name_ne_container hd other)

theorem regular (h : Accepted definitions) : h.library.Regular where
  finite := by
    refine ((List.finite_toSet (definitions.map TypeDef.name)).union
      (List.finite_toSet (ContainerKind.all.map ContainerKind.name))).subset fun name hname => ?_
    obtain ⟨d, hd⟩ := Option.isSome_iff_exists.1 hname
    obtain ⟨hmem, rfl⟩ | ⟨kind, rfl, -⟩ := h.find_cases hd
    · exact Or.inl (List.mem_map_of_mem hmem)
    · exact Or.inr (List.mem_map_of_mem kind.mem_all)
  flat {name d} hd call hcall hleads arg harg := by
    obtain ⟨hmem, rfl⟩ | ⟨kind, -, rfl⟩ := h.find_cases hd
    · exact h.flat_definition hmem hcall hleads harg
    · obtain rfl := mem_calls_containerDef hcall
      rw [List.mem_singleton.1 harg]
      exact Or.inl rfl

/-- The uses in the definitions of an accepted file stand in its library. -/
theorem roots (h : Accepted definitions) (keepPoly : Bool) :
    h.library.Roots (TypeDef.roots keepPoly definitions) := by
  intro u hu
  obtain ⟨d, hd, hmem⟩ := List.mem_flatMap.1 hu
  split at hmem
  · next hkept =>
    have huses : d.uses = d.body.uses Use.reference Environment.empty := by
      rw [TypeDef.uses, TypeExpr.normalize_eq_self (h.writable d hd).normal]
    rw [huses] at hmem
    refine ⟨d.name, d, h.find_definition hd, hmem, fun v hv => ?_⟩
    refine List.mem_flatMap.2 ⟨d, hd, ?_⟩
    rwa [if_pos hkept, huses]
  · cases hmem

end Accepted

end Monomorph
