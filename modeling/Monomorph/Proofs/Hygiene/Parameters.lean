import Monomorph.Proofs.Expansion.Heads
import Monomorph.Proofs.Hygiene.Substitution

/-!
# Definitions under other names for their parameters

A definition may give other names to its parameters, as long as it tells them apart and a source text can
write them. Nothing that the checker asks for depends on the names, so the definitions of an accepted file
are accepted under any choice of names, made for each definition on its own.

A specialization of a generic has no variables but those of its use, so it is the same under any names for
the parameters of the generic. A generic that is expanded as it stands keeps the new names.
-/

namespace Monomorph

namespace TypeDef

/-- Give other names to the parameters, in the head and in the body. -/
def renameParams (f : String → String) (d : TypeDef) : TypeDef :=
  { d with params := d.params.map f, body := d.body.renameVars f }

/-- New names that tell the parameters of a definition apart and that a source text can write. -/
structure Renaming (d : TypeDef) (f : String → String) : Prop where
  injective : Set.InjOn f {x | x ∈ d.params}
  legal : ∀ x ∈ d.params, IsVariable (f x)

/-- Names that are told apart in the new head were told apart. -/
theorem renaming_of_nodup {d : TypeDef} {f : String → String} (hnodup : (d.renameParams f).params.Nodup)
    (hlegal : ∀ x ∈ (d.renameParams f).params, IsVariable x) : d.Renaming f where
  injective := fun _ hx _ hy => List.inj_on_of_nodup_map hnodup hx hy
  legal := List.forall_mem_map.1 hlegal

/-- Give other names to the parameters of each definition. The choice is made by the name of the definition,
and no two definitions of a file without errors have the same. -/
def renameEach (names : String → String → String) (definitions : List TypeDef) : List TypeDef :=
  definitions.map fun d => d.renameParams (names d.name)

@[simp] theorem arity_renameParams (f : String → String) (d : TypeDef) :
    (d.renameParams f).arity = d.arity := List.length_map f

theorem params_renameParams_eq_nil {f : String → String} {d : TypeDef} :
    (d.renameParams f).params = [] ↔ d.params = [] := List.map_eq_nil_iff

theorem isKept_renameParams (keepPoly : Bool) (f : String → String) (d : TypeDef) :
    (d.renameParams f).isKept keepPoly = d.isKept keepPoly := by
  rw [isKept, isKept, renameParams, List.isEmpty_map]

/-- A definition without parameters and variables has nothing to rename. -/
theorem renameParams_of_closed {d : TypeDef} (hparams : d.params = []) (hbody : d.body.varNames = [])
    (f : String → String) : d.renameParams f = d := by
  have hid : d.body.renameVars f = d.body := by
    rw [TypeExpr.renameVars_congr (g := id) (by rw [hbody]; nofun), TypeExpr.renameVars_id]
  rw [renameParams, hid, hparams, List.map_nil, ← hparams]

end TypeDef

/-! ## Expansion of one definition -/

section Renaming

variable {d : TypeDef} {f : String → String} {u : Use}

/-- The parameters of a generic are bound alike under their old and their new names. -/
theorem TypeDef.Renaming.commutes (hf : d.Renaming f) (hbound : d.body.varNames ⊆ d.params)
    (harity : d.arity = u.args.length) :
    d.body.Commutes Use.reference (u.environment d) (u.environment (d.renameParams f)) f id := by
  refine TypeExpr.commutes_of_bound fun name hname => ?_
  obtain ⟨v, -, hv⟩ := Use.environment_isSome harity (hbound hname)
  exact ⟨v, hv, (Environment.bind_map hf.injective _ (hbound hname)).trans hv⟩

/-- A specialization leads to the same uses under any names for the parameters of its generic. -/
theorem Use.nested_renameParams (hf : d.Renaming f) (hbound : d.body.varNames ⊆ d.params)
    (harity : d.arity = u.args.length) : u.nested (d.renameParams f) = u.nested d := by
  have huses : (d.renameParams f).body.uses reference (u.environment (d.renameParams f)) =
      d.body.uses reference (u.environment d) := by
    refine (hf.commutes hbound harity).uses.trans ?_
    rw [List.map_congr_left fun v _ => v.renameVars_id, List.map_id']
  have habstract : (d.renameParams f).body.isAbstract = d.body.isAbstract :=
    TypeExpr.isAbstract_renameVars f d.body
  rw [nested, nested, habstract, huses]

/-- A specialization is the same under any names for the parameters of its generic. -/
theorem Use.specialization_renameParams (hf : d.Renaming f) (hbound : d.body.varNames ⊆ d.params)
    (harity : d.arity = u.args.length) : u.specialization (d.renameParams f) = u.specialization d := by
  have hcommutes := hf.commutes hbound harity
  have hsubstituted : (d.renameParams f).body.substituteBy reference (u.environment (d.renameParams f)) =
      d.body.substituteBy reference (u.environment d) :=
    hcommutes.substituteBy.trans (TypeExpr.renameVars_id _)
  have hreplaced : (d.renameParams f).body.replaceVars (u.environment (d.renameParams f)) =
      d.body.replaceVars (u.environment d) :=
    hcommutes.replaceVars.trans (TypeExpr.renameVars_id _)
  have habstract : (d.renameParams f).body.isAbstract = d.body.isAbstract :=
    TypeExpr.isAbstract_renameVars f d.body
  have hbody : u.body (d.renameParams f) = u.body d := by
    rw [body, body, habstract, hsubstituted, hreplaced]
  rw [specialization, specialization, hbody]
  rfl

/-- Where no variable is bound, the references in a definition are renamed with it. -/
theorem TypeDef.Renaming.commutes_normalize (hf : d.Renaming f) (hbound : d.body.varNames ⊆ d.params) :
    d.body.normalize.Commutes Use.reference Environment.empty Environment.empty f f := by
  apply TypeExpr.commutes_empty
  rw [TypeExpr.varNames_normalize]
  exact hf.injective.mono hbound

/-- What is expanded as it stands keeps the new names. -/
theorem TypeDef.expanded_renameParams (hf : d.Renaming f) (hbound : d.body.varNames ⊆ d.params) :
    (d.renameParams f).expanded = d.expanded.renameParams f := by
  have hbody : (d.body.renameVars f).normalize.substituteBy Use.reference Environment.empty =
      (d.body.normalize.substituteBy Use.reference Environment.empty).renameVars f := by
    rw [TypeExpr.normalize_renameVars]
    exact (hf.commutes_normalize hbound).substituteBy
  exact congrArg (TypeDef.mk d.name (d.params.map f) d.annots) hbody

/-- The uses in a definition have the same canonical forms under any names for its parameters. -/
theorem TypeDef.canonical_uses_renameParams (hf : d.Renaming f) (hbound : d.body.varNames ⊆ d.params) :
    (d.renameParams f).uses.map Use.canonical = d.uses.map Use.canonical := by
  have huses : (d.renameParams f).uses = d.uses.map (Use.renameVars f) := by
    show (d.body.renameVars f).normalize.uses Use.reference Environment.empty = _
    rw [TypeExpr.normalize_renameVars]
    exact (hf.commutes_normalize hbound).uses
  rw [huses, List.map_map]
  refine List.map_congr_left fun v hv => Use.canonical_renameVars (hf.injective.mono fun x hx => ?_)
  apply hbound
  rw [← TypeExpr.varNames_normalize]
  exact TypeExpr.occurrences_subset_of_mem_uses hv hx

end Renaming

/-! ## Accepted definitions -/

namespace TypeExpr

variable {f : String → String} {t : TypeExpr}

theorem application?_renameVars (f : String → String) (t : TypeExpr) : (t.renameVars f).application? =
    t.application?.map fun call => ⟨call.callee, call.args.map (renameVars f)⟩ := by
  cases t with
  | named name args a => cases args <;> simp [application?]
  | _ => simp [application?]

/-- The applications in a renamed expression are the renamed applications. -/
theorem applications_renameVars (f : String → String) (t : TypeExpr) : (t.renameVars f).applications =
    t.applications.map fun call => ⟨call.callee, call.args.map (renameVars f)⟩ := by
  rw [applications, applications, subterms_renameVars, List.filterMap_map, List.map_filterMap]
  exact List.filterMap_congr fun node _ => application?_renameVars f node

theorem IsNormal.renameVars (h : t.IsNormal) (f : String → String) : (t.renameVars f).IsNormal := by
  have hfixed : (t.renameVars f).normalize = t.renameVars f := by
    rw [normalize_renameVars, normalize_eq_self h]
  exact hfixed ▸ isNormal_normalize _

theorem IsWide.renameVars (h : t.IsWide) (f : String → String) : (t.renameVars f).IsWide := by
  intro items a hmem
  rw [subterms_renameVars] at hmem
  obtain ⟨node, hnode, heq⟩ := List.mem_map.1 hmem
  cases node with
  | tuple parts b =>
    rw [renameVars_tuple] at heq
    obtain ⟨rfl, -⟩ := tuple.inj heq
    rw [List.length_map]
    exact h parts b hnode
  | _ => simp at heq

/-- An application in a renamed expression is a renamed application. -/
theorem exists_of_named_mem_renameVars {name : String} {args : List TypeExpr} {a : Annots}
    (h : named name args a ∈ (t.renameVars f).subterms) :
    ∃ parts, named name parts a ∈ t.subterms ∧ args.length = parts.length := by
  rw [subterms_renameVars] at h
  obtain ⟨node, hnode, heq⟩ := List.mem_map.1 h
  cases node with
  | named head parts b =>
    rw [renameVars_named] at heq
    obtain ⟨rfl, rfl, rfl⟩ := named.inj heq
    exact ⟨parts, hnode, List.length_map _⟩
  | _ => simp at heq

end TypeExpr

section Accepted

variable {definitions : List TypeDef} {names : String → String → String}

theorem TypeDef.mem_renameEach {out : TypeDef} :
    out ∈ renameEach names definitions ↔ ∃ d ∈ definitions, d.renameParams (names d.name) = out :=
  List.mem_map

theorem HasArity.renameEach {catalogue : List Builtin} {name : String} {arity : Nat}
    (h : HasArity catalogue definitions name arity) :
    HasArity catalogue (TypeDef.renameEach names definitions) name arity := by
  obtain ⟨d, hd, hname, harity⟩ | hbuiltin := h
  · refine Or.inl ⟨_, TypeDef.mem_renameEach.2 ⟨d, hd, rfl⟩, hname, ?_⟩
    rw [TypeDef.arity_renameParams, harity]
  · exact Or.inr hbuiltin

/-- Generics call each other under any names for their parameters. -/
theorem Calls.of_renameEach {caller callee : String}
    (h : Calls (TypeDef.renameEach names definitions) caller callee) : Calls definitions caller callee := by
  obtain ⟨⟨out, hout, hcaller, hparams, call, hcall, hcallee⟩, target, htarget, hname, htparams⟩ := h
  obtain ⟨d, hd, rfl⟩ := TypeDef.mem_renameEach.1 hout
  obtain ⟨e, he, rfl⟩ := TypeDef.mem_renameEach.1 htarget
  obtain ⟨own, hown, rfl⟩ := List.mem_map.1 (TypeExpr.applications_renameVars _ d.body ▸ hcall)
  exact ⟨⟨d, hd, hcaller, mt TypeDef.params_renameParams_eq_nil.2 hparams, own, hown, hcallee⟩,
    e, he, hname, mt TypeDef.params_renameParams_eq_nil.2 htparams⟩

/-- Definitions in order are in order under any names for their parameters. -/
theorem WellFormed.renameEach {catalogue : List Builtin} (h : WellFormed catalogue definitions)
    (hnames : ∀ d ∈ definitions, d.Renaming (names d.name)) :
    WellFormed catalogue (TypeDef.renameEach names definitions) := by
  have hforall : ∀ {P : TypeDef → Prop}, (∀ d ∈ definitions, P (d.renameParams (names d.name))) →
      ∀ out ∈ TypeDef.renameEach names definitions, P out := List.forall_mem_map.2
  constructor
  · rw [TypeDef.renameEach, List.map_map]
    exact h.names
  · exact hforall h.fresh
  · exact hforall fun d hd => (h.params d hd).map_on (hnames d hd).injective
  · refine hforall fun d hd => ?_
    show (d.body.renameVars _).varNames ⊆ _
    rw [TypeExpr.varNames_renameVars]
    exact List.map_subset _ (h.bound d hd)
  · refine hforall fun d hd name args a hmem => ?_
    obtain ⟨parts, hparts, hlength⟩ := TypeExpr.exists_of_named_mem_renameVars hmem
    rw [hlength]
    exact (h.known d hd name parts a hparts).renameEach
  · refine hforall fun d hd hparams call hcall hcalls hpath arg harg => ?_
    obtain ⟨own, hown, rfl⟩ := List.mem_map.1 (TypeExpr.applications_renameVars _ d.body ▸ hcall)
    obtain ⟨part, hpart, rfl⟩ := List.mem_map.1 harg
    have hback : Relation.ReflTransGen (Calls definitions) own.callee d.name :=
      Relation.ReflTransGen.mono (fun _ _ => Calls.of_renameEach) _ _ hpath
    apply TypeExpr.isGrowing_renameVars
    exact h.regular d hd (mt TypeDef.params_renameParams_eq_nil.2 hparams) own hown hcalls.of_renameEach
      hback part hpart

/-- Accepted definitions are accepted under any names for their parameters. -/
theorem Accepted.renameEach (h : Accepted definitions)
    (hnames : ∀ d ∈ definitions, d.Renaming (names d.name)) :
    Accepted (TypeDef.renameEach names definitions) where
  wellFormed := h.wellFormed.renameEach hnames
  writable := by
    intro out hout
    obtain ⟨d, hd, rfl⟩ := TypeDef.mem_renameEach.1 hout
    have hd' := h.writable d hd
    exact {
      name := hd'.name
      params := List.forall_mem_map.2 (hnames d hd).legal
      annots := hd'.annots
      body := hd'.body.renameVars _ fun x hx => (hnames d hd).legal x (h.wellFormed.bound d hd hx)
      wide := hd'.wide.renameVars _
      normal := hd'.normal.renameVars _ }

end Accepted

end Monomorph
