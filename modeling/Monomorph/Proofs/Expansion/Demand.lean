import Mathlib.Logic.Relation
import Monomorph.CallGraph
import Monomorph.Proofs.Association
import Monomorph.Proofs.Expansion.Visits
import Monomorph.Proofs.Signature.Identity

/-!
# Demanded uses

The uses that an expansion can meet are those in the definitions that it expands and those that the
specializations of demanded uses lead to. A library is sound if every definition binds its variables
and applies what the library defines, to the right number of arguments. Then every demanded use can be
specialized, and the variables of its arguments come from the definition or from the use it is nested in.
-/

namespace Monomorph

namespace TypeExpr

/-- The generic that a node applies to at least one argument, and the arguments. -/
def call? : TypeExpr → Option Application
  | container kind element _ => some ⟨kind.name, [element]⟩
  | named name (arg :: args) _ => some ⟨name, arg :: args⟩
  | _ => none

/-- The applications in an expression, those of container kinds included. -/
def calls (t : TypeExpr) : List Application := t.subterms.filterMap call?

/-- A use is an application with its arguments substituted and the annotations of its node. -/
theorem mem_uses {result : Use → TypeExpr} {env : Environment} {t : TypeExpr} {u : Use}
    (h : u ∈ t.uses result env) : ∃ node ∈ t.subterms, ∃ call, node.call? = some call ∧
      u = ⟨call.callee, call.args.map (substituteBy result env), node.annots⟩ := by
  obtain ⟨node, hnode, huse⟩ := List.mem_filterMap.1 h
  refine ⟨node, mem_postorder.1 hnode, ?_⟩
  cases node with
  | container kind element a =>
    simp only [use?] at huse
    split at huse
    · cases huse
    · exact ⟨⟨kind.name, [element]⟩, rfl, (Option.some.inj huse).symm⟩
  | named name args a =>
    cases args with
    | nil => cases huse
    | cons arg args =>
      simp only [use?] at huse
      split at huse
      · cases huse
      · exact ⟨⟨name, arg :: args⟩, rfl, (Option.some.inj huse).symm⟩
  | _ => cases huse

theorem args_ne_nil_of_call? {node : TypeExpr} {call : Application} (h : node.call? = some call) :
    call.args ≠ [] := by
  cases node with
  | container kind element a =>
    obtain rfl := Option.some.inj h
    exact List.cons_ne_nil _ _
  | named name args a =>
    cases args with
    | nil => cases h
    | cons arg rest =>
      obtain rfl := Option.some.inj h
      exact List.cons_ne_nil _ _
  | _ => cases h

/-- A use has at least one argument. -/
theorem args_ne_nil_of_mem_uses {result : Use → TypeExpr} {env : Environment} {t : TypeExpr} {u : Use}
    (h : u ∈ t.uses result env) : u.args ≠ [] := by
  obtain ⟨node, -, call, hcall, rfl⟩ := mem_uses h
  exact fun hnil => args_ne_nil_of_call? hcall (List.map_eq_nil_iff.1 hnil)

/-- The uses in a part are among the uses in the whole. -/
theorem uses_subset {result : Use → TypeExpr} {env : Environment} {t u : TypeExpr}
    (h : u ∈ t.subterms) : u.uses result env ⊆ t.uses result env := by
  intro w hw
  obtain ⟨node, hnode, huse⟩ := List.mem_filterMap.1 hw
  exact List.mem_filterMap.2 ⟨node, mem_postorder.2 (subset_subterms h (mem_postorder.1 hnode)), huse⟩

/-- The arguments of an application are parts of the expression. -/
theorem mem_subterms_of_call {t node : TypeExpr} (hnode : node ∈ t.subterms) {call : Application}
    (hcall : node.call? = some call) : ∀ arg ∈ call.args, arg ∈ t.subterms := by
  intro arg harg
  apply subset_subterms hnode
  rw [subterms_eq]
  refine List.mem_cons_of_mem _ (List.mem_flatMap.2 ⟨arg, ?_, self_mem_subterms arg⟩)
  cases node with
  | container kind element a =>
    obtain rfl := Option.some.inj hcall
    exact harg
  | named name args a =>
    cases args with
    | nil => cases hcall
    | cons first rest =>
      obtain rfl := Option.some.inj hcall
      exact harg
  | _ => cases hcall

end TypeExpr

/-! ## Environments of specializations -/

namespace Environment

/-- What is bound is one of the arguments. -/
theorem mem_of_bind {params : List String} {args : List TypeExpr} {name : String} {t : TypeExpr}
    (h : bind params args name = some t) : t ∈ args := by
  have hmem : (name, t) ∈ (params.zip args).reverse := Association.mem_of_lookup h
  exact (List.of_mem_zip (List.mem_reverse.1 hmem)).2

/-- Every parameter is bound. -/
theorem bind_isSome {params : List String} {args : List TypeExpr} (hlength : params.length = args.length)
    {name : String} (h : name ∈ params) : ∃ t ∈ args, bind params args name = some t := by
  cases hbind : bind params args name with
  | some t => exact ⟨t, mem_of_bind hbind, rfl⟩
  | none =>
    have hnone := List.lookup_eq_none_iff.1 hbind
    rw [← List.map_fst_zip (Nat.le_of_eq hlength)] at h
    obtain ⟨pair, hpair, rfl⟩ := List.mem_map.1 h
    have hne := hnone pair (List.mem_reverse.2 hpair)
    simp at hne

end Environment

namespace Use

variable {u : Use} {d : TypeDef}

theorem args_wanted (u : Use) :
    u.wanted.args = u.args.map (TypeExpr.renameVars (Instance.canonical u.args)) := rfl

@[simp] theorem length_args_wanted (u : Use) : u.wanted.args.length = u.args.length := by
  rw [args_wanted, List.length_map]

/-- The parameters of a generic are bound when it is specialized. -/
theorem environment_isSome (harity : d.arity = u.args.length) {name : String} (h : name ∈ d.params) :
    ∃ t ∈ u.wanted.args, u.environment d name = some t :=
  Environment.bind_isSome (harity.trans u.length_args_wanted.symm) h

theorem mem_of_environment {name : String} {t : TypeExpr} (h : u.environment d name = some t) :
    t ∈ u.wanted.args := Environment.mem_of_bind h

end Use

/-! ## Sound libraries -/

/-- Definitions bind their variables and apply what the library defines. -/
structure Library.Sound (library : Library) : Prop where
  bound : ∀ {name d}, library.find name = some d → d.body.varNames ⊆ d.params
  known : ∀ {name d}, library.find name = some d → ∀ call ∈ d.body.calls,
    ∃ e, library.find call.callee = some e ∧ e.arity = call.args.length

/-- All the uses in some definitions of a library, as they stand there. -/
def Library.Roots (library : Library) (roots : List Use) : Prop :=
  ∀ u ∈ roots, ∃ name d, library.find name = some d ∧
    u ∈ d.body.uses Use.reference Environment.empty ∧
    d.body.uses Use.reference Environment.empty ⊆ roots

/-- The uses that an expansion can meet. -/
inductive Demanded (library : Library) (roots : List Use) : Use → Prop
  | root {u : Use} (hroot : u ∈ roots) : Demanded library roots u
  | nested {u v : Use} {d : TypeDef} (hdemanded : Demanded library roots u)
      (hdeclared : library.find u.generic = some d) (hnested : v ∈ u.nested d) :
      Demanded library roots v

/-- A wider library with more uses at hand demands at least the same. -/
theorem Demanded.mono {library wider : Library} {roots more : List Use}
    (hfind : ∀ {name d}, library.find name = some d → wider.find name = some d) (hroots : roots ⊆ more)
    {u : Use} (h : Demanded library roots u) : Demanded wider more u := by
  induction h with
  | root hroot => exact .root (hroots hroot)
  | nested _ hdeclared hnested ih => exact .nested ih (hfind hdeclared) hnested

theorem Use.mem_uses_of_nested {u v : Use} {d : TypeDef} (h : v ∈ u.nested d) :
    v ∈ d.body.uses reference (u.environment d) := by
  unfold nested at h
  split at h
  · cases h
  · exact h

section Sound

variable {library : Library} {roots : List Use}

/-- The use of an application of a sound library can be specialized. -/
theorem Library.Sound.declared (hsound : library.Sound) {name : String} {d : TypeDef}
    (hd : library.find name = some d) {env : Environment} {u : Use}
    (hu : u ∈ d.body.uses Use.reference env) :
    ∃ e, library.find u.generic = some e ∧ e.arity = u.args.length := by
  obtain ⟨node, hnode, call, hcall, rfl⟩ := TypeExpr.mem_uses hu
  obtain ⟨e, he, harity⟩ := hsound.known hd call (List.mem_filterMap.2 ⟨node, hnode, hcall⟩)
  exact ⟨e, he, by rw [harity, List.length_map]⟩

theorem Demanded.declared (hsound : library.Sound) (hroots : library.Roots roots) {u : Use}
    (h : Demanded library roots u) :
    ∃ d, library.find u.generic = some d ∧ d.arity = u.args.length := by
  cases h with
  | root hroot =>
    obtain ⟨name, d, hd, hu, -⟩ := hroots u hroot
    exact hsound.declared hd hu
  | nested hdemanded hdeclared hnested => exact hsound.declared hdeclared (Use.mem_uses_of_nested hnested)

/-- Every demanded use can be specialized. -/
theorem Library.Sound.supports (hsound : library.Sound) (hroots : library.Roots roots) :
    library.Supports (Demanded library roots) where
  declared h := h.declared hsound hroots
  nested := .nested

end Sound

/-! ## Variables -/

namespace TypeExpr

theorem varNames_named_vars (name : String) (names : List String) (a : Annots) :
    (named name (names.map (var · ∅)) a).varNames = names := by
  rw [varNames_eq]
  induction names with
  | nil => rfl
  | cons first rest ih =>
    have hfirst : (var first ∅).varNames = [first] := by rw [varNames_eq]; rfl
    simp only [children, var?, Option.toList_none, List.nil_append, List.map_cons, List.flatMap_cons,
      hfirst] at ih ⊢
    rw [ih, List.singleton_append]

end TypeExpr

/-- A reference applies a specialization to the variables of the use, in order of first occurrence. -/
theorem Use.reference_eq (u : Use) : u.reference =
    .named u.name ((Instance.occurrences u.args).eraseDups.map (.var · ∅)) u.annots := by
  have hvars : u.wanted.vars.map Prod.fst = (Instance.occurrences u.args).eraseDups := by
    rw [Use.wanted, Instance.of, List.map_map]
    exact List.zipIdx_map_fst ..
  rw [← hvars, List.map_map]
  rfl

theorem Use.varNames_reference (u : Use) :
    u.reference.varNames = (Instance.occurrences u.args).eraseDups := by
  rw [reference_eq, TypeExpr.varNames_named_vars]

/-- Substitution brings in no variables but those of the environment. -/
theorem TypeExpr.forall_varNames_substituteBy {P : String → Prop} {env : Environment} {t : TypeExpr}
    (h : ∀ name ∈ t.varNames, ∀ a, ∀ x ∈ (env.occurrence name a).varNames, P x) :
    ∀ x ∈ (t.substituteBy Use.reference env).varNames, P x := by
  induction t using children_induct with
  | node t ih =>
    have hchild : ∀ c ∈ t.children, ∀ x ∈ (c.substituteBy Use.reference env).varNames, P x :=
      fun c hc => ih c hc fun name hname => h name (varNames_child hc hname)
    intro x hx
    obtain ⟨name, a, rfl, heq⟩ | ⟨u, huse, heq⟩ | habove := t.substituteBy_cases Use.reference env
    · rw [heq] at hx
      exact h name (by rw [varNames_eq]; exact List.mem_cons_self) a x hx
    · rw [heq, Use.varNames_reference, List.mem_eraseDups, Instance.occurrences, (use?_eq_some _ _ huse).1,
        List.flatMap_map] at hx
      obtain ⟨c, hc, hx⟩ := List.mem_flatMap.1 hx
      exact hchild c hc x hx
    · rw [varNames_eq, habove.isVar, habove.children, List.flatMap_map] at hx
      obtain ⟨c, hc, hx⟩ := List.mem_flatMap.1 hx
      exact hchild c hc x hx

end Monomorph
