import Monomorph.Proofs.Expansion.Parts
import Monomorph.Proofs.Expansion.Proper

/-!
# Tidy expressions

An expression is tidy for a condition on heads if every application in it meets the condition, with the
number of its arguments, and everything else in it can be written in a source text: tags, labels,
annotations, tuples of at least two items. Substitution that refers to specializations and the replacement
of variables keep expressions tidy, for every condition that the names of specializations meet.
-/

namespace Monomorph

namespace TypeExpr

/-- The tags and labels that the root of an expression shows. -/
def labels : TypeExpr → List String
  | named _ _ _ => []
  | t => t.rootNames

/-- What a node has to be like, apart from its variable and its children. -/
structure TidyRoot (K : String → Nat → Prop) (t : TypeExpr) : Prop where
  head : ∀ {name args a}, t = named name args a → K name args.length
  labels : ∀ label ∈ t.labels, IsPlain label
  annots : ∀ a ∈ t.annots.toList, a.WrittenIn .plain
  wide : ∀ {items a}, t = tuple items a → 2 ≤ items.length

/-- Every node of an expression is as it has to be. -/
def Tidy (K : String → Nat → Prop) (t : TypeExpr) : Prop := ∀ u ∈ t.subterms, TidyRoot K u

variable {K : String → Nat → Prop} {t : TypeExpr}

theorem tidy_iff : t.Tidy K ↔ t.TidyRoot K ∧ ∀ c ∈ t.children, c.Tidy K := forall_mem_subterms

/-- Expressions of a source text are tidy for what holds of the heads in them. -/
theorem tidy_of_plain (hwritten : t.WrittenIn .plain) (hwide : t.IsWide)
    (hhead : ∀ name args a, named name args a ∈ t.subterms → K name args.length) : t.Tidy K := by
  intro u hu
  refine ⟨fun heq => ?_, fun label hlabel => ?_, fun a ha => ?_, fun heq => ?_⟩
  · subst heq
    exact hhead _ _ _ hu
  · apply hwritten.names label
    refine List.mem_flatMap.2 ⟨u, hu, ?_⟩
    cases u with
    | named name args a => cases hlabel
    | _ => exact hlabel
  · exact hwritten.annots a (List.mem_flatMap.2 ⟨u, hu, ha⟩)
  · subst heq
    exact hwide _ _ hu

theorem TidyRoot.mapChildren (h : t.TidyRoot K) (f : TypeExpr → TypeExpr) :
    (t.mapChildren f).TidyRoot K := by
  refine ⟨fun heq => ?_, ?_, ?_, fun heq => ?_⟩
  · cases t <;> cases heq
    rw [List.length_map]
    exact h.head rfl
  · have hlabels : (t.mapChildren f).labels = t.labels := by
      cases t with
      | sum variants a => simp [TypeExpr.mapChildren, TypeExpr.labels, rootNames]
      | record fields a => exact rootNames_map_fields f fields a a
      | _ => rfl
    rw [hlabels]
    exact h.labels
  · rw [annots_mapChildren]
    exact h.annots
  · cases t <;> cases heq
    rw [List.length_map]
    exact h.wide rfl

theorem TidyRoot.annotate (h : t.TidyRoot K) {a : Annots} (ha : ∀ b ∈ a.toList, b.WrittenIn .plain) :
    (t.annotate a).TidyRoot K := by
  refine ⟨fun heq => ?_, ?_, fun b hb => ?_, fun heq => ?_⟩
  · cases t <;> cases heq
    exact h.head rfl
  · cases t <;> exact h.labels
  · rw [annots_annotate] at hb
    obtain hb | hb := Annots.mem_union.1 hb
    · exact h.annots b hb
    · exact ha b hb
  · cases t <;> cases heq
    exact h.wide rfl

theorem Tidy.annotate (h : t.Tidy K) {a : Annots} (ha : ∀ b ∈ a.toList, b.WrittenIn .plain) :
    (t.annotate a).Tidy K :=
  forall_mem_subterms_annotate h fun hroot => hroot.annotate ha

theorem tidyRoot_var (name : String) {a : Annots} (ha : ∀ b ∈ a.toList, b.WrittenIn .plain) :
    (var name a).TidyRoot K :=
  ⟨nofun, nofun, ha, nofun⟩

theorem tidy_var (name : String) {a : Annots} (ha : ∀ b ∈ a.toList, b.WrittenIn .plain) :
    (var name a).Tidy K :=
  tidy_iff.2 ⟨tidyRoot_var name ha, nofun⟩

theorem Tidy.renameVars (h : t.Tidy K) (f : String → String) : (t.renameVars f).Tidy K := by
  intro u hu
  rw [subterms_renameVars] at hu
  obtain ⟨part, hpart, rfl⟩ := List.mem_map.1 hu
  have hroot := h part hpart
  cases part with
  | var name a =>
    rw [renameVars_var]
    exact tidyRoot_var _ hroot.annots
  | sum variants a =>
    rw [renameVars_sum]
    exact hroot.mapChildren _
  | record fields a =>
    rw [renameVars_record]
    exact hroot.mapChildren _
  | tuple items a =>
    rw [renameVars_tuple]
    exact hroot.mapChildren _
  | container kind element a =>
    rw [renameVars_container]
    exact hroot.mapChildren _
  | named name args a =>
    rw [renameVars_named]
    exact hroot.mapChildren _

/-- An application is tidy if its head and its arguments are. -/
theorem tidy_named {name : String} {args : List TypeExpr} {a : Annots} (hhead : K name args.length)
    (hargs : ∀ arg ∈ args, arg.Tidy K) (ha : ∀ b ∈ a.toList, b.WrittenIn .plain) :
    (named name args a).Tidy K := by
  refine tidy_iff.2 ⟨⟨fun heq => ?_, nofun, ha, nofun⟩, hargs⟩
  obtain ⟨rfl, rfl, -⟩ := named.inj heq
  exact hhead

/-- A reference is tidy if the name of the specialization meets the condition. -/
theorem tidy_reference (hsynthetic : ∀ {name n}, isSynthetic name = true → K name n) {u : Use}
    (ha : ∀ b ∈ u.annots.toList, b.WrittenIn .plain) : u.reference.Tidy K := by
  rw [u.reference_eq]
  refine tidy_named (hsynthetic u.isSynthetic_name) (fun arg harg => ?_) ha
  obtain ⟨x, -, rfl⟩ := List.mem_map.1 harg
  exact tidy_var x nofun

theorem tidy_occurrence {env : Environment} (henv : ∀ {x v}, env x = some v → v.Tidy K) {name : String}
    {a : Annots} (ha : ∀ b ∈ a.toList, b.WrittenIn .plain) : (env.occurrence name a).Tidy K := by
  apply Environment.occurrence_induct (motive := Tidy K)
  · exact tidy_var name ha
  · intro v hv
    exact (henv hv).annotate ha

/-- Substitution that refers to specializations keeps expressions tidy. -/
theorem Tidy.substituteBy (hsynthetic : ∀ {name n}, isSynthetic name = true → K name n)
    {env : Environment} (henv : ∀ {x v}, env x = some v → v.Tidy K) (h : t.Tidy K) :
    (t.substituteBy Use.reference env).Tidy K := by
  apply forall_mem_subterms_substituteBy
  · intro name a hmem
    exact tidy_occurrence henv (h _ hmem).annots
  · intro v hv
    apply tidy_reference hsynthetic
    obtain ⟨node, hnode, call, -, rfl⟩ := mem_uses hv
    exact (h node hnode).annots
  · intro node hnode _ _
    exact (h node hnode).mapChildren _

/-- The replacement of variables keeps expressions tidy. -/
theorem Tidy.replaceVars {env : Environment} (henv : ∀ {x v}, env x = some v → v.Tidy K)
    (h : t.Tidy K) : (t.replaceVars env).Tidy K := by
  apply forall_mem_subterms_replaceVars
  · intro name a hmem
    exact tidy_occurrence henv (h _ hmem).annots
  · intro node hnode _
    exact (h node hnode).mapChildren _

end TypeExpr

/-- The arguments of demanded uses are tidy, if the definitions are of the generics that lead to them. -/
theorem Demanded.tidy {library : Library} {roots : List Use} {R : String → Prop}
    {K : String → Nat → Prop} (hsynthetic : ∀ {name n}, isSynthetic name = true → K name n)
    (hcalls : ∀ {name d}, R name → library.find name = some d → ∀ call ∈ d.body.calls, R call.callee)
    (hroots : ∀ u ∈ roots, ∃ name d, R name ∧ library.find name = some d ∧
      u ∈ d.body.uses Use.reference Environment.empty)
    (htidy : ∀ {name d}, R name → library.find name = some d → d.body.Tidy K) {u : Use}
    (h : Demanded library roots u) : R u.generic ∧ ∀ arg ∈ u.args, arg.Tidy K := by
  refine h.forall_args (T := TypeExpr.Tidy K) hcalls hroots (fun ht => ht.renameVars _) ?_
  intro name d env hname hd henv part hpart
  have hpart : part.Tidy K := fun node hnode =>
    htidy hname hd node (TypeExpr.subset_subterms hpart hnode)
  exact hpart.substituteBy hsynthetic henv

end Monomorph
