import Monomorph.Proofs.Substitution.Calls

/-!
# Replacement of variables

Replacement is what is left of substitution where no application is specialized, and the two agree: an
instantiator that only puts an application together again gives the replaced expression, whatever else
it does on the way.

Replacements compose. An occurrence of a variable leaves its annotations on what takes its place, so a
replacement commutes with `TypeExpr.annotate`, and a chain of annotated variables collects the annotations
of all its links, however the replacements are grouped.
-/

namespace Monomorph

namespace Environment

/-- Replace variables twice: what the first environment binds goes through the second one, and the second
one also binds what the first one leaves alone. -/
def andThen (first second : Environment) : Environment := fun name =>
  match first name with
  | some t => some (t.replaceVars second)
  | none => second name

variable {first second : Environment} {name : String} {t : TypeExpr}

theorem andThen_of_eq_some (h : first name = some t) :
    first.andThen second name = some (t.replaceVars second) := by
  simp [andThen, h]

theorem andThen_of_eq_none (h : first name = none) : first.andThen second name = second name := by
  simp [andThen, h]

/-- Annotations of an occurrence are added to what takes its place. -/
theorem occurrence_union (env : Environment) (name : String) (a b : Annots) :
    env.occurrence name (a ∪ b) = (env.occurrence name a).annotate b := by
  cases h : env name with
  | some t => rw [occurrence_of_eq_some h, occurrence_of_eq_some h, TypeExpr.annotate_annotate]
  | none =>
    rw [occurrence_of_eq_none h, occurrence_of_eq_none h]
    rfl

end Environment

namespace TypeExpr

/-! ## Composition -/

variable (first second : Environment)

theorem replaceVars_annotate (env : Environment) (t : TypeExpr) (a : Annots) :
    (t.annotate a).replaceVars env = (t.replaceVars env).annotate a := by
  cases t with
  | var name b =>
    have hannotate : (var name b).annotate a = var name (b ∪ a) := rfl
    rw [hannotate, replaceVars_var, replaceVars_var, env.occurrence_union]
  | _ => simp [annotate, mapAnnots]

/-- An occurrence of a variable after two replacements. -/
theorem replaceVars_occurrence (name : String) (a : Annots) :
    (first.occurrence name a).replaceVars second = (first.andThen second).occurrence name a := by
  cases h : first name with
  | some t =>
    rw [Environment.occurrence_of_eq_some h, replaceVars_annotate,
      Environment.occurrence_of_eq_some (Environment.andThen_of_eq_some h)]
  | none =>
    have hthen : first.andThen second name = second name := Environment.andThen_of_eq_none h
    rw [Environment.occurrence_of_eq_none h, replaceVars_var, Environment.occurrence, Environment.occurrence,
      hthen]

theorem replaceVars_replaceVars (t : TypeExpr) :
    (t.replaceVars first).replaceVars second = t.replaceVars (first.andThen second) := by
  have hreplace : ∀ env, Descends (replaceVars env) := fun env => descends_rebuild _
  apply @Descends.ext _ _ ((hreplace second).comp (hreplace first)) (hreplace (first.andThen second))
    fun _ => True
  case h => trivial
  case hP => exact fun _ _ _ _ => trivial
  case hcontainer =>
    intro kind element a _ helement
    rw [Function.comp_apply] at helement ⊢
    rw [replaceVars_container, replaceVars_container, replaceVars_container, helement]
  case hvar =>
    intro name a _
    rw [Function.comp_apply, replaceVars_var, replaceVars_var, replaceVars_occurrence]
  case hnamed =>
    intro name args a _ hargs
    rw [Function.comp_apply, replaceVars_named, replaceVars_named, replaceVars_named, List.map_map, hargs]

/-- Two replacements are one, and what takes the place of an occurrence collects its annotations either
way. -/
theorem replaceVars_composes (t : TypeExpr) :
    (t.replaceVars first).replaceVars second = t.replaceVars (first.andThen second) ∧
    ∀ name a replacement, first.andThen second name = some replacement →
      (((var name a).replaceVars first).replaceVars second).annots = replacement.annots ∪ a ∧
      ((var name a).replaceVars (first.andThen second)).annots = replacement.annots ∪ a := by
  refine ⟨replaceVars_replaceVars first second t, fun name a replacement h => ?_⟩
  have honce : ((var name a).replaceVars (first.andThen second)).annots = replacement.annots ∪ a := by
    rw [replaceVars_var, Environment.occurrence_of_eq_some h, annots_annotate]
  exact ⟨by rw [replaceVars_replaceVars, honce], honce⟩

/-- Annotations with some keys. -/
def marks (keys : List String) : Annots := Annots.ofList (keys.map (⟨"doc", ·, none⟩))

/-- A chain of annotated variables collects the annotations of its links. -/
theorem replaceVars_composes_chain :
    (Environment.bind ["x"] [var "y" (marks ["b"])]).andThen
      (Environment.bind ["y"] [var "z" (marks ["c"])]) "x" = some (var "z" (marks ["b", "c"])) ∧
    (((var "x" (marks ["a"])).replaceVars (Environment.bind ["x"] [var "y" (marks ["b"])])).replaceVars
      (Environment.bind ["y"] [var "z" (marks ["c"])])).annots = marks ["a", "b", "c"] := by
  have hbound : (Environment.bind ["x"] [var "y" (marks ["b"])]).andThen
      (Environment.bind ["y"] [var "z" (marks ["c"])]) "x" = some (var "z" (marks ["b", "c"])) := by
    decide +kernel
  have hmarks : marks ["b", "c"] ∪ marks ["a"] = marks ["a", "b", "c"] := by decide +kernel
  have hchain := ((replaceVars_composes _ _ (var "x" ∅)).2 "x" (marks ["a"]) _ hbound).1
  exact ⟨hbound, hchain.trans hmarks⟩

/-! ## Substitution that only replaces -/

variable {ε σ : Type} {instantiate : Instantiator (ExceptT ε (StateM σ))}

/-- What an instantiator does to its state, apart from what it returns. -/
def effect (instantiate : Instantiator (ExceptT ε (StateM σ))) (u : Use) : ExceptT ε (StateM σ) Unit :=
  ExceptT.mk fun s => (.ok (), ((instantiate u.generic u.args u.annots).run.run s).2)

theorem run_forM_effect (uses : List Use) (s : σ) :
    ((uses.forM (effect instantiate)).run.run s).1 = .ok () := by
  induction uses generalizing s with
  | nil => rfl
  | cons u rest ih => exact ih _

/-- An instantiator that puts every application together again only replaces variables in an expression in
normal form. It may change its state with each call. -/
theorem substitute_of_rebuilds
    (hrebuilds : ∀ name args a s, ((instantiate name args a).run.run s).1 = .ok (apply name args a))
    (env : Environment) {t : TypeExpr} (ht : t.IsNormal) (s : σ) :
    ((t.substitute instantiate env).run.run s).1 = .ok (t.replaceVars env) := by
  have hcall : ∀ name args a, instantiate name args a =
      (do effect instantiate ⟨name, args, a⟩; pure (apply name args a)) := by
    intro name args a
    funext s
    exact Prod.ext (hrebuilds name args a s) rfl
  have hcalls := @run_forM_effect _ _ instantiate
    (t.uses (fun u => apply u.generic u.args u.annots) env) s
  rw [substitute_eq (fun u => apply u.generic u.args u.annots) env hcall t, substituteBy_apply env ht,
    run_bind]
  generalize (List.forM _ (effect instantiate)).run.run s = called at hcalls ⊢
  obtain ⟨outcome, s'⟩ := called
  obtain rfl : outcome = .ok () := hcalls
  rfl

/-- An instantiator that counts its calls. -/
def counting : Instantiator (ExceptT String (StateM Nat)) := fun name args a => do
  modify (· + 1)
  pure (apply name args a)

/-- A pair of a list of boxes and a marked variable. -/
def parcel : TypeExpr :=
  tuple [container .list (named "box" [var "a" ∅] ∅) ∅, var "b" (marks ["fragile"])] ∅

/-- The calls for the box and for the list leave no trace in the expression. -/
theorem substitute_of_rebuilds_parcel :
    (∀ name args a s, ((counting name args a).run.run s).1 = .ok (apply name args a)) ∧ parcel.IsNormal ∧
    (parcel.substitute counting (Environment.bind ["a", "b"] [.atom "int", .var "c" ∅])).run.run 0 =
      (.ok (parcel.replaceVars (Environment.bind ["a", "b"] [.atom "int", .var "c" ∅])), 2) := by
  have hrebuilds : ∀ name args a s, ((counting name args a).run.run s).1 = .ok (apply name args a) :=
    fun _ _ _ _ => rfl
  have hnormal : parcel.IsNormal := by decide +kernel
  exact ⟨hrebuilds, hnormal, Prod.ext (substitute_of_rebuilds hrebuilds _ hnormal 0) rfl⟩

end TypeExpr

end Monomorph
