import Monomorph.Instance
import Monomorph.Proofs.TypeExpr.Variables
import Monomorph.TypeExpr.Substitution

/-!
# Uses of generics

Substitution in a monad does two things at once: it calls the instantiator and it builds an
expression. If the expression that a call returns is known beforehand, the two come apart.
`TypeExpr.uses` lists the calls, parts before the whole, and `TypeExpr.substituteBy` is the expression;
`TypeExpr.substitute_eq` puts them together again.

During an expansion a call returns the reference to an instance, so everything that an expansion
writes is given by `TypeExpr.substituteBy`, and its effects are those of the uses in order.
-/

namespace Monomorph

/-- A generic with arguments and annotations, to be replaced by a specialization. -/
structure Use where
  generic : String
  args : List TypeExpr
  annots : Annots
deriving DecidableEq, Repr

namespace Use

/-- The instance that a use asks for. -/
def wanted (u : Use) : Instance := Instance.of u.generic u.args u.annots

/-- The name of the specialization that a use asks for. -/
def name (u : Use) : String := u.wanted.name

/-- What takes the place of a use. -/
def reference (u : Use) : TypeExpr := u.wanted.reference u.annots

end Use

namespace TypeExpr

mutual

/-- The expression and all expressions inside it, parts before the whole. -/
def postorder : TypeExpr → List TypeExpr
  | sum variants a => postorderOfVariants variants ++ [sum variants a]
  | record fields a => postorderOfFields fields ++ [record fields a]
  | tuple items a => postorderOfAll items ++ [tuple items a]
  | container kind element a => postorder element ++ [container kind element a]
  | var name a => [var name a]
  | named name args a => postorderOfAll args ++ [named name args a]

/-- `postorder` of the payloads of a list of variants. -/
def postorderOfVariants : List (Variant TypeExpr) → List TypeExpr
  | [] => []
  | ⟨_, none⟩ :: rest => postorderOfVariants rest
  | ⟨_, some t⟩ :: rest => postorder t ++ postorderOfVariants rest

/-- `postorder` of the types of a list of record lines. -/
def postorderOfFields : List (Field TypeExpr) → List TypeExpr
  | [] => []
  | .labelled _ t :: rest => postorder t ++ postorderOfFields rest
  | .inherit t :: rest => postorder t ++ postorderOfFields rest

/-- `postorder` of a list of expressions. -/
def postorderOfAll : List TypeExpr → List TypeExpr
  | [] => []
  | t :: rest => postorder t ++ postorderOfAll rest

end

theorem postorderOfAll_eq_flatMap (items : List TypeExpr) :
    postorderOfAll items = items.flatMap postorder := by
  induction items with
  | nil => rfl
  | cons t rest ih => simp [postorderOfAll, ih]

theorem postorderOfFields_eq_flatMap (fields : List (Field TypeExpr)) :
    postorderOfFields fields = (fields.map Field.type).flatMap postorder := by
  induction fields with
  | nil => rfl
  | cons f rest ih => cases f <;> simp [postorderOfFields, Field.type, ih]

theorem postorderOfVariants_eq_flatMap (variants : List (Variant TypeExpr)) :
    postorderOfVariants variants = (variants.filterMap Variant.payload).flatMap postorder := by
  induction variants with
  | nil => rfl
  | cons v rest ih =>
    obtain ⟨tag, payload⟩ := v
    cases payload <;> simp [postorderOfVariants, ih]

theorem postorder_eq (t : TypeExpr) : t.postorder = t.children.flatMap postorder ++ [t] := by
  cases t with
  | sum variants a => rw [postorder, postorderOfVariants_eq_flatMap]; rfl
  | record fields a => rw [postorder, postorderOfFields_eq_flatMap]; rfl
  | tuple items a => rw [postorder, postorderOfAll_eq_flatMap]; rfl
  | container kind element a => simp [postorder, children]
  | var name a => simp [postorder, children]
  | named name args a => rw [postorder, postorderOfAll_eq_flatMap]; rfl

/-- The two orders list the same expressions. -/
theorem mem_postorder {t u : TypeExpr} : u ∈ t.postorder ↔ u ∈ t.subterms := by
  induction t using children_induct with
  | node t ih =>
    have hchildren : u ∈ t.children.flatMap postorder ↔ u ∈ t.children.flatMap subterms := by
      simp only [List.mem_flatMap]
      constructor
      · rintro ⟨c, hc, hu⟩
        exact ⟨c, hc, (ih c hc).1 hu⟩
      · rintro ⟨c, hc, hu⟩
        exact ⟨c, hc, (ih c hc).2 hu⟩
    rw [postorder_eq, subterms_eq, List.mem_append, hchildren, List.mem_singleton, List.mem_cons]
    exact or_comm

section SubstituteBy

variable (result : Use → TypeExpr) (env : Environment)

/-- Substitution with an instantiator that has no effects. -/
def substituteBy : TypeExpr → TypeExpr :=
  rebuild {
    var := env.occurrence
    container := fun kind element a =>
      if element.isVar then container kind element a else result ⟨kind.name, [element], a⟩
    named := fun name args a =>
      if args.all isVar then named name args a else result ⟨name, args, a⟩ }

theorem descends_substituteBy : Descends (substituteBy result env) := descends_rebuild _

theorem substituteBy_sum (variants : List (Variant TypeExpr)) (a : Annots) :
    substituteBy result env (sum variants a) =
      sum (variants.map (Variant.map (substituteBy result env))) a :=
  rebuild_sum _ _ _

theorem substituteBy_record (fields : List (Field TypeExpr)) (a : Annots) :
    substituteBy result env (record fields a) =
      record (fields.map (Field.map (substituteBy result env))) a :=
  rebuild_record _ _ _

theorem substituteBy_tuple (items : List TypeExpr) (a : Annots) :
    substituteBy result env (tuple items a) = tuple (items.map (substituteBy result env)) a :=
  rebuild_tuple _ _ _

theorem substituteBy_container (kind : ContainerKind) (element : TypeExpr) (a : Annots) :
    substituteBy result env (container kind element a) =
      if (substituteBy result env element).isVar then
        container kind (substituteBy result env element) a
      else result ⟨kind.name, [substituteBy result env element], a⟩ :=
  rebuild_container _ _ _ _

theorem substituteBy_var (name : String) (a : Annots) :
    substituteBy result env (var name a) = env.occurrence name a :=
  rebuild_var _ _ _

theorem substituteBy_named (name : String) (args : List TypeExpr) (a : Annots) :
    substituteBy result env (named name args a) =
      if (args.map (substituteBy result env)).all isVar then
        named name (args.map (substituteBy result env)) a
      else result ⟨name, args.map (substituteBy result env), a⟩ :=
  rebuild_named _ _ _ _

/-- The use that a node becomes, once its parts are substituted. -/
def use? : TypeExpr → Option Use
  | container kind element a =>
    let element := element.substituteBy result env
    if element.isVar then none else some ⟨kind.name, [element], a⟩
  | named name args a =>
    let args := args.map (substituteBy result env)
    if args.all isVar then none else some ⟨name, args, a⟩
  | _ => none

/-- The uses in an expression, parts before the whole. -/
def uses (t : TypeExpr) : List Use := t.postorder.filterMap (use? result env)

theorem uses_eq (t : TypeExpr) :
    t.uses result env = t.children.flatMap (uses result env) ++ (t.use? result env).toList := by
  rw [uses, postorder_eq, List.filterMap_append, List.filterMap_flatMap]
  congr 1

theorem uses_container (kind : ContainerKind) (element : TypeExpr) (a : Annots) :
    (container kind element a).uses result env = element.uses result env ++
      if (element.substituteBy result env).isVar then []
      else [⟨kind.name, [element.substituteBy result env], a⟩] := by
  rw [uses_eq, children, List.flatMap_singleton]
  by_cases hvar : (element.substituteBy result env).isVar = true <;> simp [use?, hvar]

theorem uses_named (name : String) (args : List TypeExpr) (a : Annots) :
    (named name args a).uses result env = args.flatMap (uses result env) ++
      if (args.map (substituteBy result env)).all isVar then []
      else [⟨name, args.map (substituteBy result env), a⟩] := by
  rw [uses_eq, children, use?]
  generalize args.map (substituteBy result env) = args'
  by_cases hvar : args'.all isVar = true <;> simp only [hvar] <;> rfl

theorem use?_eq_some {t : TypeExpr} {u : Use} (h : t.use? result env = some u) :
    u.args = t.children.map (substituteBy result env) ∧ u.annots = t.annots := by
  cases t with
  | container kind element a =>
    simp only [use?] at h
    split at h
    · cases h
    · obtain rfl := Option.some.inj h
      exact ⟨rfl, rfl⟩
  | named name args a =>
    simp only [use?] at h
    split at h
    · cases h
    · obtain rfl := Option.some.inj h
      exact ⟨rfl, rfl⟩
  | _ => cases h

/-- The environment does not matter to a closed expression. -/
theorem substituteBy_of_closed {t : TypeExpr} (h : t.varNames = []) (env' : Environment) :
    t.substituteBy result env = t.substituteBy result env' := by
  refine rebuild_congr (fun name hname => ?_) rfl fun _ _ _ _ => rfl
  rw [h] at hname
  cases hname

/-- An expression with the root of another one and with its children passed through a function. -/
structure Above (f : TypeExpr → TypeExpr) (t t' : TypeExpr) : Prop where
  children : t'.children = t.children.map f
  rootNames : t'.rootNames = t.rootNames
  annots : t'.annots = t.annots
  isVar : t'.var? = none
  named : ∀ {name args a}, t' = .named name args a → ∃ args', t = .named name args' a ∧ args = args'.map f

/-- What becomes of an expression: a variable is replaced, a use gives what the instantiator returns
for it, and every other node stays above its substituted children. -/
theorem substituteBy_cases (t : TypeExpr) :
    (∃ name a, t = var name a ∧ t.substituteBy result env = env.occurrence name a) ∨
    (∃ u, t.use? result env = some u ∧ t.substituteBy result env = result u) ∨
    Above (substituteBy result env) t (t.substituteBy result env) := by
  cases t with
  | var name a => exact Or.inl ⟨name, a, rfl, substituteBy_var result env name a⟩
  | sum variants a =>
    rw [substituteBy_sum]
    refine Or.inr (Or.inr ⟨children_map_variants _ variants, ?_, rfl, rfl, fun heq => by cases heq⟩)
    simp [rootNames]
  | record fields a =>
    rw [substituteBy_record]
    exact Or.inr (Or.inr ⟨children_map_fields _ fields, rootNames_map_fields _ fields a a, rfl, rfl,
      fun heq => by cases heq⟩)
  | tuple items a =>
    rw [substituteBy_tuple]
    exact Or.inr (Or.inr ⟨rfl, rfl, rfl, rfl, fun heq => by cases heq⟩)
  | container kind element a =>
    rw [substituteBy_container]
    by_cases hvar : (element.substituteBy result env).isVar = true
    · rw [if_pos hvar]
      exact Or.inr (Or.inr ⟨rfl, rfl, rfl, rfl, fun heq => by cases heq⟩)
    · rw [if_neg hvar]
      exact Or.inr (Or.inl ⟨_, by simp only [use?, hvar]; rfl, rfl⟩)
  | named name args a =>
    rw [substituteBy_named]
    by_cases hvar : (args.map (substituteBy result env)).all isVar = true
    · rw [if_pos hvar]
      refine Or.inr (Or.inr ⟨rfl, rfl, rfl, rfl, fun heq => ?_⟩)
      obtain ⟨rfl, rfl, rfl⟩ := named.inj heq
      exact ⟨args, rfl, rfl⟩
    · rw [if_neg hvar]
      exact Or.inr (Or.inl ⟨_, by simp only [use?, hvar]; rfl, rfl⟩)

/-- Where every use gives an application again, substitution only replaces variables. -/
theorem substituteBy_apply {t : TypeExpr} (h : t.IsNormal) :
    t.substituteBy (fun u => apply u.generic u.args u.annots) env = t.replaceVars env := by
  have hreplace : Descends (replaceVars env) := descends_rebuild _
  apply @Descends.ext _ _ (descends_substituteBy _ env) hreplace IsNormal
  case h => exact h
  case hP => exact fun t ht => (isNormal_iff.1 ht).2
  case hcontainer =>
    intro kind element a _ helement
    rw [substituteBy_container, helement, replaceVars_container]
    split
    · rfl
    · exact apply_name kind _ a
  case hvar =>
    intro name a _
    rw [substituteBy_var, replaceVars_var]
  case hnamed =>
    intro name args a hnormal hargs
    rw [substituteBy_named, hargs, replaceVars_named]
    split
    · rfl
    · apply apply_eq_named a
      rw [List.length_map]
      exact (isNormal_iff.1 hnormal).1 name args a rfl

variable {m : Type → Type} [Monad m] [LawfulMonad m]

/-- Calls in order, where each returns what is known beforehand. -/
theorem mapM_eq_forM {α β γ : Type} {F : α → m β} {f : γ → m Unit} {g : α → List γ} {h : α → β}
    {items : List α} (hF : ∀ x ∈ items, F x = do (g x).forM f; pure (h x)) :
    items.mapM F = (do (items.flatMap g).forM f; pure (items.map h)) := by
  induction items with
  | nil => simp
  | cons x rest ih =>
    obtain ⟨hx, hrest⟩ := List.forall_mem_cons.1 hF
    simp [hx, ih hrest]

/-- Substitution calls the instantiator for the uses in order, and returns what it would return if
the calls had no effects. -/
theorem substitute_eq {instantiate : Instantiator m} {f : Use → m Unit}
    (h : ∀ name args a, instantiate name args a =
      do f ⟨name, args, a⟩; pure (result ⟨name, args, a⟩)) (t : TypeExpr) :
    t.substitute instantiate env =
      (do (t.uses result env).forM f; pure (t.substituteBy result env)) := by
  induction t with
  | sum variants a ih =>
    have hvariants : variants.mapM (Variant.mapM (substitute instantiate env)) =
        (do ((variants.filterMap Variant.payload).flatMap (uses result env)).forM f;
            pure (variants.map (Variant.map (substituteBy result env)))) := by
      have hpayloads : variants.flatMap (fun v => v.payload.toList.flatMap (uses result env)) =
          (variants.filterMap Variant.payload).flatMap (uses result env) := by
        rw [List.filterMap_eq_flatMap_toList, List.flatMap_assoc]
      rw [← hpayloads]
      apply mapM_eq_forM
      intro v hv
      obtain ⟨tag, payload⟩ := v
      cases payload with
      | none => simp [Variant.mapM, Variant.map]
      | some t => simp [Variant.mapM, Variant.map, ih _ hv t rfl]
    rw [substitute_sum, hvariants, uses_eq, substituteBy_sum]
    simp [children, use?]
  | record fields a ih =>
    have hfields : fields.mapM (Field.mapM (substitute instantiate env)) =
        (do ((fields.map Field.type).flatMap (uses result env)).forM f;
            pure (fields.map (Field.map (substituteBy result env)))) := by
      rw [List.flatMap_map]
      apply mapM_eq_forM
      intro line hline
      cases line with
      | labelled label t =>
        have ht : t.substitute instantiate env = _ := ih _ hline
        simp [Field.mapM, Field.map, Field.type, ht]
      | inherit t =>
        have ht : t.substitute instantiate env = _ := ih _ hline
        simp [Field.mapM, Field.map, Field.type, ht]
    rw [substitute_record, hfields, uses_eq, substituteBy_record]
    simp [children, use?]
  | tuple items a ih =>
    rw [substitute_tuple, mapM_eq_forM ih, uses_eq, substituteBy_tuple]
    simp [children, use?]
  | container kind element a ih =>
    rw [substitute_container, ih, uses_container, substituteBy_container]
    generalize element.substituteBy result env = element
    by_cases hvar : element.isVar = true
    · simp [hvar]
    · simp [hvar, h]
  | var name a =>
    rw [substitute_var, uses_eq, substituteBy_var]
    simp [children, use?]
  | named name args a ih =>
    rw [substitute_named, mapM_eq_forM ih, uses_named, substituteBy_named]
    generalize args.map (substituteBy result env) = args'
    by_cases hvar : args'.all isVar = true
    · simp only [hvar, ↓reduceIte, pure_bind, bind_assoc, List.append_nil]
    · simp only [hvar, h, ↓reduceIte, pure_bind, bind_assoc, Bool.false_eq_true]
      simp

end SubstituteBy

end TypeExpr

end Monomorph
