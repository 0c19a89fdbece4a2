import Monomorph.Expansion
import Monomorph.Proofs.Expansion.Table
import Monomorph.Proofs.Expansion.Use
import Monomorph.Proofs.Signature.Identity

/-!
# One specialization

`Use.specialization` is the definition that a use gives, as a function of the definition of its
generic alone, and `Use.nested` are the uses that it leads to. The engine agrees: to make a
specialization is to insert an entry, to make sure of the nested uses in order, and to fill the entry.
That is `Engine.exec_specialize`, the one statement about the code of `specialize` that later proofs need.
-/

namespace Monomorph

namespace Use

/-- The arguments of a use, bound to the parameters of its generic. -/
def environment (u : Use) (declared : TypeDef) : Environment :=
  Environment.bind declared.params u.wanted.args

/-- The body of a specialization, without the annotations of the use. -/
def body (u : Use) (declared : TypeDef) : TypeExpr :=
  if declared.body.isAbstract then .named u.generic u.wanted.args ∅
  else
    let full := declared.body.substituteBy reference (u.environment declared)
    if full.isNamed u.name then declared.body.replaceVars (u.environment declared) else full

/-- The definition that a use gives. -/
def specialization (u : Use) (declared : TypeDef) : TypeDef :=
  ⟨u.name, u.wanted.params, declared.annots, (u.body declared).annotate u.annots⟩

/-- The uses that a specialization leads to, in order. -/
def nested (u : Use) (declared : TypeDef) : List Use :=
  if declared.body.isAbstract then [] else declared.body.uses reference (u.environment declared)

theorem isSynthetic_name (u : Use) : isSynthetic u.name = true := Instance.isSynthetic_name_of _ _ _

end Use

namespace Engine

/-! ## Steps -/

/-- What a step returns, and what it leaves behind. -/
def exec {α : Type} (x : Run α) (e : Engine) : Except Failure α × Engine := x.run.run e

section Steps

variable {α β : Type} (e : Engine)

@[simp] theorem exec_pure (a : α) : exec (pure a) e = (.ok a, e) := rfl

theorem exec_bind (x : Run α) (f : α → Run β) : exec (x >>= f) e =
    match exec x e with
    | (.ok a, e') => exec (f a) e'
    | (.error failure, e') => (.error failure, e') := by
  cases h : exec x e with
  | mk result e' =>
    have hx : StateT.run (ExceptT.run x) e = (result, e') := h
    rw [exec, ExceptT.run_bind, StateT.run_bind, hx]
    cases result <;> rfl

@[simp] theorem exec_map (f : α → β) (x : Run α) : exec (f <$> x) e =
    match exec x e with
    | (.ok a, e') => (.ok (f a), e')
    | (.error failure, e') => (.error failure, e') := by
  rw [map_eq_pure_bind, exec_bind]
  rfl

@[simp] theorem exec_get : exec get e = (.ok e, e) := rfl

@[simp] theorem exec_modify (f : Engine → Engine) : exec (modify f) e = (.ok (), f e) := rfl

@[simp] theorem exec_throw (failure : Failure) : exec (throw failure : Run α) e = (.error failure, e) :=
  rfl

@[simp] theorem exec_report (event : ExpansionEvent) :
    exec (report event) e = (.ok (), { e with events := event :: e.events }) := rfl

end Steps

/-! ## Uses -/

/-- Make sure that there is a specialization for a use. -/
def ensure (create : String → Instance → Annots → Run Unit) (u : Use) : Run Unit := do
  unless (← get).table.contains u.name do
    create u.generic u.wanted u.annots

theorem exec_ensure (create : String → Instance → Annots → Run Unit) (u : Use) (e : Engine) :
    exec (ensure create u) e =
      if e.table.contains u.name then (.ok (), e)
      else exec (create u.generic u.wanted u.annots) e := by
  rw [ensure, exec_bind, exec_get]
  by_cases h : e.table.contains u.name = true <;> simp [h]

/-- Substitution during an expansion makes sure of the uses in order and refers to them. -/
theorem substitute_refer (create : String → Instance → Annots → Run Unit) (env : Environment)
    (t : TypeExpr) : t.substitute (refer create) env =
      (do (t.uses Use.reference env).forM (ensure create);
          pure (t.substituteBy Use.reference env)) := by
  refine TypeExpr.substitute_eq Use.reference env (fun generic args a => ?_) t
  rw [refer, ensure, bind_assoc]
  apply bind_congr
  intro e
  by_cases h : e.table.contains (Instance.of generic args a).name = true <;>
    simp [h, Use.name, Use.wanted, Use.reference]

/-- How specializations are made where they may nest up to a depth. -/
def creator : Nat → String → Instance → Annots → Run Unit
  | 0 => fun _ _ _ => throw .tooDeep
  | depth + 1 => specialize (instantiate depth)

theorem instantiate_eq (depth : Nat) : instantiate depth = refer (creator depth) := by
  cases depth <;> rfl

/-- The engine when the making of a specialization begins. -/
def begun (e : Engine) (u : Use) (arity : Nat) : Engine where
  table := e.table.reserve u.name u.wanted.arity
  origins := e.origins ++ [(u.name, ⟨u.generic, arity⟩)]
  events := .specializing u.name u.generic :: e.events

/-- The engine when the entry of a specialization is filled. -/
def filled (e : Engine) (handle : Handle) (d : TypeDef) (events : List ExpansionEvent) : Engine where
  table := e.table.fill handle d
  origins := e.origins
  events := events ++ e.events

/-- What is reported of the body of a specialization. -/
def remarks (u : Use) (declared : TypeDef) : List ExpansionEvent :=
  if declared.body.isAbstract then [.keptAbstract u.generic]
  else if (declared.body.substituteBy Use.reference (u.environment declared)).isNamed u.name then
    [.selfReference u.name]
  else []

theorem exec_specializedBody (create : String → Instance → Annots → Run Unit) (u : Use)
    {declared : TypeDef} {e : Engine}
    (habstract : declared.body.isAbstract = true → e.table.contains Catalogue.abstractName = true) :
    exec (specializedBody (refer create) declared u.generic u.wanted) e =
      match exec ((u.nested declared).forM (ensure create)) e with
      | (.ok (), e') =>
        (.ok (u.body declared), { e' with events := remarks u declared ++ e'.events })
      | (.error failure, e') => (.error failure, e') := by
  unfold specializedBody
  by_cases h : declared.body.isAbstract = true
  · have hcontains := habstract h
    simp [h, exec_bind, hcontains, Use.nested, Use.body, remarks]
  · have henv : Environment.bind declared.params u.wanted.args = u.environment declared := rfl
    have hname : u.wanted.name = u.name := rfl
    simp only [h, substitute_refer, exec_bind, Use.nested, henv, hname, Bool.false_eq_true, ↓reduceIte]
    cases exec ((declared.body.uses Use.reference (u.environment declared)).forM (ensure create)) e with
    | mk result e' =>
      cases result with
      | error failure => rfl
      | ok _ =>
        by_cases hself : (declared.body.substituteBy Use.reference
          (u.environment declared)).isNamed u.name = true <;>
          simp [Use.body, remarks, h, hself]

/-- To make a specialization is to insert its entry, to make sure of the nested uses in order, and to
fill the entry. -/
theorem exec_specialize (create : String → Instance → Annots → Run Unit) (u : Use)
    {declared : TypeDef} {e : Engine}
    (hknown : e.table.known u.generic = some (declared.arity, some declared))
    (harity : declared.arity = u.args.length)
    (habstract : declared.body.isAbstract = true → e.table.contains Catalogue.abstractName = true) :
    exec (specialize (refer create) u.generic u.wanted u.annots) e =
      match exec ((u.nested declared).forM (ensure create)) (e.begun u declared.arity) with
      | (.ok (), e') =>
        (.ok (), e'.filled e.table.next (u.specialization declared) (remarks u declared))
      | (.error failure, e') => (.error failure, e') := by
  obtain ⟨entry, hfind, hentry⟩ := Option.map_eq_some_iff.1 hknown
  obtain ⟨hentryArity, hdeclared⟩ := Prod.mk.inj hentry
  have hlength : declared.arity = u.wanted.args.length := by
    rw [harity, Use.wanted, Instance.args_of, List.length_map]
  have hcontains : declared.body.isAbstract = true →
      (e.begun u declared.arity).table.contains Catalogue.abstractName = true :=
    fun h => (Table.contains_insert _ _ _ _ _).2 (Or.inr (habstract h))
  have hbody := exec_specializedBody create u hcontains
  have hreserve : exec (reserve u.wanted ⟨u.generic, declared.arity⟩) e =
    (.ok e.table.next, { e.begun u declared.arity with events := e.events }) := rfl
  simp only [specialize, exec_bind, exec_get, hfind, demand, exec_pure, hentryArity, hdeclared,
    hreserve, exec_report, ← hlength, ne_eq, not_true_eq_false, ↓reduceIte]
  have hbegun : Engine.mk (e.begun u declared.arity).table (e.begun u declared.arity).origins
    (.specializing u.wanted.name u.generic :: e.events) = e.begun u declared.arity := rfl
  rw [hbegun, hbody]
  cases exec ((u.nested declared).forM (ensure create)) (e.begun u declared.arity) with
  | mk result e' => cases result <;> rfl

end Engine

end Monomorph
