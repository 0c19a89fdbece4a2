import Monomorph.Proofs.Hygiene.Substitution
import Monomorph.Proofs.TypeExpr.InTurn

/-!
# Canonical instances

An instance is the normal form of an application up to the names of its variables. It can be had in one
pass over the arguments, from left to right, with a table of the variables met so far: `Instance.number`
looks a variable up in the table, and gives it the next canonical name if it is not there. The names in the
arguments may be canonical names already, for other numbers: what is looked up is a name of the arguments,
never one that the pass has given.

`Instance.ledger` is what this pass comes down to, and `Instance.run_args` goes through the arguments.
`Instance.isAlphaNormal_of` collects what makes the result a normal form.
-/

namespace Monomorph

namespace Instance

open Occurrences

/-! ## The pass over the arguments -/

/-- The canonical name of a variable: the one in the table, or the next one, which is then entered. -/
def number (name : String) : StateM (List (String × String)) String := do
  let vars ← get
  match vars.lookup name with
  | some c => return c
  | none =>
    let c := canonicalVar vars.length
    set (vars ++ [(name, c)])
    return c

/-- The table of the variables met so far, with room for any number of them. -/
def ledger : Ledger (List (String × String)) where
  after := pairing canonicalVar
  answer := numbering canonicalVar
  fits _ := True
  answer_append h more := numbering_append canonicalVar h more
  fits_of_append _ := trivial

/-- One step of the pass. -/
theorem meets_number (name : String) : ledger.Meets (number name) [name] (· name) where
  run seen _ := by
    show (number name).run (pairing canonicalVar seen) =
      (numbering canonicalVar (seen ++ [name]) name, pairing canonicalVar (seen ++ [name]))
    by_cases h : name ∈ seen
    · rw [numbering_append canonicalVar h, pairing_concat_of_mem canonicalVar h]
      simp only [number, StateT.run_bind, StateT.run_get, pure_bind, lookup_pairing_of_mem canonicalVar h]
      rfl
    · rw [numbering_concat_of_notMem canonicalVar h, pairing_concat_of_notMem canonicalVar h]
      simp only [number, StateT.run_bind, StateT.run_get, pure_bind, lookup_pairing_of_notMem canonicalVar h,
        length_pairing]
      rfl
  congr h := h name List.mem_cons_self

theorem vars_of (generic : String) (args : List TypeExpr) (a : Annots) :
    (of generic args a).vars = pairing canonicalVar (occurrences args) := rfl

/-- The arguments and the variables of an instance are what the pass makes of the arguments of the
application, from an empty table. -/
theorem run_args (generic : String) (args : List TypeExpr) (a : Annots) :
    (args.mapM (TypeExpr.renameVarsM number)).run [] = ((of generic args a).args, (of generic args a).vars) :=
  (Ledger.Meets.mapM fun t _ => Ledger.Meets.renameVarsM meets_number t).run [] trivial

/-! ## Normal forms -/

/-- A canonical name, read back through the variables of an instance. -/
def original (i : Instance) (name : String) : String :=
  ((i.vars.map Prod.swap).lookup name).getD name

/-- An instance is the normal form of an application, up to the names of its variables. -/
structure IsAlphaNormal (i : Instance) (generic : String) (args : List TypeExpr) (a : Annots) : Prop where
  /-- The instance comes from one pass over the arguments. -/
  pass : (args.mapM (TypeExpr.renameVarsM number)).run [] = (i.args, i.vars)
  firsts : FirstOccurrences (i.vars.map Prod.fst) (occurrences args)
  params : i.params = (List.range i.arity).map canonicalVar
  distinct : i.params.Nodup
  legal : ∀ c ∈ i.params, IsVariable c ∧ Lexer.words ('\'' :: c.toList) = [some (.var c)]
  back : i.args.map (TypeExpr.renameVars i.original) = args
  renamed : ∀ f, Set.InjOn f {v | v ∈ occurrences args} →
    let j := of generic (args.map (TypeExpr.renameVars f)) a
    j.name = i.name ∧ j.args = i.args ∧ j.params = i.params
  again : of generic i.args a = { i with vars := i.params.map fun c => (c, c) }

end Instance

namespace Use

open Instance Occurrences

/-- Reading back through the instance of a use undoes the canonical names. -/
theorem original_canonical {u : Use} {name : String} (h : name ∈ occurrences u.args) :
    u.wanted.original (Instance.canonical u.args name) = name := by
  have hplacing : u.wanted.original = placing (occurrences u.args).eraseDups := by
    funext c
    rw [original, wanted, vars_of, pairing, List.map_map]
    rfl
  rw [hplacing, placing_canonical h]

theorem renameVars_original (u : Use) :
    u.wanted.args.map (TypeExpr.renameVars u.wanted.original) = u.args := by
  rw [args_wanted, List.map_map]
  refine (List.map_congr_left fun t ht => ?_).trans (List.map_id u.args)
  rw [Function.comp_apply, TypeExpr.renameVars_renameVars]
  refine (TypeExpr.renameVars_congr fun name hname => ?_).trans (TypeExpr.renameVars_id t)
  exact original_canonical (mem_occurrences ht hname)

/-- A renaming that confuses no two variables of a use shows in the variables of the instance and nowhere
else. -/
theorem wanted_renameVars {u : Use} {f : String → String}
    (hf : Set.InjOn f {v | v ∈ occurrences u.args}) :
    (u.renameVars f).wanted = { u.wanted with vars := u.wanted.vars.map (Prod.map f id) } := by
  have hcanonical := canonical_renameVars hf
  have hname : (u.renameVars f).wanted.name = u.wanted.name := name_eq_of_canonical_eq hcanonical
  have hargs : (u.renameVars f).wanted.args = u.wanted.args := congrArg Use.args hcanonical
  have hvars : (u.renameVars f).wanted.vars = u.wanted.vars.map (Prod.map f id) := by
    rw [wanted, wanted, vars_of, vars_of, Use.renameVars, pairing, pairing, occurrences_map,
      Occurrences.eraseDups_map fun _ hv _ hw => hf hv hw, List.zipIdx_map, List.map_map, List.map_map]
    rfl
  calc (u.renameVars f).wanted
      = ⟨(u.renameVars f).wanted.name, (u.renameVars f).wanted.args, (u.renameVars f).wanted.vars⟩ := rfl
    _ = ⟨u.wanted.name, u.wanted.args, u.wanted.vars.map (Prod.map f id)⟩ := by rw [hname, hargs, hvars]

/-- In the instance for canonical arguments each variable is its own canonical name. -/
theorem wanted_canonical (u : Use) :
    u.canonical.wanted = { u.wanted with vars := u.wanted.params.map fun c => (c, c) } := by
  have hself : u.wanted.vars.map (Prod.map (Instance.canonical u.args) id) =
      u.wanted.params.map fun c => (c, c) := by
    rw [Instance.params, List.map_map]
    refine List.map_congr_left fun pair hpair => ?_
    obtain ⟨v, c⟩ := pair
    obtain ⟨-, rfl⟩ := mem_pairing.1 hpair
    rfl
  rw [← hself]
  exact wanted_renameVars fun _ hv _ _ => canonical_injective hv

end Use

namespace Instance

open Occurrences

/-- The instance of a generic is the normal form of its application, whatever the names of the variables
and however many there are. -/
theorem isAlphaNormal_of (generic : String) (args : List TypeExpr) (a : Annots) :
    IsAlphaNormal (of generic args a) generic args a := by
  let u : Use := ⟨generic, args, a⟩
  have hparams : u.wanted.params = (List.range u.wanted.arity).map canonicalVar := by
    rw [u.arity_wanted, u.params_wanted]
  constructor
  case pass => exact run_args generic args a
  case firsts =>
    rw [vars_of, map_fst_pairing]
    exact Occurrences.firstOccurrences_eraseDups _
  case params => exact hparams
  case distinct =>
    show u.wanted.params.Nodup
    rw [hparams]
    exact List.nodup_range.map fun _ _ => canonicalVar_injective
  case legal =>
    intro c hc
    obtain ⟨n, -, rfl⟩ := List.mem_map.1 (hparams ▸ hc)
    have hlegal := isVariable_canonicalVar n
    have hwords := Lexer.words_var hlegal stops_nil
    rw [List.append_nil] at hwords
    exact ⟨hlegal, hwords⟩
  case back => exact u.renameVars_original
  case renamed =>
    intro f hf
    show (u.renameVars f).wanted.name = u.wanted.name ∧ (u.renameVars f).wanted.args = u.wanted.args ∧
      (u.renameVars f).wanted.params = u.wanted.params
    rw [Use.wanted_renameVars hf]
    refine ⟨rfl, rfl, ?_⟩
    rw [Instance.params, Instance.params, List.map_map]
    rfl
  case again => exact u.wanted_canonical

/-- Names that are canonical already, in another order. -/
example : of "pair" [.var "b" ∅, .tuple [.var "a" ∅, .var "b" ∅] ∅] ∅ =
    ⟨"@(('a, ('b * 'a)) pair)", [.var "a" ∅, .tuple [.var "b" ∅, .var "a" ∅] ∅],
      [("b", "a"), ("a", "b")]⟩ := by
  cbv

end Instance

end Monomorph
