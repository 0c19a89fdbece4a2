import Mathlib.Data.List.Basic
import Monomorph.Surface.Descent

/-!
# Backtracking

What is missing is noted again when a way is tried again, so a record must not depend on how often. It does
not: `Missing.merge` is associative, and what is in a record already is not added again. Therefore matchers
are a monad, and two alternatives that begin alike can begin once: `Matcher.orElse_bind` takes out their
common beginning. For the two forms in parentheses this is `Descent.application_orElse_tupleOrGroup`.
-/

namespace Monomorph.Surface

/-! ## Records -/

section Join

variable {α β : Type} [DecidableEq α] [DecidableEq β]

@[simp] theorem join_nil (first : List α) : join first [] = first := List.append_nil first

@[simp] theorem nil_join (second : List α) : join [] second = second := by simp [join]

@[simp] theorem mem_join {a : α} {first second : List α} :
    a ∈ join first second ↔ a ∈ first ∨ a ∈ second := by
  rw [join, List.mem_append, List.mem_filter, decide_eq_true_iff]
  exact ⟨Or.imp_right And.left, fun h => (em (a ∈ first)).imp_right fun hne => ⟨h.resolve_left hne, hne⟩⟩

theorem join_assoc (first second third : List α) :
    join (join first second) third = join first (join second third) := by
  have hfilter : third.filter (· ∉ first ++ second.filter (· ∉ first)) =
      (third.filter (· ∉ second)).filter (· ∉ first) := by
    rw [List.filter_filter]
    refine List.filter_congr fun a _ => ?_
    by_cases h : a ∈ first <;> simp [h]
  rw [join, join, hfilter, join, join, List.filter_append, List.append_assoc]

/-- What is there already is not added. -/
theorem join_join_self (first second : List α) : join (join first second) first = join first second := by
  have hfilter : first.filter (· ∉ join first second) = [] :=
    List.filter_eq_nil_iff.2 fun a ha => by simp [ha]
  rw [join, hfilter, List.append_nil]

theorem join_self (first : List α) : join first first = first := by
  simpa using join_join_self first []

theorem map_join {f : α → β} (hf : Function.Injective f) (first second : List α) :
    (join first second).map f = join (first.map f) (second.map f) := by
  rw [join, join, List.map_append, List.filter_map]
  refine congrArg (fun l => first.map f ++ l.map f) (List.filter_congr fun a _ => ?_)
  rw [Function.comp_apply, decide_eq_decide, List.mem_map_of_injective hf]

end Join

namespace Missing

@[simp] theorem merge_none (m : Option Missing) : merge m none = m := by cases m <;> rfl

@[simp] theorem none_merge (m : Option Missing) : merge none m = m := by cases m <;> rfl

theorem merge_assoc (l m n : Option Missing) : merge (merge l m) n = merge l (merge m n) := by
  rcases l with _ | l
  · simp
  rcases m with _ | m
  · simp
  rcases n with _ | n
  · simp
  -- By the order of the three places; only where all are equal, there is something to join.
  rcases Nat.lt_trichotomy l.left m.left with hlm | hlm | hlm <;>
    rcases Nat.lt_trichotomy m.left n.left with hmn | hmn | hmn <;>
      grind [merge, join_assoc]

theorem merge_self (m : Option Missing) : merge m m = m := by
  cases m with
  | none => rfl
  | some m => simp [merge, join_self]

/-- What was noted already is not noted again. -/
theorem merge_merge_self (m n : Option Missing) : merge (merge m n) m = merge m n := by
  rcases m with _ | m
  · simp
  rcases n with _ | n
  · simp [merge_self]
  · rcases Nat.lt_trichotomy m.left n.left with h | h | h <;> grind [merge, merge_self, join_join_self]

end Missing

open Missing

namespace Outcome

variable {α β : Type}

@[simp] theorem after_none (o : Outcome α) : o.after none = o := by simp [after]

theorem after_after (m n : Option Missing) (o : Outcome α) : (o.after n).after m = o.after (merge m n) := by
  simp [after, merge_assoc]

end Outcome

/-! ## Matchers are a monad -/

namespace Matcher

variable {α β γ : Type} {p : Matcher α} {lexemes rest : List Lexeme} {m : Option Missing}

theorem pure_apply (a : α) (lexemes : List Lexeme) :
    (Pure.pure a : Matcher α) lexemes = ⟨some (a, lexemes), none⟩ := rfl

theorem bind_of_none (h : p lexemes = ⟨none, m⟩) (f : α → Matcher β) : (p >>= f) lexemes = ⟨none, m⟩ := by
  show bind p f lexemes = _
  rw [bind, h]

theorem bind_of_some {a : α} (h : p lexemes = ⟨some (a, rest), m⟩) (f : α → Matcher β) :
    (p >>= f) lexemes = (f a rest).after m := by
  show bind p f lexemes = _
  rw [bind, h]

theorem map_apply (p : Matcher α) (f : α → β) (lexemes : List Lexeme) :
    (p >>= fun a => Pure.pure (f a)) lexemes = (p lexemes).map f := by
  rcases h : p lexemes with ⟨_ | ⟨a, rest⟩, m⟩
  · exact bind_of_none h _
  · rw [bind_of_some h, pure_apply, Outcome.after, merge_none]
    rfl

theorem orElse_of_none (h : p lexemes = ⟨none, m⟩) (q : Matcher α) :
    (p <|> q) lexemes = (q lexemes).after m := by
  show orElse p q lexemes = _
  rw [orElse, h]

theorem orElse_of_some {r : α × List Lexeme} (h : p lexemes = ⟨some r, m⟩) (q : Matcher α) :
    (p <|> q) lexemes = ⟨some r, m⟩ := by
  show orElse p q lexemes = _
  rw [orElse, h]

instance : LawfulMonad Matcher :=
  LawfulMonad.mk' Matcher
    (fun p => funext fun lexemes => by
      show bind p (fun a => Pure.pure a) lexemes = _
      rcases h : p lexemes with ⟨_ | ⟨a, rest⟩, m⟩
      · exact bind_of_none h _
      · rw [bind, h]
        simp [pure_apply, Outcome.after])
    (fun a f => funext fun lexemes => by
      rw [bind_of_some (pure_apply a lexemes), Outcome.after_none])
    (fun p f g => funext fun lexemes => by
      rcases h : p lexemes with ⟨_ | ⟨a, rest⟩, m⟩
      · rw [bind_of_none (bind_of_none h f), bind_of_none h]
      rw [bind_of_some h]
      rcases hf : f a rest with ⟨_ | ⟨b, rest'⟩, n⟩
      · rw [bind_of_none ((bind_of_some h f).trans (by rw [hf]; rfl)), bind_of_none hf]
        rfl
      · rw [bind_of_some ((bind_of_some h f).trans (by rw [hf]; rfl)), bind_of_some hf, Outcome.after_after])

/-- Two alternatives that begin alike can begin once: to read the beginning again notes nothing new. -/
theorem orElse_bind (p : Matcher α) (f g : α → Matcher β) :
    (p >>= f <|> p >>= g) = p >>= fun a => f a <|> g a := by
  funext lexemes
  rcases h : p lexemes with ⟨_ | ⟨a, rest⟩, m⟩
  · rw [orElse_of_none (bind_of_none h f), bind_of_none h, bind_of_none h]
    exact congrArg _ (merge_self m)
  rw [bind_of_some h]
  rcases hf : f a rest with ⟨_ | r, n⟩
  · have hfirst : (p >>= f) lexemes = ⟨none, merge m n⟩ := by
      rw [bind_of_some h, hf]
      rfl
    rw [orElse_of_none hfirst, bind_of_some h, orElse_of_none hf, Outcome.after_after, Outcome.after_after,
      merge_merge_self]
  · rw [orElse_of_some ((bind_of_some h f).trans (by rw [hf]; rfl)), orElse_of_some hf]
    rfl

end Matcher

namespace Descent

open Matcher

/-- Arguments in parentheses before a name, after the first argument. -/
def moreArguments (inner : Matcher TypeExpr) (first : TypeExpr) : Matcher TypeExpr := do
  let rest ← separated inner .comma 2 false 1
  mark .rightParen
  let name ← ident
  return .named name (first :: rest) ∅

/-- Items in parentheses, after the first item. -/
def moreItems (inner : Matcher TypeExpr) (first : TypeExpr) : Matcher TypeExpr := do
  let rest ← separated inner .star 1 false 1
  mark .rightParen
  return tuple (first :: rest)

/-- The two forms in parentheses can be told apart after the first expression inside. -/
theorem application_orElse_tupleOrGroup (inner : Matcher TypeExpr) :
    (application inner <|> tupleOrGroup inner) =
      mark .leftParen >>= fun _ => inner >>= fun first =>
        moreArguments inner first <|> moreItems inner first := by
  simp only [application, tupleOrGroup, delimited, separatedBy, Nat.reduceEqDiff, if_false, bind_assoc,
    pure_bind]
  rw [orElse_bind]
  refine congrArg _ (funext fun _ => ?_)
  rw [orElse_bind]
  rfl

end Descent

end Monomorph.Surface
