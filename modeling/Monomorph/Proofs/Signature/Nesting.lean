import Mathlib.Data.List.Infix
import Monomorph.Proofs.Printing.Words
import Monomorph.Proofs.TypeExpr.Variables

/-!
# Names inside signatures

What is written for a part stands in what is written for the whole. So a name that occurs in the
arguments of an instance is shorter than the name of the instance, and to replace names by what they
stand for comes to an end.
-/

namespace Monomorph

namespace Nesting

theorem infix_flatMap {α : Type} {parts : List α} {text : α → List Char} {part : α} (h : part ∈ parts) :
    text part <:+: parts.flatMap text := by
  obtain ⟨before, after, rfl⟩ := List.append_of_mem h
  refine ⟨before.flatMap text, after.flatMap text, ?_⟩
  rw [List.flatMap_append, List.flatMap_cons, List.append_assoc]

theorem infix_intercalate {separator : List Char} {parts : List (List Char)} {part : List Char}
    (h : part ∈ parts) : part <:+: separator.intercalate parts := by
  cases parts with
  | nil => cases h
  | cons first rest =>
    rw [Surface.intercalate_cons]
    obtain rfl | h := List.mem_cons.1 h
    · exact (List.prefix_append _ _).isInfix
    · have hpart : separator ++ part <:+: rest.flatMap fun part => separator ++ part :=
        @infix_flatMap _ rest (fun part => separator ++ part) part h
      exact ((List.suffix_append separator part).isInfix.trans hpart).trans
        (List.suffix_append _ _).isInfix

theorem infix_renderBlock {left right separator : String} {parts : List String} {part : String}
    (h : part ∈ parts) :
    part.toList <:+: (TypeExpr.renderBlock left right separator parts).toList := by
  cases parts with
  | nil => cases h
  | cons first rest =>
    have hpart : part.toList <:+: separator.toList.intercalate ((first :: rest).map String.toList) :=
      infix_intercalate (List.mem_map_of_mem h)
    refine hpart.trans ⟨left.toList ++ [' '], ' ' :: right.toList, ?_⟩
    simp [TypeExpr.renderBlock, String.toList_intercalate]

theorem infix_renderApplication {name : String} {parts : List String} {part : String}
    (h : part ∈ parts) : part.toList <:+: (TypeExpr.renderApplication name parts).toList := by
  match parts with
  | [] => cases h
  | [only] =>
    obtain rfl := List.mem_singleton.1 h
    exact ⟨[], ' ' :: name.toList, by simp [TypeExpr.renderApplication]⟩
  | first :: second :: rest =>
    have hpart : part.toList <:+:
        ", ".toList.intercalate ((first :: second :: rest).map String.toList) :=
      infix_intercalate (List.mem_map_of_mem h)
    refine hpart.trans ⟨['('], ')' :: ' ' :: name.toList, ?_⟩
    simp [TypeExpr.renderApplication, String.toList_intercalate]

theorem name_infix_renderApplication (name : String) (parts : List String) :
    name.toList <:+: (TypeExpr.renderApplication name parts).toList := by
  match parts with
  | [] => exact List.infix_rfl
  | [only] => exact ⟨only.toList ++ [' '], [], by simp [TypeExpr.renderApplication]⟩
  | first :: second :: rest =>
    refine ⟨'(' :: (", ".toList.intercalate ((first :: second :: rest).map String.toList) ++ [')', ' ']),
      [], ?_⟩
    simp [TypeExpr.renderApplication, String.toList_intercalate]

end Nesting

namespace TypeExpr

open Nesting

theorem infix_of_mem_children {t c : TypeExpr} (h : c ∈ t.children) :
    c.render.toList <:+: t.render.toList := by
  have hannots : ∀ (text : String) (a : Annots), text.toList <:+: (text ++ a.render).toList := by
    intro text a
    rw [String.toList_append]
    exact (List.prefix_append _ _).isInfix
  cases t with
  | sum variants a =>
    obtain ⟨v, hv, hpayload⟩ := List.mem_filterMap.1 h
    rw [render, renderVariants_eq_map]
    refine List.IsInfix.trans ?_ ((infix_renderBlock (List.mem_map_of_mem hv)).trans (hannots _ a))
    rw [renderVariant, hpayload, String.toList_append]
    exact (List.suffix_append _ _).isInfix
  | record fields a =>
    obtain ⟨line, hline, rfl⟩ := List.mem_map.1 h
    rw [render, renderFields_eq_map]
    refine List.IsInfix.trans ?_ ((infix_renderBlock (List.mem_map_of_mem hline)).trans (hannots _ a))
    cases line <;>
    · rw [renderField, String.toList_append]
      exact (List.suffix_append _ _).isInfix
  | tuple items a =>
    have hitem : c.render.toList <:+: " * ".toList.intercalate ((items.map render).map String.toList) :=
      infix_intercalate (List.mem_map_of_mem (List.mem_map_of_mem h))
    refine hitem.trans ⟨['('], ')' :: a.render.toList, ?_⟩
    simp [render, renderAll_eq_map, String.toList_intercalate]
  | container kind element a =>
    rw [List.mem_singleton.1 h, render]
    exact (infix_renderApplication List.mem_cons_self).trans (hannots _ a)
  | var name a => cases h
  | named name args a =>
    rw [render, renderAll_eq_map]
    exact (infix_renderApplication (List.mem_map_of_mem h)).trans (hannots _ a)

theorem infix_of_mem_subterms {t u : TypeExpr} (h : u ∈ t.subterms) :
    u.render.toList <:+: t.render.toList := by
  induction t using children_induct with
  | node t ih =>
    rw [subterms_eq, List.mem_cons, List.mem_flatMap] at h
    obtain rfl | ⟨c, hc, hu⟩ := h
    · exact List.infix_rfl
    · exact (ih c hc hu).trans (infix_of_mem_children hc)

/-- A name that occurs in an expression is not longer than what is written for the expression. -/
theorem length_le_of_mem_subterms {t : TypeExpr} {name : String} {parts : List TypeExpr} {a : Annots}
    (h : named name parts a ∈ t.subterms) : name.length ≤ t.render.length := by
  have hname : name.toList <:+: (named name parts a).render.toList := by
    rw [render, String.toList_append]
    exact (name_infix_renderApplication name _).trans (List.prefix_append _ _).isInfix
  have hlength := (hname.trans (infix_of_mem_subterms h)).length_le
  rwa [String.length_toList, String.length_toList] at hlength

/-- A name that occurs in the arguments of an instance is shorter than the name of the instance. -/
theorem length_lt_of_mem_args {generic : String} {args : List TypeExpr} {a : Annots} {t : TypeExpr}
    (ht : t ∈ args) {name : String} {parts : List TypeExpr} {b : Annots}
    (h : named name parts b ∈ t.subterms) :
    name.length < ("@(" ++ signature generic args a ++ ")").length := by
  have harg : t.render.toList <:+: (signature generic args a).toList := by
    rw [signature, String.toList_append]
    exact (infix_renderApplication (List.mem_map_of_mem ht)).trans (List.prefix_append _ _).isInfix
  have hlength := harg.length_le
  have hname := length_le_of_mem_subterms h
  rw [String.length_toList, String.length_toList] at hlength
  rw [String.length_append, String.length_append]
  have hopen : "@(".length = 2 := rfl
  omega

/-- Induction from the parts, and from the arguments of an instance to every application of its name. -/
theorem signature_induct {motive : TypeExpr → Prop}
    (node : ∀ t, (∀ c ∈ t.children, motive c) →
      (∀ generic inner annots args a, t = named ("@(" ++ signature generic inner annots ++ ")") args a →
        ∀ arg ∈ inner, motive arg) → motive t) (t : TypeExpr) : motive t := by
  -- The names in the arguments of an instance are shorter than its name, which counts first.
  have main : ∀ n, ∀ t : TypeExpr,
      (∀ name args a, named name args a ∈ t.subterms → name.length < n) → motive t := by
    intro n
    induction n using Nat.strongRecOn with
    | ind n ihLength =>
      intro t
      induction t using children_induct with
      | node t ih =>
        intro hlength
        refine node t (fun c hc => ?_) ?_
        · exact ih c hc fun name args a hmem => hlength name args a (subterms_child hc hmem)
        · rintro generic inner annots args a rfl arg harg
          refine ihLength _ (hlength _ _ _ (self_mem_subterms _)) arg fun name parts b hmem => ?_
          exact length_lt_of_mem_args harg hmem
  apply main (t.render.length + 1) t
  intro name args a hmem
  exact Nat.lt_succ_of_le (length_le_of_mem_subterms hmem)

end TypeExpr

end Monomorph
