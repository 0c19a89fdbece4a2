import Mathlib.Logic.Function.Basic
import Monomorph.Proofs.StandardName.Numbering

/-!
# Origins under new names

To move an origin takes its entry out and puts it back under another name, over any entry that is there.
Where the new names are neither names that have an origin nor names that are still to be moved, nothing is
put over anything: in whatever order the moves are made, each origin is there in the end under its new name
and nothing else is.

Standard names are of this kind, because they end in a digit and the names of specializations do not.
-/

namespace Monomorph

namespace Origins

/-- The names that have an origin. -/
def names (origins : Origins) : List String := origins.map Prod.fst

/-- The origins under new names. -/
def rename (f : String → String) (origins : Origins) : Origins :=
  origins.map fun (name, origin) => (f name, origin)

variable {origins : Origins} {old new : String}

@[simp] theorem names_rename (f : String → String) : (origins.rename f).names = origins.names.map f := by
  rw [names, rename, names, List.map_map, List.map_map]
  rfl

theorem rename_rename (f g : String → String) : (origins.rename f).rename g = origins.rename (g ∘ f) := by
  rw [rename, rename, List.map_map]
  rfl

theorem rename_eq_self {f : String → String} (h : ∀ name ∈ origins.names, f name = name) :
    origins.rename f = origins := by
  refine (List.map_congr_left fun entry hentry => ?_).trans (List.map_id origins)
  exact Prod.ext (h entry.1 (List.mem_map_of_mem hentry)) rfl

theorem rename_append (f : String → String) (others : Origins) :
    rename f (origins ++ others) = origins.rename f ++ others.rename f :=
  List.map_append

theorem filter_eq_self (h : old ∉ origins.names) : origins.filter (·.1 != old) = origins := by
  refine List.filter_eq_self.2 fun entry hentry => bne_iff_ne.2 ?_
  rintro rfl
  exact h (List.mem_map_of_mem hentry)

/-- A new name for one of some names keeps them apart, if it is none of them. -/
theorem injOn_update {names : List String} (hnew : new ∉ names) :
    Set.InjOn (Function.update id old new) {name | name ∈ names} := by
  intro x hx y hy heq
  by_cases hxold : x = old
  · by_cases hyold : y = old
    · rw [hxold, hyold]
    · rw [hxold, Function.update_self, Function.update_of_ne hyold] at heq
      exact absurd (heq ▸ hy) hnew
  · by_cases hyold : y = old
    · rw [hyold, Function.update_self, Function.update_of_ne hxold] at heq
      exact absurd (heq ▸ hx) hnew
    · rwa [Function.update_of_ne hxold, Function.update_of_ne hyold] at heq

/-- One move renames one entry and keeps all others. -/
theorem perm_move (hnodup : origins.names.Nodup) (hnew : new ∉ origins.names) :
    (origins.move old new).Perm (origins.rename (Function.update id old new)) := by
  have hkeep : ∀ {others : Origins}, old ∉ others.names →
      others.rename (Function.update id old new) = others := by
    intro others hold
    refine rename_eq_self fun name hname => Function.update_of_ne ?_ new id
    rintro rfl
    exact hold hname
  unfold move
  split
  · next origin hlookup =>
    obtain ⟨before, after, rfl, -⟩ := List.lookup_eq_some_iff.1 hlookup
    have hnames : names (before ++ (old, origin) :: after) = names before ++ old :: names after :=
      List.map_append
    rw [hnames] at hnodup hnew
    have hold := (List.nodup_cons.1 (List.nodup_middle.1 hnodup)).1
    rw [List.mem_append, not_or] at hold
    have hothers : names (before ++ after) = names before ++ names after := List.map_append
    have hout : List.filter (·.1 != old) (before ++ (old, origin) :: after) = before ++ after := by
      rw [List.filter_append, List.filter_cons_of_neg (by simp), filter_eq_self hold.1,
        filter_eq_self hold.2]
    have hput : new ∉ names (before ++ after) := by
      rw [hothers]
      exact fun hmem => hnew (((List.sublist_cons_self old _).append_left _).subset hmem)
    have hmoved : rename (Function.update id old new) (before ++ (old, origin) :: after) =
        before ++ (new, origin) :: after := by
      rw [rename_append, hkeep hold.1]
      congr 1
      rw [← List.singleton_append, rename_append, hkeep hold.2]
      simp [rename]
    rw [hout, hmoved, put, filter_eq_self hput]
    exact (List.perm_append_singleton _ _).trans List.perm_middle.symm
  · next hlookup =>
    have hold : old ∉ origins.names := by
      intro hmem
      obtain ⟨entry, hentry, rfl⟩ := List.mem_map.1 hmem
      simpa using List.lookup_eq_none_iff.1 hlookup entry hentry
    rw [hkeep hold]

/-- A renaming that puts one pair before others: the others see the new name. -/
theorem rename_cons {rest : List (String × String)} (hnew : new ∉ rest.map Prod.fst) :
    StandardName.rename ((old, new) :: rest) =
      StandardName.rename rest ∘ Function.update id old new := by
  funext name
  by_cases h : name = old
  · subst h
    have hnone : rest.lookup new = none := by
      refine List.lookup_eq_none_iff.2 fun pair hpair => bne_iff_ne.2 ?_
      rintro rfl
      exact hnew (List.mem_map_of_mem hpair)
    simp [StandardName.rename, hnone]
  · simp [StandardName.rename, List.lookup_cons, beq_eq_false_iff_ne.2 h, h]

/-- Moves to new names, none of which is a name that has an origin or is moved, can be made in any order:
they rename every entry. -/
theorem perm_foldl_move {order : List (String × String)} (holds : (order.map Prod.fst).Nodup)
    (hnews : (order.map Prod.snd).Nodup)
    (hapart : ∀ name ∈ order.map Prod.snd, name ∉ order.map Prod.fst ∧ name ∉ origins.names)
    (hnodup : origins.names.Nodup) :
    (order.foldl (fun o (old, new) => o.move old new) origins).Perm
      (origins.rename (StandardName.rename order)) := by
  induction order generalizing origins with
  | nil =>
    have hself : origins.rename (StandardName.rename []) = origins := rename_eq_self fun _ _ => rfl
    rw [hself]
    exact List.Perm.refl origins
  | cons pair rest ih =>
    obtain ⟨old, new⟩ := pair
    obtain ⟨hold, holds⟩ := List.nodup_cons.1 holds
    obtain ⟨hnew, hnews⟩ := List.nodup_cons.1 hnews
    obtain ⟨⟨hother, hfresh⟩, hapart⟩ := List.forall_mem_cons.1 hapart
    have hmove : (origins.move old new).Perm (origins.rename (Function.update id old new)) :=
      perm_move hnodup hfresh
    have hnames : (origins.move old new).names.Perm (origins.names.map (Function.update id old new)) := by
      rw [← names_rename]
      exact hmove.map Prod.fst
    have hrest : ∀ name ∈ rest.map Prod.snd,
        name ∉ rest.map Prod.fst ∧ name ∉ (origins.move old new).names := by
      intro name hname
      obtain ⟨hrest, hnone⟩ := hapart name hname
      refine ⟨List.not_mem_of_not_mem_cons hrest, fun hmem => ?_⟩
      obtain ⟨x, hx, rfl⟩ := List.mem_map.1 (hnames.mem_iff.1 hmem)
      by_cases hxold : x = old
      · rw [hxold, Function.update_self] at hname
        exact hnew hname
      · rw [Function.update_of_ne hxold] at hnone
        exact hnone hx
    have hmoves := ih holds hnews hrest (hnames.nodup_iff.2 (hnodup.map_on (injOn_update hfresh)))
    rw [rename_cons (List.not_mem_of_not_mem_cons hother), ← rename_rename]
    exact hmoves.trans (hmove.map _)

end Origins

end Monomorph
