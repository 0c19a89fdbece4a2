import Monomorph.Proofs.Expansion.NormalForm
import Monomorph.Proofs.StandardName.Origins
import Monomorph.Proofs.StandardName.Writable

/-!
# Standard names as a renaming

Giving an expansion standard names is one renaming of its definitions, of the heads in their bodies and of
the names that have origins. It keeps apart all names that occur, it moves specializations to free names and
nothing else, and no origin is lost on the way, in whatever order the origins are moved.

Two things make this so. A name in an expansion is that of a specialization, or it is declared or built in
and therefore taken. And every specialization that has an origin is among the definitions, because without
kept generics no specialization has a parameter.
-/

namespace Monomorph

namespace StandardName

variable {definitions : List TypeDef} {stem : String} {taken : List String} {f g : String → String}

/-- The names in some definitions: their own, and those of the heads in their bodies. -/
def occurring (definitions : List TypeDef) : List String :=
  definitions.map TypeDef.name ++ definitions.flatMap fun d => d.body.heads

theorem mem_synthetic {name : String} :
    name ∈ synthetic definitions ↔ name ∈ occurring definitions ∧ isSynthetic name = true := by
  rw [synthetic, List.mem_eraseDups, List.mem_filter]
  rfl

theorem mem_heads {t : TypeExpr} {name : String} :
    name ∈ t.heads ↔ ∃ args a, .named name args a ∈ t.subterms := by
  rw [TypeExpr.heads, List.mem_filterMap]
  constructor
  · rintro ⟨u, hu, heq⟩
    cases u with
    | named head args a =>
      obtain rfl := Option.some.inj heq
      exact ⟨args, a, hu⟩
    | _ => cases heq
  · rintro ⟨args, a, hmem⟩
    exact ⟨_, hmem, rfl⟩

theorem heads_renameHeads (f : String → String) (t : TypeExpr) :
    (t.renameHeads f).heads = t.heads.map f := by
  rw [TypeExpr.heads, TypeExpr.heads, TypeExpr.subterms_renameHeads, List.filterMap_map,
    List.map_filterMap]
  refine List.filterMap_congr fun u _ => ?_
  cases u <;> simp

/-- The names after a renaming are the renamed names. -/
theorem occurring_renameTypes (f : String → String) (definitions : List TypeDef) :
    occurring (definitions.map (TypeDef.renameTypes f)) = (occurring definitions).map f := by
  simp only [occurring, List.map_append, List.map_map, List.map_flatMap, List.flatMap_map]
  congr 1
  exact List.flatMap_congr fun d _ => heads_renameHeads f d.body

/-- A definition under new names depends on the new names of the names in it only. -/
theorem renameTypes_congr (h : ∀ name ∈ occurring definitions, f name = g name) {d : TypeDef}
    (hd : d ∈ definitions) : d.renameTypes f = d.renameTypes g := by
  have hname : f d.name = g d.name := h _ (List.mem_append_left _ (List.mem_map_of_mem hd))
  have hbody : d.body.renameHeads f = d.body.renameHeads g := by
    refine TypeExpr.rebuild_congr (fun _ _ => rfl) rfl fun name args a hmem => ?_
    have hocc : name ∈ occurring definitions :=
      List.mem_append_right _ (List.mem_flatMap.2 ⟨d, hd, mem_heads.2 ⟨args, a, hmem⟩⟩)
    simp only [h name hocc]
  rw [TypeDef.renameTypes, TypeDef.renameTypes, hname, hbody]

/-! ## Numbered names -/

theorem isSynthetic_numbered (stem : String) (n : Nat) :
    isSynthetic (numbered stem n) = isSynthetic stem := by
  have hdigits : ∃ c rest, Nat.toDigits 10 n = c :: rest ∧ c.isDigit = true := by
    obtain ⟨c, rest, heq⟩ := List.exists_cons_of_ne_nil (Nat.toDigits_ne_nil (b := 10) (n := n))
    exact ⟨c, rest, heq, Nat.isDigit_of_mem_toDigits (by decide) (by decide) (heq ▸ List.mem_cons_self)⟩
  obtain ⟨c, rest, hdigits, hdigit⟩ := hdigits
  have hat : c ≠ '@' := by rintro rfl; cases hdigit
  have hparen : c ≠ '(' := by rintro rfl; cases hdigit
  rw [isSynthetic, isSynthetic, numbered, String.toList_append, Nat.toString_eq_repr, Nat.toList_repr,
    hdigits]
  rcases stem.toList with _ | ⟨d, _ | ⟨e, text⟩⟩ <;> simp [List.isPrefixOf, hat.symm, hparen.symm]

/-- The name of a specialization ends in a parenthesis, a numbered name in a digit. -/
theorem numbered_ne_name (stem : String) (n : Nat) (u : Use) : numbered stem n ≠ u.name := by
  intro heq
  have hlast := congrArg (fun name : String => name.toList.getLast?) heq
  have hname : u.name.toList.getLast? = some ')' := by
    have htext : u.name = "@(" ++ TypeExpr.signature u.generic u.wanted.args u.annots ++ ")" := rfl
    rw [htext, String.toList_append, List.getLast?_append]
    rfl
  have hne : Nat.toDigits 10 n ≠ [] := Nat.toDigits_ne_nil
  simp only [hname, numbered, String.toList_append, Nat.toString_eq_repr, Nat.toList_repr,
    List.getLast?_append, List.getLast?_eq_some_getLast hne] at hlast
  have hdigit := Nat.isDigit_of_mem_toDigits (by decide) (by decide) (List.getLast_mem hne)
  simp at hlast
  rw [hlast] at hdigit
  cases hdigit

/-! ## The renaming -/

/-- A renaming of the specializations that occur, continued by a spare name for those that do not. -/
def continued (definitions : List TypeDef) (f : String → String) (spare : String) (name : String) :
    String :=
  if isSynthetic name = true ∧ name ∉ synthetic definitions then spare else f name

/-- A renaming of all specializations to free names that agrees with the assigned names where these are
needed. -/
structure Continues (definitions : List TypeDef) (stem : String) (taken : List String)
    (f : String → String) : Prop where
  plain : ∀ {name}, isSynthetic name = false → f name = name
  numbered : ∀ {name}, isSynthetic name = true → ∃ n : Nat, f name = numbered stem n
  free : ∀ {name}, isSynthetic name = true → f name ∉ taken
  occurs : ∀ {name}, name ∈ occurring definitions → f name = rename (assign definitions stem taken) name

/-- The renaming of the specializations that occur is that of a renaming of all specializations. -/
theorem exists_continues (definitions : List TypeDef) (stem : String) (taken : List String) :
    ∃ f, Continues definitions stem taken f := by
  have hassigns := assigns_rename definitions stem taken
  obtain ⟨k, -, -, hspare⟩ := @exists_free stem taken 0
  have hcases : ∀ {name}, isSynthetic name = true →
      (∃ n, continued definitions (rename (assign definitions stem taken)) (numbered stem k) name =
        numbered stem n) ∧
      continued definitions (rename (assign definitions stem taken)) (numbered stem k) name ∉ taken := by
    intro name hname
    by_cases hmem : name ∈ synthetic definitions
    · rw [continued, if_neg (by simp [hmem])]
      exact ⟨(hassigns.fresh hmem).1, (hassigns.fresh hmem).2.1⟩
    · rw [continued, if_pos ⟨hname, hmem⟩]
      exact ⟨⟨k, rfl⟩, hspare⟩
  refine ⟨continued definitions (rename (assign definitions stem taken)) (numbered stem k), fun hname => ?_,
    fun hname => (hcases hname).1, fun hname => (hcases hname).2, fun hname => ?_⟩
  · rw [continued, if_neg (by simp [hname])]
    exact hassigns.plain hname
  · exact if_neg fun hother => hother.2 (mem_synthetic.2 ⟨hname, hother.1⟩)

/-- All names that occur are kept apart, where those that are kept are taken. -/
theorem Continues.injOn (hf : Continues definitions stem taken f)
    (htaken : ∀ name ∈ occurring definitions, isSynthetic name = false → name ∈ taken) :
    Set.InjOn f {name | name ∈ occurring definitions} := by
  intro x hx y hy heq
  cases hxs : isSynthetic x <;> cases hys : isSynthetic y
  · rwa [hf.plain hxs, hf.plain hys] at heq
  · rw [hf.plain hxs] at heq
    exact absurd (heq ▸ htaken x hx hxs) (hf.free hys)
  · rw [hf.plain hys] at heq
    exact absurd (heq ▸ htaken y hy hys) (hf.free hxs)
  · rw [hf.occurs hx, hf.occurs hy] at heq
    exact (assigns_rename definitions stem taken).injective (mem_synthetic.2 ⟨hx, hxs⟩)
      (mem_synthetic.2 ⟨hy, hys⟩) heq

/-- No new name looks like that of a specialization, unless the stem does. -/
theorem Continues.isSynthetic_eq_false (hf : Continues definitions stem taken f)
    (hstem : isSynthetic stem = false) (name : String) : isSynthetic (f name) = false := by
  cases hsynthetic : isSynthetic name with
  | false => rwa [hf.plain hsynthetic]
  | true =>
    obtain ⟨n, hn⟩ := hf.numbered hsynthetic
    rw [hn, isSynthetic_numbered, hstem]

/-- Definitions are renamed alike by what is assigned and by its continuation. -/
theorem Continues.map_renameTypes (hf : Continues definitions stem taken f) :
    definitions.map (TypeDef.renameTypes (rename (assign definitions stem taken))) =
      definitions.map (TypeDef.renameTypes f) :=
  List.map_congr_left fun _ hd => (renameTypes_congr (fun _ hname => hf.occurs hname) hd).symm

/-- What it means that `f` gives the names in an expansion standard names with the given stem. -/
structure Standardizes (stem : String) (taken : List String) (expansion standard : Expansion)
    (f : String → String) : Prop where
  plain : ∀ {name}, isSynthetic name = false → f name = name
  numbered : ∀ {name}, isSynthetic name = true → ∃ n : Nat, f name = stem ++ toString n
  free : ∀ {name}, isSynthetic name = true → f name ∉ taken
  injective : Set.InjOn f {name | name ∈ occurring expansion.definitions}
  definitions : standard.definitions = expansion.definitions.map (TypeDef.renameTypes f)
  origins : standard.origins.Perm (expansion.origins.rename f)
  nodup : standard.origins.names.Nodup
  /-- The origins can be moved in any order. -/
  moves : ∀ order : List (String × String), order.Perm (assign expansion.definitions stem taken) →
    (order.foldl (fun o (old, new) => o.move old new) expansion.origins).Perm
      (expansion.origins.rename f)
  /-- No name of a specialization is left, unless the stem looks like one. -/
  short : isSynthetic stem = false → ∀ name,
    name ∈ occurring standard.definitions ∨ name ∈ standard.origins.names → isSynthetic name = false

theorem rename_eq_of_perm {order assigned : List (String × String)} (h : order.Perm assigned)
    (hnodup : (assigned.map Prod.fst).Nodup) : rename order = rename assigned := by
  funext name
  rw [rename, rename, Association.lookup_eq_of_perm ((h.map Prod.fst).nodup_iff.2 hnodup) h]

theorem map_snd_assign (definitions : List TypeDef) (stem : String) (taken : List String) :
    (assign definitions stem taken).map Prod.snd =
      (numbers definitions stem taken).map (numbered stem) := by
  refine List.map_snd_zip (Nat.le_of_eq ?_)
  rw [List.length_map, length_freeNumbers]

section Standardizes

variable {expansion : Expansion}

/-- Standard names are neither names of specializations nor standard names twice. -/
theorem assign_apart (hnames : ∀ name ∈ synthetic definitions, ∃ u : Use, u.name = name)
    {order : List (String × String)} (horder : order.Perm (assign definitions stem taken)) :
    (order.map Prod.fst).Nodup ∧ (order.map Prod.snd).Nodup ∧
      ∀ name ∈ order.map Prod.snd, name ∉ synthetic definitions := by
  have hfst := horder.map Prod.fst
  have hsnd := horder.map Prod.snd
  rw [map_fst_assign] at hfst
  rw [map_snd_assign] at hsnd
  refine ⟨hfst.nodup_iff.2 (nodup_synthetic _), hsnd.nodup_iff.2 ?_, fun name hname hmem => ?_⟩
  · exact (nodup_freeNumbers _ _).map fun _ _ => numbered_injective
  · obtain ⟨n, -, rfl⟩ := List.mem_map.1 (hsnd.mem_iff.1 hname)
    obtain ⟨u, hu⟩ := hnames _ hmem
    exact numbered_ne_name stem n u hu.symm

/-- The moves rename all origins, in whatever order they are made. -/
theorem Continues.perm_moves {origins : Origins} (hf : Continues definitions stem taken f)
    (hnames : ∀ name ∈ synthetic definitions, ∃ u : Use, u.name = name)
    (horigins : ∀ name ∈ origins.names, name ∈ synthetic definitions) (hnodup : origins.names.Nodup)
    {order : List (String × String)} (horder : order.Perm (assign definitions stem taken)) :
    (order.foldl (fun o (old, new) => o.move old new) origins).Perm (origins.rename f) := by
  obtain ⟨holds, hnews, hapart⟩ := assign_apart hnames horder
  have hrename : origins.rename f = origins.rename (rename order) := by
    refine List.map_congr_left fun entry hentry => Prod.ext ?_ rfl
    have hmem := horigins entry.1 (List.mem_map_of_mem hentry)
    rw [rename_eq_of_perm horder (map_fst_assign .. ▸ nodup_synthetic _)]
    exact hf.occurs (mem_synthetic.1 hmem).1
  rw [hrename]
  refine Origins.perm_foldl_move holds hnews (fun name hname => ⟨fun hold => ?_, fun hmem => ?_⟩) hnodup
  · refine hapart name hname ?_
    rw [← map_fst_assign definitions stem taken]
    exact (horder.map Prod.fst).mem_iff.1 hold
  · exact hapart name hname (horigins name hmem)

/-- Where the names of specializations are what they are in an expansion and all other names are taken,
the standard names come from one renaming. -/
theorem exists_standardizes (hnames : ∀ name ∈ synthetic expansion.definitions, ∃ u : Use, u.name = name)
    (htaken : ∀ name ∈ occurring expansion.definitions, isSynthetic name = false → name ∈ taken)
    (horigins : ∀ name ∈ expansion.origins.names, name ∈ synthetic expansion.definitions)
    (hnodup : expansion.origins.names.Nodup) :
    ∃ f, Standardizes stem taken expansion
      (standardize expansion.definitions expansion.origins stem taken) f := by
  obtain ⟨f, hf⟩ := exists_continues expansion.definitions stem taken
  have hinjective := hf.injOn htaken
  have hmoves : ∀ order : List (String × String), order.Perm (assign expansion.definitions stem taken) →
      (order.foldl (fun o (old, new) => o.move old new) expansion.origins).Perm
        (expansion.origins.rename f) :=
    fun _ horder => hf.perm_moves hnames horigins hnodup horder
  have hafter := hmoves _ (List.Perm.refl _)
  have hkeys : (standardize expansion.definitions expansion.origins stem taken).origins.names.Perm
      (expansion.origins.names.map f) := by
    rw [← Origins.names_rename]
    exact hafter.map Prod.fst
  have hdistinct : (expansion.origins.names.map f).Nodup := hnodup.map_on fun x hx y hy heq =>
    hinjective (mem_synthetic.1 (horigins x hx)).1 (mem_synthetic.1 (horigins y hy)).1 heq
  refine ⟨f, hf.plain, hf.numbered, hf.free, hinjective, hf.map_renameTypes, hafter,
    hkeys.nodup_iff.2 hdistinct, hmoves, fun hstem name hname => ?_⟩
  have hold : ∃ old, f old = name := by
    obtain hname | hname := hname
    · rw [standardize, hf.map_renameTypes, occurring_renameTypes] at hname
      obtain ⟨old, -, rfl⟩ := List.mem_map.1 hname
      exact ⟨old, rfl⟩
    · obtain ⟨old, -, rfl⟩ := List.mem_map.1 (hkeys.mem_iff.1 hname)
      exact ⟨old, rfl⟩
  obtain ⟨old, rfl⟩ := hold
  exact hf.isSynthetic_eq_false hstem old

end Standardizes

end StandardName

/-! ## Accepted definitions -/

/-- Closed expressions in the place of all variables leave a closed expression. -/
theorem TypeExpr.varNames_substituteBy_eq_nil {env : Environment} {t : TypeExpr}
    (h : ∀ name ∈ t.varNames, ∃ v, env name = some v ∧ v.varNames = []) :
    (t.substituteBy Use.reference env).varNames = [] := by
  apply List.eq_nil_iff_forall_not_mem.2
  apply forall_varNames_substituteBy
  intro name hname a x hx
  obtain ⟨v, hbind, hclosed⟩ := h name hname
  rw [Environment.occurrence_of_eq_some hbind, varNames_annotate, hclosed] at hx
  cases hx

/-- Where the uses at hand are closed, all demanded uses are. -/
theorem Demanded.closed {library : Library} {roots : List Use} (hsound : library.Sound)
    (hroots : library.Roots roots) (hclosed : ∀ u ∈ roots, ∀ arg ∈ u.args, arg.varNames = []) {u : Use}
    (h : Demanded library roots u) : ∀ arg ∈ u.args, arg.varNames = [] := by
  induction h with
  | root hroot => exact hclosed _ hroot
  | @nested u v d hdemanded hdeclared hnested ih =>
    obtain ⟨e, he, harity⟩ := hdemanded.declared hsound hroots
    obtain rfl := Option.some.inj (hdeclared.symm.trans he)
    have hwanted : ∀ arg ∈ u.wanted.args, arg.varNames = [] :=
      Use.forall_wanted (fun ht => by rw [TypeExpr.varNames_renameVars, ht, List.map_nil]) ih
    intro arg harg
    obtain ⟨part, hpart, rfl⟩ := TypeExpr.exists_part_of_mem_uses (Use.mem_uses_of_nested hnested) harg
    refine TypeExpr.varNames_substituteBy_eq_nil fun name hname => ?_
    obtain ⟨t, ht, hbind⟩ := Use.environment_isSome harity
      (hsound.bound hdeclared (TypeExpr.varNames_subset hpart hname))
    exact ⟨t, hbind, hwanted t ht⟩

namespace Accepted

variable {definitions : List TypeDef} {keepPoly : Bool} {added : List Use}

/-- Without kept generics, no specialization has a parameter. -/
theorem width_eq_zero (h : Accepted definitions)
    (hvisits : Visits h.library [] (TypeDef.roots false definitions) added) {u : Use} (hu : u ∈ added) :
    u.width = 0 := by
  have hclosed : ∀ v ∈ TypeDef.roots false definitions, ∀ arg ∈ v.args, arg.varNames = [] := by
    intro v hv arg harg
    obtain ⟨d, hd, hmem⟩ := List.mem_flatMap.1 hv
    split at hmem
    · next hkept =>
      have hparams : d.params = [] := by simpa [TypeDef.isKept] using hkept
      have hbody : d.body.varNames = [] := List.subset_nil.1 (hparams ▸ h.wellFormed.bound d hd)
      rw [TypeDef.uses, TypeExpr.normalize_eq_self (h.writable d hd).normal] at hmem
      obtain ⟨part, hpart, rfl⟩ := TypeExpr.exists_part_of_mem_uses hmem harg
      refine TypeExpr.varNames_substituteBy_eq_nil fun name hname => ?_
      have hnone := TypeExpr.varNames_subset hpart hname
      rw [hbody] at hnone
      cases hnone
    · cases hmem
  have hargs := (hvisits.demanded u hu).closed h.sound (h.roots false) hclosed
  have hnone : Instance.occurrences u.args = [] := List.flatMap_eq_nil_iff.2 hargs
  rw [Use.width, hnone]
  rfl

/-- A name in an expansion is that of a specialization, or declared, or built in. -/
theorem occurring_cases (h : Accepted definitions)
    (hvisits : Visits h.library [] (TypeDef.roots keepPoly definitions) added) {name : String}
    (hname : name ∈ StandardName.occurring (h.library.outcome keepPoly definitions added).definitions) :
    (∃ u : Use, u.name = name) ∨ isSynthetic name = false ∧
      (name ∈ definitions.map TypeDef.name ∨ name ∈ Catalogue.standard.map Builtin.name) := by
  obtain hname | hname := List.mem_append.1 hname
  · obtain ⟨out, hout, rfl⟩ := List.mem_map.1 hname
    obtain ⟨d, hd, -, rfl⟩ | ⟨u, -, -, d, -, rfl⟩ := Library.mem_outcome.1 hout
    · have hplain : isSynthetic d.name = false := h.plain hd
      have hmem : d.name ∈ definitions.map TypeDef.name := List.mem_map_of_mem hd
      exact Or.inr ⟨hplain, Or.inl hmem⟩
    · exact Or.inl ⟨u, rfl⟩
  · obtain ⟨out, hout, hhead⟩ := List.mem_flatMap.1 hname
    obtain ⟨args, a, hmem⟩ := StandardName.mem_heads.1 hhead
    obtain hsynthetic | ⟨hplain, hknown⟩ := (h.tidy_outcome hvisits hout _ hmem).head rfl
    · obtain ⟨u, -, hu, -⟩ := (h.proper_outcome hvisits hout _ hmem).reference rfl hsynthetic
      exact Or.inl ⟨u, hu⟩
    · refine Or.inr ⟨isSynthetic_of_isIdentifier hplain.1, ?_⟩
      obtain ⟨d, hd, rfl, -⟩ | ⟨b, hb, rfl, -⟩ := hknown
      · exact Or.inl (List.mem_map_of_mem hd)
      · exact Or.inr (List.mem_map_of_mem hb)

/-- The names with origins are those of the specializations that are begun. -/
theorem names_origins (h : Accepted definitions) :
    (h.library.outcome keepPoly definitions added).origins.names = Use.names added := by
  rw [Origins.names, Library.outcome, List.map_map]
  rfl

/-- A specialization with an origin is among the definitions. -/
theorem mem_synthetic_of_origin (h : Accepted definitions)
    (hvisits : Visits h.library [] (TypeDef.roots keepPoly definitions) added) {name : String}
    (hname : name ∈ (h.library.outcome keepPoly definitions added).origins.names) :
    name ∈ StandardName.synthetic (h.library.outcome keepPoly definitions added).definitions := by
  rw [h.names_origins] at hname
  obtain ⟨u, hu, rfl⟩ := List.mem_map.1 hname
  obtain ⟨d, hd, -⟩ := (hvisits.demanded u hu).declared h.sound (h.roots keepPoly)
  have hkept : u.width = 0 ∨ keepPoly = true := by
    cases keepPoly with
    | false => exact Or.inl (h.width_eq_zero hvisits hu)
    | true => exact Or.inr rfl
  have hmem : u.specialization d ∈ (h.library.outcome keepPoly definitions added).definitions :=
    Library.mem_outcome.2 (Or.inr ⟨u, hu, hkept, d, hd, rfl⟩)
  exact StandardName.mem_synthetic_of_name hmem u.isSynthetic_name

/-- The names in an expansion are given standard names by one renaming. -/
theorem exists_standardizes (h : Accepted definitions)
    (hvisits : Visits h.library [] (TypeDef.roots keepPoly definitions) added) (stem : String)
    {taken : List String} (hbuiltin : Catalogue.standard.map Builtin.name ⊆ taken)
    (hdeclared : definitions.map TypeDef.name ⊆ taken) :
    ∃ f, StandardName.Standardizes stem taken (h.library.outcome keepPoly definitions added)
      (standardize (h.library.outcome keepPoly definitions added).definitions
        (h.library.outcome keepPoly definitions added).origins stem taken) f := by
  apply StandardName.exists_standardizes
  · intro name hname
    obtain ⟨hoccurs, hsynthetic⟩ := StandardName.mem_synthetic.1 hname
    obtain hu | ⟨hplain, -⟩ := h.occurring_cases hvisits hoccurs
    · exact hu
    · rw [hplain] at hsynthetic
      cases hsynthetic
  · intro name hname hplain
    obtain ⟨u, rfl⟩ | ⟨-, hmem | hmem⟩ := h.occurring_cases hvisits hname
    · rw [u.isSynthetic_name] at hplain
      cases hplain
    · exact hdeclared hmem
    · exact hbuiltin hmem
  · exact fun name hname => h.mem_synthetic_of_origin hvisits hname
  · rw [h.names_origins]
    exact h.nodup_names_added hvisits

end Accepted

namespace Source

/-- The expansion of a file that is read and checked without errors is given standard names by one renaming,
whatever the stem, where at least the built-in and the declared names are taken. -/
theorem standardize_expand {source : String} {items : List Item}
    (hclean : (parse source).clean? = some items)
    (hcheck : hasErrors (check Catalogue.standard items) = false) {depth : Nat} {keepPoly : Bool}
    {expansion : Expansion}
    (hexpand : (expand depth Catalogue.standard (items.map Item.definition) keepPoly).1 = .ok expansion)
    (stem : String) {taken : List String} (hbuiltin : Catalogue.standard.map Builtin.name ⊆ taken)
    (hdeclared : (items.map Item.definition).map TypeDef.name ⊆ taken) :
    ∃ f, StandardName.Standardizes stem taken expansion
      (standardize expansion.definitions expansion.origins stem taken) f := by
  have h := Accepted.of_source hclean hcheck
  obtain ⟨added, hvisits, hbound⟩ | ⟨-, -, -, hbound⟩ := h.expand_cases keepPoly depth
  · obtain rfl := Except.ok.inj (hexpand.symm.trans hbound)
    exact h.exists_standardizes hvisits stem hbuiltin hdeclared
  · rw [hexpand] at hbound
    cases hbound

/-- The names that are taken in `forest`, and two more. -/
def forestTaken : List String :=
  Catalogue.standard.map Builtin.name ++ ["tree", "forest", "names", "@(string tree1", "@(string tree3"]

/-- The stem is the beginning of the name of a specialization, and two of its numbers are taken. -/
theorem standardize_expand_forest :
    (parse forest).clean? = some forestItems ∧
    hasErrors (check Catalogue.standard forestItems) = false ∧
    (expand 3 Catalogue.standard (forestItems.map Item.definition) false).1 = .ok forestExpansion ∧
    Catalogue.standard.map Builtin.name ⊆ forestTaken ∧
    (forestItems.map Item.definition).map TypeDef.name ⊆ forestTaken ∧
    (standardize forestExpansion.definitions forestExpansion.origins "@(string tree" forestTaken).origins =
      [("@(string tree2", ⟨"tree", 1⟩), ("@(string tree4", ⟨"forest", 1⟩),
        ("@(string tree5", ⟨"list", 1⟩)] ∧
    ∃ f, StandardName.Standardizes "@(string tree" forestTaken forestExpansion
      (standardize forestExpansion.definitions forestExpansion.origins "@(string tree" forestTaken) f := by
  have hexpand : (expand 3 Catalogue.standard (forestItems.map Item.definition) false).1 =
    .ok forestExpansion := by decide +kernel
  have hbuiltin : Catalogue.standard.map Builtin.name ⊆ forestTaken := by decide
  have hdeclared : (forestItems.map Item.definition).map TypeDef.name ⊆ forestTaken := by decide
  exact ⟨clean?_forest, hasErrors_forest, hexpand, hbuiltin, hdeclared, by decide +kernel,
    standardize_expand clean?_forest hasErrors_forest hexpand _ hbuiltin hdeclared⟩

end Source

end Monomorph
