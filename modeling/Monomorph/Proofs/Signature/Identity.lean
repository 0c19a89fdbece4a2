import Mathlib.Data.Set.Function
import Monomorph.Instance
import Monomorph.Proofs.Signature.Readback
import Std.Data.String.ToNat

/-!
# The identity of instances

The name of an instance is a text, and equal texts must mean equal instances. A written application
determines what is applied to what, by `TypeExpr.signature_inj`; the names of its variables are
determined up to a renaming, because the canonical names only depend on the order of first
occurrence.

`Instance.name_of_eq_iff` puts the two together.
-/

namespace Monomorph

/-! ## Canonical variables -/

/-- The letters of canonical variables are different and can each start a variable. -/
theorem letter_facts : ∀ i < 26, (Char.ofNat ('a'.toNat + i)).toNat = 'a'.toNat + i ∧
    Lexer.isVarStart (Char.ofNat ('a'.toNat + i)) = true := by
  decide

theorem toList_canonicalVar (n : Nat) : (canonicalVar n).toList =
    Char.ofNat ('a'.toNat + n % 26) :: if n / 26 = 0 then [] else Nat.toDigits 10 (n / 26) := by
  unfold canonicalVar
  split
  · simp
  · simp

theorem canonicalVar_injective {m n : Nat} (h : canonicalVar m = canonicalVar n) : m = n := by
  have htext := congrArg String.toList h
  rw [toList_canonicalVar, toList_canonicalVar] at htext
  obtain ⟨hletter, hdigits⟩ := List.cons.inj htext
  have hmod : m % 26 = n % 26 := by
    have hnat := congrArg Char.toNat hletter
    rw [(letter_facts _ (Nat.mod_lt m (by decide))).1,
      (letter_facts _ (Nat.mod_lt n (by decide))).1] at hnat
    exact Nat.add_left_cancel hnat
  have hdiv : m / 26 = n / 26 := by
    by_cases hm : m / 26 = 0 <;> by_cases hn : n / 26 = 0
    · rw [hm, hn]
    · rw [if_pos hm, if_neg hn] at hdigits
      exact absurd hdigits.symm Nat.toDigits_ne_nil
    · rw [if_neg hm, if_pos hn] at hdigits
      exact absurd hdigits Nat.toDigits_ne_nil
    · rw [if_neg hm, if_neg hn, ← Nat.toList_repr, ← Nat.toList_repr] at hdigits
      exact Nat.repr_injective (String.toList_inj.1 hdigits)
  omega

theorem isVariable_canonicalVar (n : Nat) : IsVariable (canonicalVar n) := by
  rw [IsVariable, toList_canonicalVar]
  refine Bool.and_eq_true_iff.2 ⟨(letter_facts _ (Nat.mod_lt n (by decide))).2, ?_⟩
  split
  · rfl
  · apply List.all_eq_true.2
    intro c hc
    have hdigit := Nat.isDigit_of_mem_toDigits (by decide) (by decide) hc
    simp [Lexer.isWordPart, Char.isAlphanum, hdigit]

/-- Identifiers are not names of specializations. -/
theorem isSynthetic_of_isIdentifier {name : String} (h : IsIdentifier name) : isSynthetic name = false := by
  obtain ⟨c, text, htext, hc, -⟩ := h.exists_cons
  have hne : c ≠ '@' := by
    rintro rfl
    exact absurd hc (by decide)
  rw [isSynthetic, htext, List.isPrefixOf, beq_eq_false_iff_ne.2 hne.symm, Bool.false_and]

namespace Instance

/-- The variables of some expressions, in the order of reading. -/
def occurrences (args : List TypeExpr) : List String := args.flatMap TypeExpr.varNames

/-- The canonical name of a variable of some arguments. -/
def canonical (args : List TypeExpr) (name : String) : String :=
  canonicalVar ((occurrences args).eraseDups.idxOf name)

theorem args_of (generic : String) (args : List TypeExpr) (a : Annots) :
    (of generic args a).args = args.map (TypeExpr.renameVars (canonical args)) := rfl

theorem name_of (generic : String) (args : List TypeExpr) (a : Annots) :
    (of generic args a).name = "@(" ++ TypeExpr.signature generic (of generic args a).args a ++ ")" :=
  rfl

/-- No two variables of the arguments have the same canonical name. -/
theorem canonical_injective {args : List TypeExpr} {v w : String} (hv : v ∈ occurrences args)
    (h : canonical args v = canonical args w) : v = w :=
  (List.idxOf_inj (List.mem_eraseDups.2 hv)).1 (canonicalVar_injective h)

theorem isVariable_canonical (args : List TypeExpr) (name : String) :
    IsVariable (canonical args name) := isVariable_canonicalVar _

/-- The variables of renamed arguments in normal form are the renamed variables. -/
theorem occurrences_renameVars (f : String → String) (args : List TypeExpr) :
    occurrences (args.map fun t => t.normalize.renameVars f) = (occurrences args).map f := by
  rw [occurrences, occurrences, List.flatMap_map, List.map_flatMap]
  exact List.flatMap_congr fun t _ => by
    rw [TypeExpr.varNames_renameVars, TypeExpr.varNames_normalize]

theorem mem_occurrences {args : List TypeExpr} {t : TypeExpr} (ht : t ∈ args) {name : String}
    (hname : name ∈ t.varNames) : name ∈ occurrences args := List.mem_flatMap.2 ⟨t, ht, hname⟩

/-- The canonical name of a renamed variable, if no two variables are confused. -/
theorem canonical_renamed {f : String → String} {args args' : List TypeExpr}
    (hocc : occurrences args' = (occurrences args).map f)
    (hf : ∀ v ∈ occurrences args, ∀ w ∈ occurrences args, f v = f w → v = w) {v : String}
    (hv : v ∈ occurrences args) : canonical args' (f v) = canonical args v := by
  have hmem : ∀ {v}, v ∈ (occurrences args).eraseDups → v ∈ occurrences args :=
    List.mem_eraseDups.1
  rw [canonical, hocc, Occurrences.eraseDups_map hf,
    Occurrences.idxOf_map (fun v hv w hw => hf v (hmem hv) w (hmem hw)) (List.mem_eraseDups.2 hv)]
  rfl

/-- Some expressions are others with their variables renamed, up to the normal form of both, where
different variables stay different. -/
def Renames (args args' : List TypeExpr) : Prop :=
  ∃ f, Set.BijOn f {v | v ∈ occurrences args} {v | v ∈ occurrences args'} ∧
    args.map (fun t => t.normalize.renameVars f) = args'.map TypeExpr.normalize

/-- Arguments with canonical variables, in normal form. -/
theorem map_normalize_args_of (generic : String) (args : List TypeExpr) (a : Annots) :
    (of generic args a).args.map TypeExpr.normalize =
      args.map fun t => t.normalize.renameVars (canonical args) := by
  rw [args_of, List.map_map]
  exact List.map_congr_left fun t _ => TypeExpr.normalize_renameVars _ t

theorem map_renameVars_normalize {f g : String → String} {args : List TypeExpr}
    (h : ∀ v ∈ occurrences args, f v = g v) :
    args.map (fun t => t.normalize.renameVars f) = args.map fun t => t.normalize.renameVars g := by
  refine List.map_congr_left fun t ht => TypeExpr.renameVars_congr fun v hv => ?_
  rw [TypeExpr.varNames_normalize] at hv
  exact h v (mem_occurrences ht hv)

/-- The canonical names can be undone, so they agree only for arguments that are renamed. -/
theorem renames_of_canonical {args args' : List TypeExpr}
    (h : args.map (fun t => t.normalize.renameVars (canonical args)) =
      args'.map fun t => t.normalize.renameVars (canonical args')) : Renames args args' := by
  have hinj : Set.InjOn (canonical args') {v | v ∈ occurrences args'} :=
    fun v hv w _ => canonical_injective hv
  -- Each canonical name is that of a variable on either side.
  have hocc : (occurrences args).map (canonical args) =
      (occurrences args').map (canonical args') := by
    rw [← occurrences_renameVars, ← occurrences_renameVars, h]
  let back : String → String := Function.invFunOn (canonical args') {v | v ∈ occurrences args'}
  have hback : ∀ w ∈ occurrences args', back (canonical args' w) = w :=
    fun w hw => hinj.leftInvOn_invFunOn hw
  have hpartner : ∀ v ∈ occurrences args, ∃ w ∈ occurrences args',
      canonical args' w = canonical args v := by
    intro v hv
    have hmem : canonical args v ∈ (occurrences args').map (canonical args') :=
      hocc ▸ List.mem_map_of_mem hv
    obtain ⟨w, hw, heq⟩ := List.mem_map.1 hmem
    exact ⟨w, hw, heq⟩
  refine ⟨back ∘ canonical args, ⟨?_, ?_, ?_⟩, ?_⟩
  · intro v hv
    obtain ⟨w, hw, heq⟩ := hpartner v hv
    show back (canonical args v) ∈ _
    rw [← heq, hback w hw]
    exact hw
  · intro v hv v' hv' heq
    obtain ⟨w, hw, hvw⟩ := hpartner v hv
    obtain ⟨w', hw', hvw'⟩ := hpartner v' hv'
    change back (canonical args v) = back (canonical args v') at heq
    rw [← hvw, ← hvw', hback w hw, hback w' hw'] at heq
    exact canonical_injective hv (by rw [← hvw, ← hvw', heq])
  · intro w hw
    have hmem : canonical args' w ∈ (occurrences args).map (canonical args) :=
      hocc ▸ List.mem_map_of_mem hw
    obtain ⟨v, hv, heq⟩ := List.mem_map.1 hmem
    refine ⟨v, hv, ?_⟩
    show back (canonical args v) = w
    rw [heq, hback w hw]
  · calc args.map (fun t => t.normalize.renameVars (back ∘ canonical args))
        = (args.map fun t => t.normalize.renameVars (canonical args)).map
            (TypeExpr.renameVars back) := by
          rw [List.map_map]
          exact List.map_congr_left fun t _ => (TypeExpr.renameVars_renameVars _ _ _).symm
      _ = (args'.map fun t => t.normalize.renameVars (canonical args')).map
            (TypeExpr.renameVars back) := by rw [h]
      _ = args'.map fun t => t.normalize.renameVars (back ∘ canonical args') := by
          rw [List.map_map]
          exact List.map_congr_left fun t _ => TypeExpr.renameVars_renameVars _ _ _
      _ = args'.map fun t => t.normalize.renameVars id := map_renameVars_normalize hback
      _ = args'.map TypeExpr.normalize :=
          List.map_congr_left fun t _ => TypeExpr.renameVars_id _

/-- Renamed arguments have the same canonical form. -/
theorem canonical_of_renames {args args' : List TypeExpr} (h : Renames args args') :
    args.map (fun t => t.normalize.renameVars (canonical args)) =
      args'.map fun t => t.normalize.renameVars (canonical args') := by
  obtain ⟨f, hf, hmap⟩ := h
  have hnormal : occurrences (args'.map TypeExpr.normalize) = occurrences args' := by
    rw [occurrences, occurrences, List.flatMap_map]
    exact List.flatMap_congr fun t _ => TypeExpr.varNames_normalize t
  have hocc : occurrences args' = (occurrences args).map f := by
    rw [← hnormal, ← hmap, occurrences_renameVars]
  calc args.map (fun t => t.normalize.renameVars (canonical args))
      = args.map fun t => t.normalize.renameVars (canonical args' ∘ f) :=
        map_renameVars_normalize fun v hv =>
          (canonical_renamed hocc (fun _ hv _ hw => hf.injOn hv hw) hv).symm
    _ = (args.map fun t => t.normalize.renameVars f).map
          (TypeExpr.renameVars (canonical args')) := by
        rw [List.map_map]
        exact List.map_congr_left fun t _ => (TypeExpr.renameVars_renameVars _ _ _).symm
    _ = args'.map fun t => t.normalize.renameVars (canonical args') := by
        rw [hmap, List.map_map]
        rfl

theorem canonical_eq_iff {args args' : List TypeExpr} :
    args.map (fun t => t.normalize.renameVars (canonical args)) =
      args'.map (fun t => t.normalize.renameVars (canonical args')) ↔ Renames args args' :=
  ⟨renames_of_canonical, canonical_of_renames⟩

/-- Applications of identifiers to arguments and with annotations whose words are those of
expansions. -/
theorem writtenIn_application {generic : String} {args : List TypeExpr} {a : Annots}
    (hgeneric : IsIdentifier generic) (hargs : ∀ t ∈ args, t.WrittenIn .admissible)
    (ha : ∀ b ∈ a.toList, b.WrittenIn .admissible) :
    (TypeExpr.named generic (of generic args a).args a).WrittenIn .admissible := by
  refine TypeExpr.writtenIn_named (.identifier hgeneric) (fun t ht => ?_) ha
  rw [args_of] at ht
  obtain ⟨u, hu, rfl⟩ := List.mem_map.1 ht
  exact (hargs u hu).renameVars _ fun name _ => isVariable_canonical args name

/-- Expansions can go on: the name of an instance can stand in the arguments of other instances. -/
theorem admissible_name_of {generic : String} {args : List TypeExpr} {a : Annots}
    (hgeneric : IsIdentifier generic) (hargs : ∀ t ∈ args, t.WrittenIn .admissible)
    (ha : ∀ b ∈ a.toList, b.WrittenIn .admissible) : Admissible (of generic args a).name := by
  have hrenamed : ∀ t ∈ (of generic args a).args, t.WrittenIn .admissible :=
    (TypeExpr.writtenIn_iff.1 (writtenIn_application hgeneric hargs ha)).2.2.2
  rw [name_of]
  exact .synthetic hgeneric (fun t ht => (hrenamed t ht).names) (fun t ht => (hrenamed t ht).vars)
    (fun t ht => (hrenamed t ht).annots) ha

/-- The name of an instance is its identity: two applications have the same name exactly if they
apply the same generic, with the same annotations, to arguments that differ only in the names of
their variables and in how containers are spelled. Written applications are equal exactly if they
differ only in how containers are spelled. -/
theorem name_of_eq_iff {g g' : String} {args args' : List TypeExpr} {a a' : Annots}
    (hg : IsIdentifier g) (hg' : IsIdentifier g') (hargs : ∀ t ∈ args, t.WrittenIn .admissible)
    (hargs' : ∀ t ∈ args', t.WrittenIn .admissible) (ha : ∀ b ∈ a.toList, b.WrittenIn .admissible)
    (ha' : ∀ b ∈ a'.toList, b.WrittenIn .admissible) :
    ((of g args a).name = (of g' args' a').name ↔ g = g' ∧ a = a' ∧ Renames args args') ∧
    (TypeExpr.signature g args a = TypeExpr.signature g' args' a' ↔
      g = g' ∧ a = a' ∧ args.map TypeExpr.normalize = args'.map TypeExpr.normalize) := by
  constructor
  · have happlication := TypeExpr.signature_inj (writtenIn_application hg hargs ha)
      (writtenIn_application hg' hargs' ha')
    rw [map_normalize_args_of, map_normalize_args_of, canonical_eq_iff] at happlication
    rw [name_of, name_of, String.append_left_inj, String.append_right_inj, happlication]
    exact and_congr_right fun _ => and_comm
  · rw [TypeExpr.signature_inj (TypeExpr.writtenIn_named (.identifier hg) hargs ha)
      (TypeExpr.writtenIn_named (.identifier hg') hargs' ha')]
    exact and_congr_right fun _ => and_comm

/-- The name of an instance with a quote and a parenthesis in a quoted value. -/
def boxed : String := (of "box" [.var "q" ∅] (.ofList [⟨"doc", "note", some "a) \""⟩])).name

theorem admissible_boxed : Admissible boxed := by
  refine admissible_name_of (by decide) (fun t ht => ?_) (fun b hb => ?_)
  · rw [List.mem_singleton.1 ht]
    exact TypeExpr.writtenIn_var (by decide) nofun
  · have hdoc : IsIdentifier "doc" := by decide
    have hnote : IsIdentifier "note" := by decide
    rw [List.mem_singleton.1 hb]
    exact ⟨hdoc, hnote⟩

theorem writtenIn_boxed {name : String} (h : IsVariable name) :
    (TypeExpr.named boxed [.var name ∅] ∅).WrittenIn .admissible := by
  refine TypeExpr.writtenIn_named admissible_boxed (fun t ht => ?_) nofun
  rw [List.mem_singleton.1 ht]
  exact TypeExpr.writtenIn_var h nofun

/-- Arguments that apply an instance to one variable each. -/
theorem name_of_eq_iff_boxed :
    (∀ t ∈ [TypeExpr.named boxed [.var "x" ∅] ∅], t.WrittenIn .admissible) ∧
    (∀ t ∈ [TypeExpr.named boxed [.var "y" ∅] ∅], t.WrittenIn .admissible) ∧
    ((of "set" [.named boxed [.var "x" ∅] ∅] ∅).name =
      (of "set" [.named boxed [.var "y" ∅] ∅] ∅).name ↔ "set" = "set" ∧ (∅ : Annots) = ∅ ∧
        Renames [.named boxed [.var "x" ∅] ∅] [.named boxed [.var "y" ∅] ∅]) ∧
    (TypeExpr.signature "set" [.named boxed [.var "x" ∅] ∅] ∅ =
      TypeExpr.signature "set" [.named boxed [.var "y" ∅] ∅] ∅ ↔ "set" = "set" ∧
        (∅ : Annots) = ∅ ∧ [TypeExpr.named boxed [.var "x" ∅] ∅].map TypeExpr.normalize =
          [TypeExpr.named boxed [.var "y" ∅] ∅].map TypeExpr.normalize) :=
  have hx := List.forall_mem_singleton.2 (writtenIn_boxed (by decide : IsVariable "x"))
  have hy := List.forall_mem_singleton.2 (writtenIn_boxed (by decide : IsVariable "y"))
  ⟨hx, hy, name_of_eq_iff (by decide) (by decide) hx hy nofun nofun⟩

end Instance

end Monomorph
