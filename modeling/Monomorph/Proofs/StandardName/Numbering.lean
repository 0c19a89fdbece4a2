import Mathlib.Data.List.Nodup
import Mathlib.Data.List.Perm.Subperm
import Monomorph.Proofs.Association
import Monomorph.Proofs.Signature.Identity
import Monomorph.StandardName

/-!
# Numbered names

A list of taken names cannot take more numbers than it has names, so the search for a free number always
finds one, and the numbers that are found grow. The standard names of specializations are therefore free
and different from each other. `StandardName.Assigns` is all that later proofs need of the renaming.
-/

namespace Monomorph

namespace StandardName

variable {stem : String} {taken : List String}

theorem numbered_injective {m n : Nat} (h : numbered stem m = numbered stem n) : m = n := by
  rw [numbered, numbered, String.append_right_inj] at h
  exact Nat.repr_injective h

/-- A word that ends in a digit is no keyword. -/
theorem ofWord?_of_isDigit {word : String} {c : Char} (hlast : word.toList.getLast? = some c)
    (hdigit : c.isDigit = true) : Mark.ofWord? word = none := by
  unfold Mark.ofWord?
  split
  · obtain rfl : 'e' = c := Option.some.inj hlast
    cases hdigit
  · obtain rfl : 'f' = c := Option.some.inj hlast
    cases hdigit
  · obtain rfl : 't' = c := Option.some.inj hlast
    cases hdigit
  · rfl

/-- A numbered name is an identifier, and no keyword. -/
theorem isPlain_numbered (hstem : IsIdentifier stem) (n : Nat) : IsPlain (numbered stem n) := by
  have htext : (numbered stem n).toList = stem.toList ++ Nat.toDigits 10 n := by
    rw [numbered, String.toList_append, Nat.toString_eq_repr, Nat.toList_repr]
  have hdigits : ∀ c ∈ Nat.toDigits 10 n, c.isDigit = true := fun c hc =>
    Nat.isDigit_of_mem_toDigits (by decide) (by decide) hc
  constructor
  · obtain ⟨c, text, hcons, hstart, hrest⟩ := hstem.exists_cons
    rw [IsIdentifier, htext, hcons, List.cons_append]
    refine Bool.and_eq_true_iff.2 ⟨hstart, ?_⟩
    rw [List.all_append, hrest, Bool.true_and]
    apply List.all_eq_true.2
    intro d hd
    simp [Lexer.isWordPart, Char.isAlphanum, hdigits d hd]
  · have hne : Nat.toDigits 10 n ≠ [] := Nat.toDigits_ne_nil
    refine ofWord?_of_isDigit ?_ (hdigits _ (List.getLast_mem hne))
    rw [htext, List.getLast?_append, List.getLast?_eq_some_getLast hne]
    rfl

/-! ## Free numbers -/

theorem le_firstFree (fuel n : Nat) : n ≤ firstFree taken stem fuel n := by
  induction fuel generalizing n with
  | zero => exact Nat.le_refl n
  | succ fuel ih =>
    rw [firstFree]
    split
    · have hle := ih (n + 1)
      omega
    · exact Nat.le_refl n

/-- The search stops at a free number, if there is one that it comes to. -/
theorem firstFree_not_mem {fuel n : Nat}
    (h : ∃ k, n ≤ k ∧ k ≤ n + fuel ∧ numbered stem k ∉ taken) :
    numbered stem (firstFree taken stem fuel n) ∉ taken := by
  induction fuel generalizing n with
  | zero =>
    obtain ⟨k, hle, hbound, hfree⟩ := h
    obtain rfl : k = n := by omega
    exact hfree
  | succ fuel ih =>
    rw [firstFree]
    split
    · next htaken =>
      obtain ⟨k, hle, hbound, hfree⟩ := h
      have hne : k ≠ n := by
        rintro rfl
        exact hfree htaken
      exact ih ⟨k, by omega, by omega, hfree⟩
    · next hfree => exact hfree

/-- The search goes past no free number. -/
theorem firstFree_le {fuel n k : Nat} (hle : n ≤ k) (hfree : numbered stem k ∉ taken) :
    firstFree taken stem fuel n ≤ k := by
  induction fuel generalizing n with
  | zero => exact hle
  | succ fuel ih =>
    rw [firstFree]
    split
    · next htaken =>
      have hne : k ≠ n := by
        rintro rfl
        exact hfree htaken
      exact ih (by omega)
    · exact hle

/-- Among more numbers than there are taken names there is a free one. -/
theorem exists_free (n : Nat) : ∃ k, n ≤ k ∧ k ≤ n + taken.length ∧ numbered stem k ∉ taken := by
  by_contra hnone
  simp only [not_exists, not_and, Decidable.not_not] at hnone
  have hnodup : ((List.range (taken.length + 1)).map fun k => numbered stem (n + k)).Nodup := by
    refine List.nodup_range.map ?_
    intro i j hij
    have hnat := numbered_injective hij
    omega
  have hsubset : (List.range (taken.length + 1)).map (fun k => numbered stem (n + k)) ⊆ taken := by
    intro name hname
    obtain ⟨k, hk, rfl⟩ := List.mem_map.1 hname
    have hbound := List.mem_range.1 hk
    exact hnone (n + k) (by omega) (by omega)
  have hlength := (hnodup.subperm hsubset).length_le
  simp only [List.length_map, List.length_range] at hlength
  omega

/-- The numbers that are found are free. -/
theorem freeNumbers_not_mem {count n : Nat} :
    ∀ k ∈ freeNumbers taken stem count n, numbered stem k ∉ taken := by
  induction count generalizing n with
  | zero => nofun
  | succ count ih => exact List.forall_mem_cons.2 ⟨firstFree_not_mem (exists_free n), ih⟩

theorem le_freeNumbers {count n : Nat} : ∀ k ∈ freeNumbers taken stem count n, n ≤ k := by
  induction count generalizing n with
  | zero => nofun
  | succ count ih =>
    have hfree : n ≤ firstFree taken stem taken.length n := le_firstFree _ n
    refine List.forall_mem_cons.2 ⟨hfree, fun k hk => ?_⟩
    have hle := ih k hk
    omega

/-- The numbers that are found are different. -/
theorem nodup_freeNumbers (count n : Nat) : (freeNumbers taken stem count n).Nodup := by
  induction count generalizing n with
  | zero => exact List.nodup_nil
  | succ count ih =>
    refine List.nodup_cons.2 ⟨fun hmem => ?_, ih _⟩
    have hle := le_freeNumbers _ hmem
    omega

@[simp] theorem length_freeNumbers (count n : Nat) : (freeNumbers taken stem count n).length = count := by
  induction count generalizing n with
  | zero => rfl
  | succ count ih => rw [freeNumbers, List.length_cons, ih]

/-! ## The renaming -/

/-- What a renaming does to the names in some definitions: names of specializations become numbered names
that are free and different, and other names stay. -/
structure Assigns (definitions : List TypeDef) (stem : String) (taken : List String)
    (f : String → String) : Prop where
  plain : ∀ {name}, isSynthetic name = false → f name = name
  fresh : ∀ {name}, name ∈ synthetic definitions →
    (∃ n, f name = numbered stem n) ∧ f name ∉ taken ∧ f name ∉ kept definitions
  injective : ∀ {name other}, name ∈ synthetic definitions → other ∈ synthetic definitions →
    f name = f other → name = other

theorem isSynthetic_of_mem {definitions : List TypeDef} {name : String}
    (h : name ∈ synthetic definitions) : isSynthetic name = true :=
  (List.mem_filter.1 (List.mem_eraseDups.1 h)).2

theorem nodup_synthetic (definitions : List TypeDef) : (synthetic definitions).Nodup :=
  Occurrences.nodup_eraseDups _

/-- The numbers of the specializations in some definitions. -/
def numbers (definitions : List TypeDef) (stem : String) (taken : List String) : List Nat :=
  freeNumbers (taken ++ kept definitions) stem (synthetic definitions).length 1

theorem map_fst_assign (definitions : List TypeDef) (stem : String) (taken : List String) :
    (assign definitions stem taken).map Prod.fst = synthetic definitions := by
  apply List.map_fst_zip
  rw [List.length_map, length_freeNumbers]

/-- A specialization gets the number at its place. -/
theorem rename_getElem {definitions : List TypeDef} {i : Nat} (h : i < (synthetic definitions).length)
    (hnumbers : i < (numbers definitions stem taken).length) :
    rename (assign definitions stem taken) (synthetic definitions)[i] =
      numbered stem (numbers definitions stem taken)[i] := by
  have hmem : ((synthetic definitions)[i], numbered stem (numbers definitions stem taken)[i]) ∈
      assign definitions stem taken := by
    refine List.mem_iff_getElem.2 ⟨i, ?_, ?_⟩
    · rw [assign, List.length_zip, List.length_map]
      exact Nat.lt_min.2 ⟨h, hnumbers⟩
    · simp only [assign, List.getElem_zip, List.getElem_map]
      rfl
  have hkeys : ((assign definitions stem taken).map Prod.fst).Nodup := by
    rw [map_fst_assign]
    exact nodup_synthetic definitions
  rw [rename, Association.lookup_of_mem hkeys hmem, Option.getD_some]

/-- A specialization gets a number of its own. -/
theorem exists_number (stem : String) (taken : List String) {definitions : List TypeDef} {name : String}
    (h : name ∈ synthetic definitions) : ∃ i : Nat, ∃ hi : i < (numbers definitions stem taken).length,
      (synthetic definitions)[i]? = some name ∧
      rename (assign definitions stem taken) name = numbered stem (numbers definitions stem taken)[i] := by
  obtain ⟨i, hi, rfl⟩ := List.mem_iff_getElem.1 h
  have hnumbers : i < (numbers definitions stem taken).length := by
    rwa [numbers, length_freeNumbers]
  exact ⟨i, hnumbers, List.getElem?_eq_getElem hi, rename_getElem hi hnumbers⟩

/-- The standard names do what they should. -/
theorem assigns_rename (definitions : List TypeDef) (stem : String) (taken : List String) :
    Assigns definitions stem taken (rename (assign definitions stem taken)) where
  plain {name} hplain := by
    have hnone : (assign definitions stem taken).lookup name = none := by
      refine List.lookup_eq_none_iff.2 fun entry hentry => ?_
      have hmem : entry.1 ∈ synthetic definitions := by
        rw [← map_fst_assign definitions stem taken]
        exact List.mem_map_of_mem hentry
      rw [bne_iff_ne]
      rintro rfl
      rw [isSynthetic_of_mem hmem] at hplain
      cases hplain
    rw [rename, hnone, Option.getD_none]
  fresh {name} hname := by
    obtain ⟨i, hi, -, hrename⟩ := exists_number stem taken hname
    have hfree := freeNumbers_not_mem _ (List.getElem_mem hi)
    rw [List.mem_append, not_or] at hfree
    rw [hrename]
    exact ⟨⟨_, rfl⟩, hfree⟩
  injective {name other} hname hother heq := by
    obtain ⟨i, hi, hiname, hirename⟩ := exists_number stem taken hname
    obtain ⟨j, hj, hjother, hjrename⟩ := exists_number stem taken hother
    rw [hirename, hjrename] at heq
    have hnodup : (numbers definitions stem taken).Nodup := nodup_freeNumbers _ _
    obtain rfl := (hnodup.getElem_inj_iff).1 (numbered_injective heq)
    exact Option.some.inj (hiname.symm.trans hjother)

/-- No two names of definitions become the same. -/
theorem Assigns.injective_names {definitions : List TypeDef} {f : String → String}
    (h : Assigns definitions stem taken f) {name other : String}
    (hname : name ∈ definitions.map TypeDef.name) (hother : other ∈ definitions.map TypeDef.name)
    (heq : f name = f other) : name = other := by
  have hcases : ∀ {x}, x ∈ definitions.map TypeDef.name →
      x ∈ synthetic definitions ∨ isSynthetic x = false ∧ x ∈ kept definitions := by
    intro x hx
    cases hsynthetic : isSynthetic x with
    | true => exact Or.inl (List.mem_eraseDups.2 (List.mem_filter.2 ⟨List.mem_append_left _ hx, hsynthetic⟩))
    | false => exact Or.inr ⟨rfl, List.mem_filter.2 ⟨hx, by simp [hsynthetic]⟩⟩
  obtain hname | ⟨hplain, hkept⟩ := hcases hname
  · obtain hother | ⟨hplain, hkept⟩ := hcases hother
    · exact h.injective hname hother heq
    · rw [h.plain hplain] at heq
      exact absurd (heq ▸ hkept) (h.fresh hname).2.2
  · rw [h.plain hplain] at heq
    obtain hother | ⟨hplain', -⟩ := hcases hother
    · exact absurd (heq ▸ hkept) (h.fresh hother).2.2
    · rwa [h.plain hplain'] at heq

end StandardName

end Monomorph
