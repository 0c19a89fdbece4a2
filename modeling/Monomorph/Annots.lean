/-!
# Annotations

An annotation is a key of some group, with or without a value. A node of a type expression carries
a *set* of them, kept as a strictly increasing list, so that the list determines the set and equal
sets are equal values.

The main statements are `Annots.mem_insert` and `Annots.mem_union`, which say what the two
operations do to membership, and `Annots.ext_mem`: two sets with the same members are equal.
-/

namespace Monomorph

/-- One annotation: `key` or `key="value"` inside the group's angle brackets. -/
structure Annot where
  group : String
  key : String
  value : Option String
deriving DecidableEq, Repr

namespace Annot

/-- Annotations are ordered by group, then key, then value; a missing value comes first. -/
def lt (a b : Annot) : Prop :=
  a.group < b.group ∨ a.group = b.group ∧
    (a.key < b.key ∨ a.key = b.key ∧ a.value < b.value)

instance : LT Annot := ⟨lt⟩

instance decidableValueLt : (u v : Option String) → Decidable (u < v)
  | none, none => isFalse id
  | none, some _ => isTrue trivial
  | some _, none => isFalse id
  | some s, some t => inferInstanceAs (Decidable (s < t))

instance decidableLt (a b : Annot) : Decidable (a < b) :=
  inferInstanceAs (Decidable (_ ∨ _ ∧ (_ ∨ _ ∧ _)))

theorem lt_def {a b : Annot} : a < b ↔ a.group < b.group ∨ a.group = b.group ∧
    (a.key < b.key ∨ a.key = b.key ∧ a.value < b.value) := Iff.rfl

theorem value_lt_irrefl (v : Option String) : ¬ v < v := by
  cases v with
  | none => exact id
  | some s => exact String.lt_irrefl s

theorem value_lt_trans {u v w : Option String} (huv : u < v) (hvw : v < w) : u < w := by
  cases u with
  | none =>
    cases w with
    | none => cases v <;> exact hvw.elim
    | some w => exact trivial
  | some u =>
    cases v with
    | none => exact huv.elim
    | some v =>
      cases w with
      | none => exact hvw.elim
      | some w => exact String.lt_trans huv hvw

theorem text_lt_trichotomy (s t : String) : s < t ∨ s = t ∨ t < s := by
  by_cases hst : s < t
  · exact Or.inl hst
  · by_cases hts : t < s
    · exact Or.inr (Or.inr hts)
    · exact Or.inr (Or.inl (String.le_antisymm hts hst))

theorem value_lt_trichotomy (u v : Option String) : u < v ∨ u = v ∨ v < u := by
  cases u with
  | none =>
    cases v with
    | none => exact Or.inr (Or.inl rfl)
    | some v => exact Or.inl trivial
  | some u =>
    cases v with
    | none => exact Or.inr (Or.inr trivial)
    | some v =>
      rcases text_lt_trichotomy u v with h | h | h
      · exact Or.inl h
      · exact Or.inr (Or.inl (congrArg some h))
      · exact Or.inr (Or.inr h)

theorem lt_irrefl (a : Annot) : ¬ a < a := by
  rw [lt_def]
  rintro (h | ⟨_, h | ⟨_, h⟩⟩)
  · exact String.lt_irrefl _ h
  · exact String.lt_irrefl _ h
  · exact value_lt_irrefl _ h

theorem lt_trans {a b c : Annot} (hab : a < b) (hbc : b < c) : a < c := by
  rw [lt_def] at *
  rcases hab with hg | ⟨hg, hk⟩
  · rcases hbc with hg' | ⟨hg', _⟩
    · exact Or.inl (String.lt_trans hg hg')
    · exact Or.inl (hg' ▸ hg)
  · rcases hbc with hg' | ⟨hg', hk'⟩
    · exact Or.inl (hg ▸ hg')
    · refine Or.inr ⟨hg.trans hg', ?_⟩
      rcases hk with hk | ⟨hk, hv⟩
      · rcases hk' with hk' | ⟨hk', _⟩
        · exact Or.inl (String.lt_trans hk hk')
        · exact Or.inl (hk' ▸ hk)
      · rcases hk' with hk' | ⟨hk', hv'⟩
        · exact Or.inl (hk ▸ hk')
        · exact Or.inr ⟨hk.trans hk', value_lt_trans hv hv'⟩

theorem lt_trichotomy (a b : Annot) : a < b ∨ a = b ∨ b < a := by
  simp only [lt_def]
  rcases text_lt_trichotomy a.group b.group with hg | hg | hg
  · exact Or.inl (Or.inl hg)
  · rcases text_lt_trichotomy a.key b.key with hk | hk | hk
    · exact Or.inl (Or.inr ⟨hg, Or.inl hk⟩)
    · rcases value_lt_trichotomy a.value b.value with hv | hv | hv
      · exact Or.inl (Or.inr ⟨hg, Or.inr ⟨hk, hv⟩⟩)
      · refine Or.inr (Or.inl ?_)
        cases a
        cases b
        simp_all
      · exact Or.inr (Or.inr (Or.inr ⟨hg.symm, Or.inr ⟨hk.symm, hv⟩⟩))
    · exact Or.inr (Or.inr (Or.inr ⟨hg.symm, Or.inl hk⟩))
  · exact Or.inr (Or.inr (Or.inl hg))

/-- Put `a` at its place in an increasing list; an entry that is already there is not repeated. -/
def insertSorted (a : Annot) : List Annot → List Annot
  | [] => [a]
  | b :: rest =>
    if a < b then a :: b :: rest
    else if a = b then b :: rest
    else b :: insertSorted a rest

theorem mem_insertSorted {x a : Annot} {entries : List Annot} :
    x ∈ insertSorted a entries ↔ x = a ∨ x ∈ entries := by
  induction entries with
  | nil => simp [insertSorted]
  | cons b rest ih =>
    simp only [insertSorted]
    split
    · simp
    · split
      · next h => simp [h]
      · simp only [List.mem_cons, ih]
        exact or_left_comm

theorem pairwise_insertSorted (a : Annot) {entries : List Annot}
    (h : entries.Pairwise (· < ·)) : (insertSorted a entries).Pairwise (· < ·) := by
  induction entries with
  | nil => simp [insertSorted]
  | cons b rest ih =>
    obtain ⟨hb, hrest⟩ := List.pairwise_cons.1 h
    simp only [insertSorted]
    split
    · next hab =>
      refine List.pairwise_cons.2 ⟨fun x hx => ?_, h⟩
      rcases List.mem_cons.1 hx with rfl | hx
      · exact hab
      · exact lt_trans hab (hb x hx)
    · next hab =>
      split
      · exact h
      · next hne =>
        refine List.pairwise_cons.2 ⟨fun x hx => ?_, ih hrest⟩
        rcases mem_insertSorted.1 hx with rfl | hx
        · exact ((lt_trichotomy x b).resolve_left hab).resolve_left hne
        · exact hb x hx

end Annot

/-- A finite set of annotations, kept in increasing order. -/
structure Annots where
  toList : List Annot
  sorted : toList.Pairwise (· < ·)
deriving DecidableEq

namespace Annots

/-- No annotation. -/
def empty : Annots := ⟨[], List.Pairwise.nil⟩

instance : EmptyCollection Annots := ⟨empty⟩

instance : Inhabited Annots := ⟨∅⟩

instance : Repr Annots := ⟨fun s p => reprPrec s.toList p⟩

instance : Membership Annot Annots := ⟨fun s a => a ∈ s.toList⟩

theorem mem_def {a : Annot} {s : Annots} : a ∈ s ↔ a ∈ s.toList := Iff.rfl

/-- The number of annotations. -/
def size (s : Annots) : Nat := s.toList.length

/-- Whether there is no annotation at all. -/
def isEmpty (s : Annots) : Bool := s.toList.isEmpty

/-- Add one annotation. -/
def insert (s : Annots) (a : Annot) : Annots :=
  ⟨a.insertSorted s.toList, a.pairwise_insertSorted s.sorted⟩

/-- All annotations of either set. -/
def union (s t : Annots) : Annots := t.toList.foldl insert s

instance : Union Annots := ⟨union⟩

/-- The set of the entries of a list, whatever their order and however often they occur. -/
def ofList (entries : List Annot) : Annots := entries.foldl insert ∅

@[simp] theorem toList_empty : (∅ : Annots).toList = [] := rfl

@[simp] theorem not_mem_empty (a : Annot) : ¬ a ∈ (∅ : Annots) := List.not_mem_nil

@[simp] theorem mem_insert {x a : Annot} {s : Annots} :
    x ∈ s.insert a ↔ x = a ∨ x ∈ s := Annot.mem_insertSorted

theorem mem_foldl_insert {x : Annot} (entries : List Annot) (s : Annots) :
    x ∈ entries.foldl insert s ↔ x ∈ s ∨ x ∈ entries := by
  induction entries generalizing s with
  | nil => simp
  | cons a rest ih => simp only [List.foldl_cons, ih, mem_insert, List.mem_cons]; grind

@[simp] theorem mem_union {x : Annot} {s t : Annots} : x ∈ s ∪ t ↔ x ∈ s ∨ x ∈ t :=
  mem_foldl_insert t.toList s

@[simp] theorem mem_ofList {x : Annot} {entries : List Annot} :
    x ∈ ofList entries ↔ x ∈ entries := by
  simp [ofList, mem_foldl_insert]

/-- Two increasing lists with the same members are the same list. -/
theorem eq_of_mem_iff {l m : List Annot} (hl : l.Pairwise (· < ·)) (hm : m.Pairwise (· < ·))
    (h : ∀ x, x ∈ l ↔ x ∈ m) : l = m := by
  induction l generalizing m with
  | nil =>
    cases m with
    | nil => rfl
    | cons b m => exact absurd ((h b).2 List.mem_cons_self) List.not_mem_nil
  | cons a l ih =>
    cases m with
    | nil => exact absurd ((h a).1 List.mem_cons_self) List.not_mem_nil
    | cons b m =>
      obtain ⟨hal, htl⟩ := List.pairwise_cons.1 hl
      obtain ⟨hbm, htm⟩ := List.pairwise_cons.1 hm
      have hab : a = b := by
        rcases List.mem_cons.1 ((h a).1 List.mem_cons_self) with hab | ham
        · exact hab
        · rcases List.mem_cons.1 ((h b).2 List.mem_cons_self) with hba | hbl
          · exact hba.symm
          · exact absurd (Annot.lt_trans (hbm a ham) (hal b hbl)) (Annot.lt_irrefl b)
      subst hab
      refine congrArg (a :: ·) (ih htl htm fun x => ⟨fun hx => ?_, fun hx => ?_⟩)
      · rcases List.mem_cons.1 ((h x).1 (List.mem_cons_of_mem a hx)) with rfl | hx'
        · exact absurd (hal x hx) (Annot.lt_irrefl x)
        · exact hx'
      · rcases List.mem_cons.1 ((h x).2 (List.mem_cons_of_mem a hx)) with rfl | hx'
        · exact absurd (hbm x hx) (Annot.lt_irrefl x)
        · exact hx'

/-- Sets with the same members are equal. -/
theorem ext_mem {s t : Annots} (h : ∀ x, x ∈ s ↔ x ∈ t) : s = t := by
  obtain ⟨l, hl⟩ := s
  obtain ⟨m, hm⟩ := t
  obtain rfl : l = m := eq_of_mem_iff hl hm h
  rfl

@[simp] theorem union_empty (s : Annots) : s ∪ ∅ = s := rfl

@[simp] theorem empty_union (s : Annots) : ∅ ∪ s = s := ext_mem (by simp)

@[simp] theorem union_self (s : Annots) : s ∪ s = s := ext_mem (by simp)

theorem union_assoc (s t u : Annots) : s ∪ t ∪ u = s ∪ (t ∪ u) :=
  ext_mem (by simp [or_assoc])

theorem union_comm (s t : Annots) : s ∪ t = t ∪ s := ext_mem (by simp [or_comm])

@[simp] theorem ofList_toList (s : Annots) : ofList s.toList = s := ext_mem fun _ => by
  rw [mem_ofList, mem_def]

end Annots

end Monomorph
