/-!
# Association lists

A key stands for the value of its first entry. Where all keys are different it stands for the value of its
only entry, and neither the order of the entries nor entries of other keys play a part.
-/

namespace Monomorph

namespace Association

variable {α : Type} {entries : List (String × α)} {key : String} {value : α}

theorem mem_of_lookup (h : entries.lookup key = some value) : (key, value) ∈ entries := by
  obtain ⟨before, after, rfl, -⟩ := List.lookup_eq_some_iff.1 h
  exact List.mem_append_right _ List.mem_cons_self

theorem lookup_of_mem (hnodup : (entries.map Prod.fst).Nodup) (hmem : (key, value) ∈ entries) :
    entries.lookup key = some value := by
  induction entries with
  | nil => cases hmem
  | cons entry rest ih =>
    obtain ⟨hentry, hrest⟩ := List.nodup_cons.1 hnodup
    obtain rfl | hmem := List.mem_cons.1 hmem
    · simp
    · have hne : key ≠ entry.1 := fun heq => hentry (heq ▸ List.mem_map_of_mem hmem)
      rw [List.lookup_cons, beq_eq_false_iff_ne.2 hne]
      exact ih hrest hmem

/-- The order of entries with different keys does not matter. -/
theorem lookup_eq_of_perm {permuted : List (String × α)} (hnodup : (entries.map Prod.fst).Nodup)
    (h : entries.Perm permuted) (key : String) : entries.lookup key = permuted.lookup key := by
  cases hlookup : permuted.lookup key with
  | some value => exact lookup_of_mem hnodup (h.mem_iff.2 (mem_of_lookup hlookup))
  | none =>
    refine List.lookup_eq_none_iff.2 fun entry hentry => ?_
    exact List.lookup_eq_none_iff.1 hlookup entry (h.mem_iff.1 hentry)

/-- Entries of other keys do not matter. -/
theorem lookup_insert_of_ne {before after : List (String × α)} {other : String} (h : key ≠ other)
    (value : α) : (before ++ (other, value) :: after).lookup key = (before ++ after).lookup key := by
  rw [List.lookup_append, List.lookup_append, List.lookup_cons, beq_eq_false_iff_ne.2 h]

end Association

end Monomorph
