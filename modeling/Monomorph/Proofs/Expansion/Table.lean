import Monomorph.Table

/-!
# Look-up in the table

Insertion hides earlier entries of the same name and nothing else, and filling an entry changes
nothing that is known of any name but the expansion. Handles are positions, so filling an entry
changes no other one.
-/

namespace Monomorph

namespace Table

/-- What is known of a name apart from its expansion: the arity and what is declared. -/
def known (t : Table) (name : String) : Option (Nat × Option TypeDef) :=
  (t.find? name).map fun e => (e.arity, e.declared)

theorem find?_insert (t : Table) (name : String) (arity : Nat) (declared : Option TypeDef)
    (other : String) : (t.insert name arity declared).find? other =
      if name = other then some ⟨name, t.next, arity, declared, none⟩ else t.find? other := by
  rw [find?, insert, List.find?_cons]
  by_cases h : name = other
  · subst h
    simp
  · rw [beq_eq_false_iff_ne.2 h, if_neg h]
    rfl

theorem find?_fill (t : Table) (handle : Handle) (d : TypeDef) (name : String) :
    (t.fill handle d).find? name =
      (t.find? name).map fun e => if e.seq = handle then { e with expansion := some d } else e := by
  have hname : ∀ e : Entry, (if e.seq = handle then { e with expansion := some d } else e).name =
      e.name := by
    intro e
    split <;> rfl
  simp only [find?, fill, List.find?_map, Function.comp_def, hname]

theorem find?_eq_some {t : Table} {name : String} {e : Entry} (h : t.find? name = some e) :
    e ∈ t.latest ∧ e.name = name := by
  refine ⟨List.mem_of_find?_eq_some h, ?_⟩
  have hname := List.find?_some (p := fun e : Entry => e.name == name) h
  exact beq_iff_eq.1 hname

/-- An entry is found by anything that tells it from all others. -/
theorem find?_key_of_mem {α : Type} [DecidableEq α] {key : Entry → α} {entries : List Entry}
    (hnodup : (entries.map key).Nodup) {e : Entry} (he : e ∈ entries) :
    entries.find? (key · == key e) = some e := by
  obtain ⟨before, after, rfl⟩ := List.append_of_mem he
  refine List.find?_eq_some_iff_append.2 ⟨beq_self_eq_true (key e), before, after, rfl, ?_⟩
  intro other hother
  have hne : key other ≠ key e := by
    rw [List.map_append, List.nodup_append] at hnodup
    exact hnodup.2.2 _ (List.mem_map_of_mem hother) _ (List.mem_map_of_mem List.mem_cons_self)
  simpa using hne

theorem find?_of_mem {t : Table} (hnodup : (t.latest.map Entry.name).Nodup) {e : Entry}
    (he : e ∈ t.latest) : t.find? e.name = some e :=
  find?_key_of_mem hnodup he

theorem contains_iff {t : Table} {name : String} :
    t.contains name = true ↔ name ∈ t.latest.map Entry.name := by
  rw [contains, find?, List.find?_isSome, List.mem_map]
  simp only [beq_iff_eq]

theorem contains_eq_isSome_known (t : Table) (name : String) :
    t.contains name = (t.known name).isSome := by
  rw [contains, known, Option.isSome_map]

theorem known_insert (t : Table) (name : String) (arity : Nat) (declared : Option TypeDef)
    (other : String) : (t.insert name arity declared).known other =
      if name = other then some (arity, declared) else t.known other := by
  rw [known, find?_insert]
  split <;> rfl

theorem contains_insert (t : Table) (name : String) (arity : Nat) (declared : Option TypeDef)
    (other : String) : (t.insert name arity declared).contains other = true ↔
      name = other ∨ t.contains other = true := by
  rw [contains_eq_isSome_known, contains_eq_isSome_known, known_insert]
  by_cases h : name = other <;> simp [h]

@[simp] theorem known_fill (t : Table) (handle : Handle) (d : TypeDef) (name : String) :
    (t.fill handle d).known name = t.known name := by
  rw [known, find?_fill, Option.map_map, known]
  congr 1
  funext e
  simp only [Function.comp_apply]
  split <;> rfl

/-- The entries of a table are numbered in the order of insertion. -/
def Positional (t : Table) : Prop := t.latest.map Entry.seq = (List.range t.size).reverse

theorem positional_empty : empty.Positional := rfl

theorem Positional.insert {t : Table} (h : t.Positional) (name : String) (arity : Nat)
    (declared : Option TypeDef) : (t.insert name arity declared).Positional := by
  have hsize : (t.insert name arity declared).size = t.size + 1 := rfl
  rw [Positional, hsize, List.range_succ, List.reverse_append, ← h]
  rfl

theorem Positional.fill {t : Table} (h : t.Positional) (handle : Handle) (d : TypeDef) :
    (t.fill handle d).Positional := by
  have hseq : (t.fill handle d).latest.map Entry.seq = t.latest.map Entry.seq := by
    rw [Table.fill, List.map_map]
    apply List.map_congr_left
    intro e _
    simp only [Function.comp_apply]
    split <;> rfl
  have hsize : (t.fill handle d).size = t.size := List.length_map ..
  rw [Positional, hseq, h, hsize]

/-- No two entries have the same number. -/
theorem Positional.nodup {t : Table} (h : t.Positional) : (t.latest.map Entry.seq).Nodup := by
  rw [h]
  exact List.pairwise_reverse.2 (List.nodup_range.imp Ne.symm)

/-- Filling one entry leaves the ones before and after it as they are. -/
theorem Positional.fill_eq {after before : List Entry} {e : Entry}
    (h : Positional ⟨after ++ e :: before⟩) (d : TypeDef) :
    (Table.mk (after ++ e :: before)).fill e.seq d =
      ⟨after ++ { e with expansion := some d } :: before⟩ := by
  have hnodup := h.nodup
  rw [List.map_append, List.map_cons, List.nodup_append] at hnodup
  obtain ⟨_, hbefore, hdisjoint⟩ := hnodup
  have hother : ∀ e' ∈ after ++ before, e'.seq ≠ e.seq := by
    intro e' he' heq
    obtain he' | he' := List.mem_append.1 he'
    · exact hdisjoint _ (List.mem_map_of_mem he') _ List.mem_cons_self heq
    · exact (List.nodup_cons.1 hbefore).1 (heq ▸ List.mem_map_of_mem he')
  have hkeep : ∀ entries : List Entry, (∀ e' ∈ entries, e'.seq ≠ e.seq) →
      entries.map (fun e' => if e'.seq = e.seq then { e' with expansion := some d } else e') =
        entries := by
    intro entries hne
    refine (List.map_congr_left fun e' he' => ?_).trans (List.map_id entries)
    exact if_neg (hne e' he')
  rw [Table.fill, List.map_append, List.map_cons, if_pos rfl,
    hkeep after fun e' he' => hother e' (List.mem_append_left _ he'),
    hkeep before fun e' he' => hother e' (List.mem_append_right _ he')]

end Table

end Monomorph
