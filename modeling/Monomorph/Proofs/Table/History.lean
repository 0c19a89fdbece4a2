import Mathlib.Data.List.Basic
import Mathlib.Data.List.Induction
import Monomorph.Proofs.Expansion.Table

/-!
# The history of a table

A table is the record of what was done to it: an entry for each insertion, in order, with what was filled
in last. `Table.history` reads these entries off a list of operations, without a table, and
`Table.toList_replay` says that a table holds them and nothing else. What a table answers is then a
question about its history: a handle is a place in it, a name stands for the last entry of that name, and
what is drained is what was filled in, in the order of insertion.
-/

namespace Monomorph

namespace Table

/-- What can be done to a table. -/
inductive Operation where
  | seed (name : String) (arity : Nat) (declared : Option TypeDef)
  | reserve (name : String) (arity : Nat)
  | fill (handle : Handle) (d : TypeDef)
deriving DecidableEq, Repr

/-- What is known of an entry from its insertion on. -/
structure Insertion where
  name : String
  arity : Nat
  declared : Option TypeDef
deriving DecidableEq, Repr

namespace Operation

/-- Do it. -/
def run (t : Table) : Operation → Table
  | seed name arity declared => t.insert name arity declared
  | reserve name arity => t.reserve name arity
  | fill handle d => t.fill handle d

/-- What is inserted, if anything is. -/
def insertion? : Operation → Option Insertion
  | seed name arity declared => some ⟨name, arity, declared⟩
  | reserve name arity => some ⟨name, arity, none⟩
  | fill _ _ => none

/-- What is filled into an entry, if anything is. -/
def filling? (handle : Handle) : Operation → Option TypeDef
  | fill h d => if h = handle then some d else none
  | _ => none

end Operation

/-- A table after some operations. -/
def replay (ops : List Operation) : Table := ops.foldl Operation.run ∅

/-- What is inserted, in order. -/
def insertions (ops : List Operation) : List Insertion := ops.filterMap Operation.insertion?

/-- What is filled into an entry, in order. -/
def fillings (ops : List Operation) (handle : Handle) : List TypeDef :=
  ops.filterMap (Operation.filling? handle)

/-- The entry for an insertion, after some operations. -/
def Insertion.entry (ops : List Operation) (i : Insertion) (n : Handle) : Entry :=
  ⟨i.name, n, i.arity, i.declared, (fillings ops n).getLast?⟩

/-- The entries for all insertions. -/
def history (ops : List Operation) : List Entry :=
  (insertions ops).zipIdx.map fun (i, n) => i.entry ops n

/-- Only entries that are there are filled. -/
inductive Proper : List Operation → Prop where
  | nil : Proper []
  | seed {ops : List Operation} (name : String) (arity : Nat) (declared : Option TypeDef) :
    Proper ops → Proper (ops ++ [.seed name arity declared])
  | reserve {ops : List Operation} (name : String) (arity : Nat) :
    Proper ops → Proper (ops ++ [.reserve name arity])
  | fill {ops : List Operation} {handle : Handle} (d : TypeDef) :
    Proper ops → handle < (insertions ops).length → Proper (ops ++ [.fill handle d])

variable {ops : List Operation} {t : Table}

theorem Proper.of_append {before after : List Operation} (h : Proper (before ++ after)) : Proper before := by
  induction after using List.reverseRecOn with
  | nil => rwa [List.append_nil] at h
  | append_singleton after op ih =>
    rw [← List.append_assoc] at h
    apply ih
    generalize hops : before ++ after ++ [op] = ops at h
    cases h with
    | nil => exact absurd hops (List.append_ne_nil_of_right_ne_nil _ (List.cons_ne_nil _ _))
    | seed _ _ _ h | reserve _ _ h | fill _ h _ =>
      obtain ⟨rfl, -⟩ := List.append_inj' hops rfl
      exact h

/-! ## One more operation -/

theorem replay_concat (ops : List Operation) (op : Operation) :
    replay (ops ++ [op]) = op.run (replay ops) := by
  rw [replay, List.foldl_append]
  rfl

theorem insertions_append (ops more : List Operation) :
    insertions (ops ++ more) = insertions ops ++ insertions more := List.filterMap_append

theorem fillings_append (ops more : List Operation) (handle : Handle) :
    fillings (ops ++ more) handle = fillings ops handle ++ fillings more handle := List.filterMap_append

/-- An entry that is not there yet has not been filled. -/
theorem Proper.fillings_eq_nil (h : Proper ops) {handle : Handle} (hnew : (insertions ops).length ≤ handle) :
    fillings ops handle = [] := by
  induction h with
  | nil => rfl
  | seed name arity declared h ih =>
    rw [insertions_append, List.length_append] at hnew
    rw [fillings_append, ih (by omega)]
    rfl
  | reserve name arity h ih =>
    rw [insertions_append, List.length_append] at hnew
    rw [fillings_append, ih (by omega)]
    rfl
  | @fill ops filled d h hfilled ih =>
    rw [insertions_append, List.length_append] at hnew
    have hne : filled ≠ handle := Nat.ne_of_lt (Nat.lt_of_lt_of_le hfilled (by omega))
    rw [fillings_append, ih (by omega), fillings, List.filterMap_cons]
    simp [Operation.filling?, hne]

/-- One insertion adds one entry to the history. -/
theorem Proper.history_insertion (h : Proper ops) {op : Operation} {i : Insertion}
    (hop : op.insertion? = some i) :
    history (ops ++ [op]) =
      history ops ++ [⟨i.name, (insertions ops).length, i.arity, i.declared, none⟩] := by
  have hfill : ∀ n, fillings (ops ++ [op]) n = fillings ops n := by
    intro n
    rw [fillings_append]
    cases op with
    | fill handle d => cases hop
    | _ => exact List.append_nil _
  have hins : insertions (ops ++ [op]) = insertions ops ++ [i] := by
    rw [insertions_append, insertions, insertions, List.filterMap_cons, hop]
    rfl
  simp only [history, Insertion.entry, hfill, hins, List.zipIdx_append, List.map_append, Nat.zero_add,
    List.zipIdx_cons, List.zipIdx_nil, List.map_cons, List.map_nil, h.fillings_eq_nil (Nat.le_refl _),
    List.getLast?_nil]

/-- Filling an entry changes what is filled in there, and nothing else. -/
theorem history_fill (ops : List Operation) (handle : Handle) (d : TypeDef) :
    history (ops ++ [.fill handle d]) = (history ops).map fun e =>
      if e.seq = handle then { e with expansion := some d } else e := by
  have hins : insertions (ops ++ [.fill handle d]) = insertions ops := by
    rw [insertions_append]
    exact List.append_nil _
  rw [history, history, hins, List.map_map]
  apply List.map_congr_left
  intro ⟨i, n⟩ _
  simp only [Function.comp_apply, Insertion.entry, fillings_append]
  by_cases hn : n = handle
  · subst hn
    simp [fillings, Operation.filling?]
  · simp [fillings, Operation.filling?, hn, Ne.symm hn]

/-! ## A table and its history -/

/-- A table holds the entries of its history, in order. -/
theorem toList_replay (h : Proper ops) : (replay ops).toList = history ops := by
  have hinsert : ∀ (t : Table) name arity declared, (t.insert name arity declared).toList =
      t.toList ++ [⟨name, t.toList.length, arity, declared, none⟩] := by
    intro t name arity declared
    rw [toList, insert, List.reverse_cons, next, size, toList, List.length_reverse]
  have hlength : ∀ ops : List Operation, (history ops).length = (insertions ops).length := by
    intro ops
    rw [history, List.length_map, List.length_zipIdx]
  induction h with
  | nil => rfl
  | seed name arity declared h ih =>
    rw [replay_concat, h.history_insertion rfl, ← ih, ← hlength, ← ih]
    exact hinsert _ _ _ _
  | reserve name arity h ih =>
    rw [replay_concat, h.history_insertion rfl, ← ih, ← hlength, ← ih]
    exact hinsert _ _ _ _
  | fill d h hhandle ih =>
    rw [replay_concat, history_fill, ← ih]
    exact List.map_reverse.symm

theorem positional_replay (ops : List Operation) : (replay ops).Positional := by
  induction ops using List.reverseRecOn with
  | nil => exact positional_empty
  | append_singleton ops op ih =>
    rw [replay_concat]
    cases op with
    | seed name arity declared => exact ih.insert _ _ _
    | reserve name arity => exact ih.insert _ _ _
    | fill handle d => exact ih.fill _ _

theorem Positional.map_seq_toList (h : t.Positional) : t.toList.map Entry.seq = List.range t.size := by
  rw [toList, List.map_reverse, h, List.reverse_reverse]

theorem length_toList (t : Table) : t.toList.length = t.size := List.length_reverse

/-- A handle is the place of an entry. -/
theorem Positional.get?_eq (h : t.Positional) (handle : Handle) : t.get? handle = t.toList[handle]? := by
  cases hentry : t.toList[handle]? with
  | some e =>
    obtain ⟨hlt, rfl⟩ := List.getElem?_eq_some_iff.1 hentry
    have hseq : (t.toList[handle]).seq = handle := by
      have hmap := congrArg (·[handle]?) h.map_seq_toList
      rw [List.getElem?_map, hentry, List.getElem?_range (length_toList t ▸ hlt)] at hmap
      exact Option.some.inj hmap
    have hmem : t.toList[handle] ∈ t.latest := List.mem_reverse.1 (List.getElem_mem hlt)
    have hfind := find?_key_of_mem h.nodup hmem
    rwa [hseq] at hfind
  | none =>
    have hout : t.size ≤ handle := length_toList t ▸ List.getElem?_eq_none_iff.1 hentry
    refine List.find?_eq_none.2 fun e he heq => ?_
    have hseq : e.seq ∈ List.range t.size := by
      rw [← h.map_seq_toList]
      exact List.mem_map_of_mem (List.mem_reverse.2 he)
    rw [beq_iff_eq.1 heq, List.mem_range] at hseq
    exact Nat.not_lt.2 hout hseq

/-- A name stands for the last entry of that name. -/
theorem find?_eq_some_iff {name : String} {e : Entry} : t.find? name = some e ↔
    e.name = name ∧ ∃ before after, t.toList = before ++ e :: after ∧ ∀ later ∈ after, later.name ≠ name := by
  rw [find?, List.find?_eq_some_iff_append]
  simp only [beq_iff_eq, Bool.not_eq_true', beq_eq_false_iff_ne]
  refine and_congr_right fun _ => ?_
  constructor
  · rintro ⟨after, before, hlatest, hlater⟩
    refine ⟨before.reverse, after.reverse, ?_, fun later hmem => hlater later (List.mem_reverse.1 hmem)⟩
    rw [toList, hlatest]
    simp
  · rintro ⟨before, after, htable, hlater⟩
    refine ⟨after.reverse, before.reverse, ?_, fun later hmem => hlater later (List.mem_reverse.1 hmem)⟩
    rw [← List.reverse_reverse t.latest]
    show t.toList.reverse = _
    rw [htable]
    simp

/-- The handle that the next insertion gets is the number of insertions so far. -/
theorem next_replay (ops : List Operation) : (replay ops).next = (insertions ops).length := by
  induction ops using List.reverseRecOn with
  | nil => rfl
  | append_singleton ops op ih =>
    rw [replay_concat, insertions_append, List.length_append, ← ih]
    cases op with
    | seed name arity declared => rfl
    | reserve name arity => rfl
    | fill handle d => exact List.length_map ..

theorem names_history (ops : List Operation) :
    (history ops).map Entry.name = (insertions ops).map Insertion.name := by
  have hfst : (insertions ops).zipIdx.map Prod.fst = insertions ops := List.zipIdx_map_fst ..
  rw [history, List.map_map, ← congrArg (List.map Insertion.name) hfst, List.map_map]
  rfl

/-- The entry of an insertion stands at the place that it got, whatever is done later. -/
theorem history_getElem? {before after : List Operation} {op : Operation} {i : Insertion}
    (hop : op.insertion? = some i) : (history (before ++ op :: after))[(insertions before).length]? =
      some (i.entry (before ++ op :: after) (insertions before).length) := by
  have hins : insertions (before ++ op :: after) = insertions before ++ i :: insertions after := by
    rw [insertions_append]
    simp only [insertions, List.filterMap_cons, hop]
  rw [history, List.getElem?_map, List.getElem?_zipIdx, hins, List.getElem?_append_right (Nat.le_refl _),
    Nat.sub_self, Nat.zero_add]
  rfl

/-- What the history of a table says is drained from it. -/
theorem drain_replay (h : Proper ops) (keepPoly : Bool) : (replay ops).drain keepPoly =
    (insertions ops).zipIdx.filterMap fun (i, n) =>
      if i.arity = 0 ∨ keepPoly = true then (fillings ops n).getLast? else none := by
  rw [drain, toList_replay h, history, List.filter_map, List.filterMap_map, List.filterMap_filter]
  refine List.filterMap_congr fun ⟨i, n⟩ _ => ?_
  simp [Insertion.entry]

/-- A name is known if it was ever inserted. -/
theorem contains_replay_iff (h : Proper ops) {name : String} :
    (replay ops).contains name = true ↔ ∃ i ∈ insertions ops, i.name = name := by
  rw [contains_iff, ← List.mem_reverse, ← List.map_reverse]
  show name ∈ (replay ops).toList.map Entry.name ↔ _
  rw [toList_replay h, names_history, List.mem_map]

/-- The history splits where the insertions do. -/
theorem history_eq_append_cons_iff {before after : List Entry} {e : Entry} :
    history ops = before ++ e :: after ↔ ∃ front i back, insertions ops = front ++ i :: back ∧
      before = (front.zipIdx.map fun (i, n) => i.entry ops n) ∧ e = i.entry ops front.length ∧
        after = (back.zipIdx (front.length + 1)).map fun (i, n) => i.entry ops n := by
  rw [history, List.map_eq_append_iff]
  constructor
  · rintro ⟨left, right, hsplit, rfl, hright⟩
    obtain ⟨⟨i, n⟩, rest, rfl, rfl, rfl⟩ := List.map_eq_cons_iff.1 hright
    obtain ⟨front, others, hinsertions, rfl, hothers⟩ := List.zipIdx_eq_append_iff.1 hsplit
    obtain ⟨i', back, rfl, heq, rfl⟩ := List.zipIdx_eq_cons_iff.1 hothers.symm
    obtain ⟨rfl, rfl⟩ := Prod.mk.inj heq
    exact ⟨front, i, back, hinsertions, rfl, by rw [Nat.zero_add], by rw [Nat.zero_add]⟩
  · rintro ⟨front, i, back, hinsertions, rfl, rfl, rfl⟩
    refine ⟨front.zipIdx, (i, front.length) :: back.zipIdx (front.length + 1), ?_, rfl, rfl⟩
    rw [hinsertions, List.zipIdx_append, Nat.zero_add, List.zipIdx_cons]

/-- A name stands for its last insertion. -/
theorem find?_replay_eq_some_iff (h : Proper ops) {name : String} {e : Entry} :
    (replay ops).find? name = some e ↔ ∃ before i after, insertions ops = before ++ i :: after ∧
      i.name = name ∧ e = i.entry ops before.length ∧ ∀ later ∈ after, later.name ≠ name := by
  have hnames : ∀ (after : List Insertion) (start : Nat), (∀ later ∈ (after.zipIdx start).map
      (fun (i, n) => i.entry ops n), later.name ≠ name) ↔ ∀ later ∈ after, later.name ≠ name := by
    intro after start
    have hfst := List.zipIdx_map_fst start after
    rw [List.forall_mem_map]
    conv_rhs => rw [← hfst, List.forall_mem_map]
    rfl
  rw [find?_eq_some_iff, toList_replay h]
  simp only [history_eq_append_cons_iff]
  constructor
  · rintro ⟨rfl, _, _, ⟨before, i, after, hinsertions, rfl, rfl, rfl⟩, hlater⟩
    exact ⟨before, i, after, hinsertions, rfl, rfl, (hnames after _).1 hlater⟩
  · rintro ⟨before, i, after, hinsertions, rfl, rfl, hlater⟩
    exact ⟨rfl, _, _, ⟨before, i, after, hinsertions, rfl, rfl, rfl⟩, (hnames after _).2 hlater⟩

end Table

end Monomorph
