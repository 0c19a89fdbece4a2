import Mathlib.Algebra.Group.Nat.Defs
import Monomorph.Arena
import Monomorph.Proofs.Table.History

/-!
# The arena keeps the history of a table

An arena is right if its array, its index and its counter agree. `Arena.Refines` states this against a table:
the slots are its entries in order, the index has the handle of the latest entry of each name, and the counter
stands at the number of entries. Every operation keeps it, as long as the counter does not overflow, so an
arena answers like the table that the same operations lead to, and `Arena.reflects_replay` says what it
answers in terms of the operations alone.
-/

namespace Monomorph

open Table (Operation Insertion insertions fillings history Proper)

/-- The entry of a table that a slot holds. -/
def Arena.Slot.entry (s : Arena.Slot) : Entry := ⟨s.name, s.seq.val.toNat, s.arity, s.declared, s.expansion⟩

namespace Arena

variable {a : Arena} {t : Table}

/-- The parts of an arena agree with each other, and with a table. -/
structure Refines (a : Arena) (t : Table) : Prop where
  /-- The slots hold the entries of the table. -/
  entries : a.slots.toList.map Slot.entry = t.toList
  /-- The index has the handle of the latest entry for each name. -/
  index : ∀ name, a.index[name]? = (t.find? name).map fun e => ⟨e.seq⟩
  /-- The numbers that were given out are those of the slots. -/
  numbers : a.numbers.next.toNat = t.size
  positional : t.Positional

theorem refines_empty : Refines ∅ ∅ where
  entries := rfl
  index _ := Std.HashMap.getElem?_empty
  numbers := rfl
  positional := Table.positional_empty

theorem contains_eq_false {name : String} (h : a.lookup name = none) : a.contains name = false := by
  rw [contains, Std.HashMap.contains_eq_isSome_getElem?]
  exact Option.isSome_eq_false_iff.2 (Option.isNone_iff_eq_none.2 h)

namespace Refines

/-! ## Answers -/

theorem size_eq (h : a.Refines t) : a.size = t.size := by
  rw [← Table.length_toList, ← h.entries, List.length_map, Array.length_toList]
  rfl

theorem get?_eq (h : a.Refines t) (id : SlotId) : (a.get? id).map Slot.entry = t.get? id.index := by
  rw [h.positional.get?_eq, ← h.entries, List.getElem?_map, Array.getElem?_toList]
  rfl

theorem lookup_eq (h : a.Refines t) (name : String) :
    a.lookup name = (t.find? name).map fun e => ⟨e.seq⟩ := h.index name

theorem contains_eq (h : a.Refines t) (name : String) : a.contains name = t.contains name := by
  rw [contains, Std.HashMap.contains_eq_isSome_getElem?, h.index, Option.isSome_map]
  rfl

/-- The handle in the index is always one of the arena. -/
theorem find?_eq (h : a.Refines t) (name : String) : (a.find? name).map Slot.entry = t.find? name := by
  rw [find?, h.lookup_eq, Option.map_bind]
  cases hfind : t.find? name with
  | none => rfl
  | some e =>
    have hentry : (a.get? ⟨e.seq⟩).map Slot.entry = t.get? e.seq := h.get?_eq ⟨e.seq⟩
    exact hentry.trans (Table.find?_key_of_mem h.positional.nodup (Table.find?_eq_some hfind).1)

/-- The slots stand in the order of their numbers, so nothing moves when they are sorted. -/
theorem drain_eq (h : a.Refines t) (keepPoly : Bool) : a.drain keepPoly = t.drain keepPoly := by
  have hseq : a.slots.toList.map (fun s => s.seq.val.toNat) = List.range t.size := by
    rw [← h.positional.map_seq_toList, ← h.entries, List.map_map]
    rfl
  have hsorted : a.slots.toList.Pairwise fun s s' => s.seq.val.toNat ≤ s'.seq.val.toNat := by
    rw [← List.pairwise_map (f := fun s : Slot => s.seq.val.toNat) (R := (· ≤ ·)), hseq]
    exact List.pairwise_le_range
  have hfilled : ((a.slots.toList.filter fun s => s.arity == 0 || keepPoly).filterMap
      fun s => s.expansion.map (s.seq, ·)).Pairwise fun x y => x.1 ≤ y.1 := by
    refine (hsorted.filter _).filterMap _ fun s s' hle x hx y hy => ?_
    obtain ⟨d, -, rfl⟩ := Option.map_eq_some_iff.1 hx
    obtain ⟨d', -, rfl⟩ := Option.map_eq_some_iff.1 hy
    exact UInt32.le_iff_toNat_le.2 hle
  rw [drain, List.mergeSort_of_pairwise (by simpa using hfilled), Table.drain, ← h.entries,
    List.filter_map, List.filterMap_map, List.map_filterMap]
  refine List.filterMap_congr fun s _ => ?_
  rw [Option.map_map, Function.comp_apply]
  exact Option.map_id' ..

/-- The index leads to a slot with the name that was looked up. -/
theorem known (h : a.Refines t) {name : String} {id : SlotId} (hid : a.lookup name = some id) :
    a.contains name = true ∧ ∃ s, a.get? id = some s ∧ a.find? name = some s ∧ s.name = name := by
  rw [h.lookup_eq] at hid
  obtain ⟨e, hfind, rfl⟩ := Option.map_eq_some_iff.1 hid
  have hentry := h.find?_eq name
  rw [hfind] at hentry
  obtain ⟨s, hs, rfl⟩ := Option.map_eq_some_iff.1 hentry
  refine ⟨?_, s, ?_, hs, (Table.find?_eq_some hfind).2⟩
  · rw [h.contains_eq, Table.contains, hfind]
    rfl
  · rw [find?, h.lookup_eq, hfind] at hs
    exact hs

/-! ## Operations -/

theorem insert_fst (h : a.Refines t) (name : String) (arity : Nat) (declared : Option TypeDef) :
    (a.insert name arity declared).1 = ⟨t.next⟩ := congrArg SlotId.mk h.size_eq

theorem insert (h : a.Refines t) (hroom : t.size + 1 < 2 ^ 32) (name : String) (arity : Nat)
    (declared : Option TypeDef) :
    (a.insert name arity declared).2.Refines (t.insert name arity declared) where
  entries := by
    have htoList : (t.insert name arity declared).toList =
        t.toList ++ [⟨name, t.size, arity, declared, none⟩] := by
      rw [Table.toList, Table.insert, List.reverse_cons]
      rfl
    rw [htoList, ← h.entries, ← h.numbers]
    simp [Arena.insert, SeqAllocator.alloc, Slot.entry]
  index other := by
    rw [Table.find?_insert]
    have hindex : (a.insert name arity declared).2.index = a.index.insert name ⟨a.slots.size⟩ := rfl
    rw [hindex, Std.HashMap.getElem?_insert, h.index]
    by_cases hname : name = other
    · rw [if_pos hname, if_pos (beq_iff_eq.2 hname)]
      exact congrArg (fun n => some (SlotId.mk n)) h.size_eq
    · rw [if_neg hname, if_neg (mt beq_iff_eq.1 hname)]
  numbers := by
    have hnext : (a.insert name arity declared).2.numbers.next = a.numbers.next + 1 := rfl
    rw [hnext, UInt32.toNat_add, h.numbers]
    exact Nat.mod_eq_of_lt hroom
  positional := h.positional.insert name arity declared

theorem toList_slots_fill (h : a.Refines t) {handle : Handle} (hlt : handle < a.slots.size) (d : TypeDef) :
    (a.slots.set handle { a.slots[handle] with expansion := some d }).toList.map Slot.entry =
      (t.fill handle d).toList := by
  have hfill : (t.fill handle d).toList =
      t.toList.map fun e => if e.seq = handle then { e with expansion := some d } else e :=
    List.map_reverse.symm
  rw [hfill, ← h.entries, List.map_map]
  apply List.ext_getElem (by simp)
  intro n hn hn'
  have hlt' : n < a.slots.size := by simpa using hn'
  have hseq : a.slots[n].seq.val.toNat = n := by
    have hmap := congrArg (·[n]?) h.positional.map_seq_toList
    rw [← h.entries, List.map_map] at hmap
    simpa [hlt', ← h.size_eq, Arena.size, Slot.entry] using hmap
  by_cases hhandle : handle = n
  · subst hhandle
    simp [Slot.entry, hseq]
  · have hne : n ≠ handle := Ne.symm hhandle
    simp [Slot.entry, hseq, hhandle, hne]

theorem fill (h : a.Refines t) {handle : Handle} (hhandle : handle < t.size) (d : TypeDef) :
    ∃ a', a.fill? ⟨handle⟩ d = some a' ∧ a'.Refines (t.fill handle d) := by
  have hlt : handle < a.size := h.size_eq.symm ▸ hhandle
  refine ⟨_, dif_pos hlt, ⟨h.toList_slots_fill hlt d, fun name => ?_, ?_, ?_⟩⟩
  · rw [Table.find?_fill, Option.map_map]
    refine (h.index name).trans (congrArg (Option.map · _) (funext fun e => ?_))
    simp only [Function.comp_apply]
    split <;> rfl
  · exact h.numbers.trans (List.length_map ..).symm
  · exact h.positional.fill handle d

end Refines

/-! ## Runs -/

variable {ops : List Operation}

/-- Do an operation, and return the handle of the slot that it is about. To fill a slot of some other arena has
no result. -/
def run (a : Arena) : Operation → Option (SlotId × Arena)
  | .seed name arity declared => some (a.seed name arity declared)
  | .reserve name arity => some (a.reserve name arity)
  | .fill handle d => (a.fill? ⟨handle⟩ d).map (⟨handle⟩, ·)

/-- An arena after some operations, if each of them has a result. -/
def replay (ops : List Operation) : Option Arena := ops.foldlM (fun a op => (a.run op).map Prod.snd) ∅

theorem replay_concat (ops : List Operation) (op : Operation) :
    replay (ops ++ [op]) = (replay ops).bind fun a => (a.run op).map Prod.snd := by
  rw [replay, List.foldlM_append]
  simp only [List.foldlM_cons, List.foldlM_nil, bind_pure]
  rfl

/-- An insertion gets the next handle of the table. -/
theorem Refines.run_insertion (h : a.Refines t) {op : Operation} {i : Insertion} (hop : op.insertion? = some i) :
    ∃ later, a.run op = some (⟨t.next⟩, later) := by
  have hinsert : ∀ name arity declared,
      some (a.insert name arity declared) = some (⟨t.next⟩, (a.insert name arity declared).2) :=
    fun name arity declared => congrArg some (Prod.ext (h.insert_fst name arity declared) rfl)
  cases op with
  | seed name arity declared => exact ⟨_, hinsert name arity declared⟩
  | reserve name arity => exact ⟨_, hinsert name arity none⟩
  | fill handle d => cases hop

theorem size_replay (ops : List Operation) : (Table.replay ops).size = (insertions ops).length :=
  Table.next_replay ops

/-- The parts of an arena agree after any operations, while there are numbers left. -/
theorem refines_replay (h : Proper ops) (hroom : (insertions ops).length < 2 ^ 32) :
    ∃ a, replay ops = some a ∧ a.Refines (Table.replay ops) := by
  have hinsert : ∀ {a : Arena} {ops : List Operation} {op : Operation} {name arity declared},
      (insertions (ops ++ [op])).length < 2 ^ 32 → op.insertion? = some ⟨name, arity, declared⟩ →
      a.Refines (Table.replay ops) →
      (a.insert name arity declared).2.Refines ((Table.replay ops).insert name arity declared) := by
    intro a ops op name arity declared hroom hop ha
    refine ha.insert ?_ name arity declared
    rw [Table.insertions_append, List.length_append] at hroom
    rw [size_replay]
    simpa [insertions, hop] using hroom
  induction h with
  | nil => exact ⟨∅, rfl, refines_empty⟩
  | @seed ops name arity declared h ih =>
    obtain ⟨a, ha, hrefines⟩ := ih (Nat.lt_of_le_of_lt (by simp [Table.insertions_append]) hroom)
    refine ⟨(a.insert name arity declared).2, ?_, ?_⟩
    · rw [replay_concat, ha]
      rfl
    · rw [Table.replay_concat]
      exact hinsert hroom rfl hrefines
  | @reserve ops name arity h ih =>
    obtain ⟨a, ha, hrefines⟩ := ih (Nat.lt_of_le_of_lt (by simp [Table.insertions_append]) hroom)
    refine ⟨(a.insert name arity none).2, ?_, ?_⟩
    · rw [replay_concat, ha]
      rfl
    · rw [Table.replay_concat]
      exact hinsert hroom rfl hrefines
  | @fill ops handle d h hhandle ih =>
    obtain ⟨a, ha, hrefines⟩ := ih (Nat.lt_of_le_of_lt (by simp [Table.insertions_append]) hroom)
    obtain ⟨a', hfill, hrefines'⟩ := hrefines.fill (size_replay ops ▸ hhandle) d
    refine ⟨a', ?_, ?_⟩
    · rw [replay_concat, ha, Option.bind_some, run, hfill]
      rfl
    · rw [Table.replay_concat]
      exact hrefines'

/-- What an arena tells of the operations that have led to it. -/
structure Reflects (ops : List Operation) (a : Arena) : Prop where
  /-- There is one slot for each insertion. -/
  size : a.size = (insertions ops).length
  /-- An insertion gets the number of insertions before it as its handle, and the slot there has that number
  and what was inserted ever after. -/
  inserted : ∀ before op after i, ops = before ++ op :: after → op.insertion? = some i →
    ∃ earlier later s, replay before = some earlier ∧
      earlier.run op = some (⟨(insertions before).length⟩, later) ∧
      a.get? ⟨(insertions before).length⟩ = some s ∧ s.seq.val.toNat = (insertions before).length ∧
        s.name = i.name ∧ s.arity = i.arity ∧ s.declared = i.declared
  /-- A slot has what was filled into it last. -/
  expansion : ∀ id s, a.get? id = some s → s.expansion = (fillings ops id.index).getLast?
  /-- A name leads to the handle of its last insertion. -/
  found : ∀ name id, a.lookup name = some id ↔ ∃ before i after, insertions ops = before ++ i :: after ∧
    i.name = name ∧ id = ⟨before.length⟩ ∧ ∀ later ∈ after, later.name ≠ name
  /-- A name that leads to a handle is known, and has the slot there. -/
  known : ∀ name id, a.lookup name = some id →
    a.contains name = true ∧ ∃ s, a.get? id = some s ∧ a.find? name = some s ∧ s.name = name
  /-- A name that leads to no handle was never inserted. -/
  unknown : ∀ name, a.lookup name = none →
    a.contains name = false ∧ a.find? name = none ∧ ∀ i ∈ insertions ops, i.name ≠ name
  /-- To fill a slot changes its expansion, and nothing else. -/
  filled : ∀ id d, id.index < a.size → ∃ a', a.fill? id d = some a' ∧ a'.index = a.index ∧
    a'.numbers = a.numbers ∧ a'.size = a.size ∧ ∀ other, a'.get? other =
      (a.get? other).map fun s => if other = id then { s with expansion := some d } else s
  /-- What was filled in last is drained in the order of insertion, that of generics only on demand. -/
  drained : ∀ keepPoly, a.drain keepPoly = (insertions ops).zipIdx.filterMap fun (i, n) =>
    if i.arity = 0 ∨ keepPoly = true then (fillings ops n).getLast? else none

theorem get?_fill {id : SlotId} (hid : id.index < a.size) (d : TypeDef) :
    ∃ a', a.fill? id d = some a' ∧ a'.index = a.index ∧ a'.numbers = a.numbers ∧ a'.size = a.size ∧
      ∀ other, a'.get? other =
        (a.get? other).map fun s => if other = id then { s with expansion := some d } else s := by
  have hlt : id.index < a.slots.size := hid
  refine ⟨_, dif_pos hlt, rfl, rfl, Array.size_set hlt, fun other => ?_⟩
  simp only [get?, Array.getElem?_set]
  by_cases hother : other = id
  · subst hother
    simp [hlt]
  · have hindex : id.index ≠ other.index := fun heq => hother (congrArg SlotId.mk heq.symm)
    simp [hindex, hother]

/-- The slot of an insertion, as long as only what is filled in changes. -/
theorem Refines.get?_of_insertion (h : a.Refines (Table.replay ops)) (hproper : Proper ops)
    {before after : List Operation} {op : Operation} {i : Insertion} (hops : ops = before ++ op :: after)
    (hop : op.insertion? = some i) : ∃ s, a.get? ⟨(insertions before).length⟩ = some s ∧
      s.entry = i.entry ops (insertions before).length := by
  have hentry := h.get?_eq ⟨(insertions before).length⟩
  rw [(Table.positional_replay ops).get?_eq, Table.toList_replay hproper] at hentry
  subst hops
  rw [Table.history_getElem? hop] at hentry
  exact Option.map_eq_some_iff.1 hentry

theorem Refines.expansion_eq (h : a.Refines (Table.replay ops)) (hproper : Proper ops) {id : SlotId}
    {s : Slot} (hs : a.get? id = some s) : s.expansion = (fillings ops id.index).getLast? := by
  have hentry := h.get?_eq id
  rw [hs, (Table.positional_replay ops).get?_eq, Table.toList_replay hproper, history, List.getElem?_map,
    List.getElem?_zipIdx, Option.map_map, Nat.zero_add] at hentry
  obtain ⟨i, -, hentry⟩ := Option.map_eq_some_iff.1 hentry.symm
  exact congrArg Entry.expansion hentry.symm

theorem Refines.lookup_eq_some_iff (h : a.Refines (Table.replay ops)) (hproper : Proper ops) {name : String}
    {id : SlotId} : a.lookup name = some id ↔ ∃ before i after, insertions ops = before ++ i :: after ∧
      i.name = name ∧ id = ⟨before.length⟩ ∧ ∀ later ∈ after, later.name ≠ name := by
  rw [h.lookup_eq, Option.map_eq_some_iff]
  simp only [Table.find?_replay_eq_some_iff hproper]
  constructor
  · rintro ⟨_, ⟨before, i, after, hsplit, hname, rfl, hlater⟩, rfl⟩
    exact ⟨before, i, after, hsplit, hname, rfl, hlater⟩
  · rintro ⟨before, i, after, hsplit, hname, rfl, hlater⟩
    exact ⟨_, ⟨before, i, after, hsplit, hname, rfl, hlater⟩, rfl⟩

/-- An arena reflects what was done to it, however often names are inserted and slots are filled. -/
theorem reflects_replay (h : Proper ops) (hroom : (insertions ops).length < 2 ^ 32) :
    ∃ a, replay ops = some a ∧ Reflects ops a := by
  obtain ⟨a, ha, hrefines⟩ := refines_replay h hroom
  refine ⟨a, ha, ?_⟩
  constructor
  case size => rw [hrefines.size_eq, size_replay]
  case inserted =>
    intro before op after i hops hop
    have hbefore : Proper before := (hops ▸ h).of_append
    have hinsertions : insertions ops = insertions before ++ insertions (op :: after) := by
      rw [hops, Table.insertions_append]
    have hroom' : (insertions before).length < 2 ^ 32 := by
      rw [hinsertions, List.length_append] at hroom
      omega
    obtain ⟨earlier, hearlier, hrefines'⟩ := refines_replay hbefore hroom'
    obtain ⟨later, hlater⟩ := hrefines'.run_insertion hop
    rw [Table.next_replay] at hlater
    obtain ⟨s, hs, hentry⟩ := hrefines.get?_of_insertion h hops hop
    exact ⟨earlier, later, s, hearlier, hlater, hs, congrArg Entry.seq hentry, congrArg Entry.name hentry,
      congrArg Entry.arity hentry, congrArg Entry.declared hentry⟩
  case expansion => exact fun id s hs => hrefines.expansion_eq h hs
  case found => exact fun name id => hrefines.lookup_eq_some_iff h
  case known => exact fun name id hid => hrefines.known hid
  case unknown =>
    intro name hnone
    have hunknown := contains_eq_false hnone
    refine ⟨hunknown, by rw [find?, hnone]; rfl, fun i hi hname => ?_⟩
    rw [hrefines.contains_eq] at hunknown
    exact Bool.eq_false_iff.1 hunknown ((Table.contains_replay_iff h).2 ⟨i, hi, hname⟩)
  case filled => exact fun id d hid => get?_fill hid d
  case drained => exact fun keepPoly => (hrefines.drain_eq keepPoly).trans (Table.drain_replay h keepPoly)

/-- A name that is inserted twice, and slots that are filled late and more than once. -/
def shadowed : List Operation :=
  [.seed "int" 0 none, .seed "box" 1 (some ⟨"box", ["a"], ∅, .var "a" ∅⟩), .reserve "@(int box)" 0,
    .reserve "box" 0, .fill 3 ⟨"box", [], ∅, .atom "int"⟩, .fill 2 ⟨"@(int box)", [], ∅, .atom "box"⟩,
    .fill 1 ⟨"box", ["a"], ∅, .var "a" ∅⟩, .fill 2 ⟨"@(int box)", [], ∅, .atom "int"⟩]

theorem proper_shadowed : Proper shadowed := by
  have h : Proper [.seed "int" 0 none, .seed "box" 1 (some ⟨"box", ["a"], ∅, .var "a" ∅⟩),
      .reserve "@(int box)" 0, .reserve "box" 0] :=
    (((Proper.nil.seed _ _ _).seed _ _ _).reserve _ _).reserve _ _
  exact (((h.fill _ (by decide)).fill _ (by decide)).fill _ (by decide)).fill _ (by decide)

/-- The first `box` is hidden, and drained all the same. -/
theorem reflects_replay_shadowed : Proper shadowed ∧ (insertions shadowed).length < 2 ^ 32 ∧
    ∃ a, replay shadowed = some a ∧ Reflects shadowed a ∧ a.lookup "box" = some ⟨3⟩ ∧
      a.drain true = [⟨"box", ["a"], ∅, .var "a" ∅⟩, ⟨"@(int box)", [], ∅, .atom "int"⟩,
        ⟨"box", [], ∅, .atom "int"⟩] := by
  have hroom : (insertions shadowed).length < 2 ^ 32 := by decide
  obtain ⟨a, ha, h⟩ := reflects_replay proper_shadowed hroom
  refine ⟨proper_shadowed, hroom, a, ha, h, ?_, (h.drained true).trans rfl⟩
  exact (h.found _ _).2 ⟨(insertions shadowed).take 3, ⟨"box", 0, none⟩, [], rfl, rfl, rfl, nofun⟩

end Arena

end Monomorph
