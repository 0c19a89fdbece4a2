import Monomorph.Table
import Std.Data.HashMap

/-!
# An arena of definitions

An arena keeps the entries of a table in an array: a slot stays where it was put, and its place is the
handle of the entry. An index leads from a name to the slot that was made for it last, so a slot whose name
is used again can only be reached by its handle. An allocator with a counter of 32 bits numbers the slots in
the order in which they are made, and what is drained is sorted by these numbers.

The array, the index and the counter know nothing of each other. `Arena.Refines` says that they agree, and
with which table.
-/

namespace Monomorph

/-- The number of a slot in the order of creation. -/
structure SeqNo where
  val : UInt32
deriving DecidableEq, Repr

instance : LE SeqNo := ⟨fun m n => m.val ≤ n.val⟩

instance : DecidableLE SeqNo := fun m n => inferInstanceAs (Decidable (m.val ≤ n.val))

/-- An allocator of such numbers: the one that is given out next. -/
structure SeqAllocator where
  next : UInt32 := 0
deriving DecidableEq, Repr

namespace SeqAllocator

/-- Give out a number. The counter starts again when it overflows. -/
def alloc (numbers : SeqAllocator) : SeqNo × SeqAllocator := (⟨numbers.next⟩, ⟨numbers.next + 1⟩)

/-- How many numbers were given out. -/
def count (numbers : SeqAllocator) : UInt32 := numbers.next

end SeqAllocator

/-- The place of a slot in an arena. -/
structure SlotId where
  index : Nat
deriving DecidableEq, Repr

/-- An entry in its place. -/
structure Arena.Slot where
  name : String
  seq : SeqNo
  arity : Nat
  /-- The definition as declared; there is none for opaque built-ins and specializations. -/
  declared : Option TypeDef
  /-- The definition after expansion, once it is known. -/
  expansion : Option TypeDef
deriving DecidableEq, Repr

/-- Whether the expansion is known. -/
def Arena.Slot.isFilled (s : Arena.Slot) : Bool := s.expansion.isSome

/-- Slots in the order of creation, the latest one for each name, and the numbers that are left. -/
structure Arena where
  slots : Array Arena.Slot
  index : Std.HashMap String SlotId
  numbers : SeqAllocator

namespace Arena

/-- No slot at all. -/
def empty : Arena := ⟨#[], ∅, {}⟩

instance : EmptyCollection Arena := ⟨empty⟩

instance : Inhabited Arena := ⟨∅⟩

/-- The number of slots. -/
def size (a : Arena) : Nat := a.slots.size

/-- Whether there is no slot. -/
def isEmpty (a : Arena) : Bool := a.slots.isEmpty

/-- Make a slot that is not filled. -/
def insert (a : Arena) (name : String) (arity : Nat) (declared : Option TypeDef) : SlotId × Arena :=
  let id : SlotId := ⟨a.slots.size⟩
  let (seq, numbers) := a.numbers.alloc
  (id, { slots := a.slots.push ⟨name, seq, arity, declared, none⟩
         index := a.index.insert name id
         numbers := numbers })

/-- Make a slot for a built-in or a definition. -/
def seed (a : Arena) (name : String) (arity : Nat) (declared : Option TypeDef) : SlotId × Arena :=
  a.insert name arity declared

/-- Make a slot for a specialization that is about to be computed. -/
def reserve (a : Arena) (name : String) (arity : Nat) : SlotId × Arena := a.insert name arity none

/-- The slot with a handle, if the handle is one of this arena. -/
def get? (a : Arena) (id : SlotId) : Option Slot := a.slots[id.index]?

/-- Store the expansion of a slot, if the handle is one of this arena. -/
def fill? (a : Arena) (id : SlotId) (d : TypeDef) : Option Arena :=
  if h : id.index < a.slots.size then
    some { a with slots := a.slots.set id.index { a.slots[id.index] with expansion := some d } }
  else none

/-- The handle of the latest slot for a name. -/
def lookup (a : Arena) (name : String) : Option SlotId := a.index[name]?

/-- The latest slot for a name. -/
def find? (a : Arena) (name : String) : Option Slot := (a.lookup name).bind a.get?

/-- Whether there is a slot for a name. -/
def contains (a : Arena) (name : String) : Bool := a.index.contains name

/-- The expansions that are known, in the order of their numbers; those of generics only on demand. -/
def drain (a : Arena) (keepPoly : Bool) : List TypeDef :=
  let kept := a.slots.toList.filter fun s => s.arity == 0 || keepPoly
  let filled := kept.filterMap fun s => s.expansion.map (s.seq, ·)
  (filled.mergeSort fun x y => x.1 ≤ y.1).map Prod.snd

end Arena

end Monomorph
