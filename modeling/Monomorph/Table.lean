import Monomorph.TypeExpr.Basic

/-!
# The table of definitions

The table records definitions in the order in which they are inserted. An entry is inserted with
what is declared for it, if anything is, and is filled later with its expansion. An entry that is
looked up before it is filled is still being expanded.

A name that is inserted again hides the earlier entry of that name, which keeps its handle and stays
in the table.
-/

namespace Monomorph

/-- The place of an entry in the order of insertion, counted from zero. -/
abbrev Handle := Nat

/-- What the table knows of a name. -/
structure Entry where
  name : String
  /-- The place in the order of insertion. -/
  seq : Handle
  arity : Nat
  /-- The definition as declared; there is none for opaque built-ins and specializations. -/
  declared : Option TypeDef
  /-- The definition after expansion, once it is known. -/
  expansion : Option TypeDef
deriving DecidableEq, Repr

/-- Whether the expansion is known. -/
def Entry.isFilled (e : Entry) : Bool := e.expansion.isSome

/-- A table of definitions; its entries are kept with the latest one first. -/
structure Table where
  latest : List Entry
deriving DecidableEq, Repr

namespace Table

/-- No entry at all. -/
def empty : Table := ⟨[]⟩

instance : EmptyCollection Table := ⟨empty⟩

instance : Inhabited Table := ⟨∅⟩

/-- The number of entries. -/
def size (t : Table) : Nat := t.latest.length

/-- The entries in the order of insertion. -/
def toList (t : Table) : List Entry := t.latest.reverse

/-- The handle that the next entry gets. -/
def next (t : Table) : Handle := t.size

/-- Insert an entry that is not filled. -/
def insert (t : Table) (name : String) (arity : Nat) (declared : Option TypeDef) : Table :=
  ⟨⟨name, t.next, arity, declared, none⟩ :: t.latest⟩

/-- Insert an entry for a specialization that is about to be computed. -/
def reserve (t : Table) (name : String) (arity : Nat) : Table := t.insert name arity none

/-- Store the expansion of an entry. -/
def fill (t : Table) (handle : Handle) (d : TypeDef) : Table :=
  ⟨t.latest.map fun e => if e.seq = handle then { e with expansion := some d } else e⟩

/-- The entry with a handle. -/
def get? (t : Table) (handle : Handle) : Option Entry := t.latest.find? (·.seq == handle)

/-- The latest entry for a name. -/
def find? (t : Table) (name : String) : Option Entry := t.latest.find? (·.name == name)

/-- Whether there is an entry for a name. -/
def contains (t : Table) (name : String) : Bool := (t.find? name).isSome

/-- The expansions that are known, in the order of insertion; those of generics only on demand. -/
def drain (t : Table) (keepPoly : Bool) : List TypeDef :=
  (t.toList.filter fun e => e.arity == 0 || keepPoly).filterMap Entry.expansion

end Table

end Monomorph
