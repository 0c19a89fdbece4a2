/-!
# JSON values

A value of the data format in which definitions are exchanged. A number is a decimal fraction,
written with an integer and the count of its digits after the point. The members of an object keep
the order in which they are given; a member is found by its name.

A structure is read from an object, or from the array of its parts in order, the last of which may
be missing. A tagged structure is one of several alternatives; its tag is the member `kind` of the
object, or the first item of the array.
-/

namespace Monomorph

/-- A JSON value. -/
inductive Json where
  | null
  | bool (value : Bool)
  /-- The number `digits / 10 ^ places`. -/
  | number (digits : Int) (places : Nat)
  | string (value : String)
  | array (items : List Json)
  | object (members : List (String × Json))
deriving Repr

namespace Json

instance : Inhabited Json := ⟨null⟩

/-- A natural number. -/
def ofNat (n : Nat) : Json := number n 0

/-- The first member of an object with a name. -/
def member? : Json → String → Option Json
  | object members, name => members.lookup name
  | _, _ => none

/-- A text. -/
def toText? : Json → Option String
  | string value => some value
  | _ => none

/-- A truth value. -/
def toBool? : Json → Option Bool
  | bool value => some value
  | _ => none

/-- A natural number that fits a machine word of 64 bits. -/
def toNat? : Json → Option Nat
  | number (.ofNat n) 0 => if n < UInt64.size then some n else none
  | _ => none

/-- A list whose items are read by a function. -/
def toList? {α : Type} (read : Json → Option α) : Json → Option (List α)
  | array items => items.mapM read
  | _ => none

/-- The object that stands for a structure with named parts. An array holds the parts in order, and
none beyond them. -/
def parts? (names : List String) : Json → Option Json
  | object members => some (object members)
  | array items => if items.length ≤ names.length then some (object (names.zip items)) else none
  | _ => none

/-- One alternative of a tagged structure: its tag, and the names of its parts in order. -/
structure Alternative (α : Type) where
  value : α
  tag : String
  parts : List String
deriving DecidableEq, Repr

/-- The alternative that a tag selects, by its text or, where that is allowed, by its place among the
alternatives. -/
def alternative? {α : Type} (alternatives : List (Alternative α)) (byPlace : Bool) :
    Json → Option (Alternative α)
  | string tag => alternatives.find? (·.tag == tag)
  | json => if byPlace then json.toNat?.bind fun place => alternatives[place]? else none

/-- Which alternative a tagged structure is, and the object that stands for its parts. -/
def tagged? {α : Type} (alternatives : List (Alternative α)) (byPlace : Bool) :
    Json → Option (α × Json)
  | object members => do
    let alternative ← alternative? alternatives byPlace (← members.lookup "kind")
    return (alternative.value, object members)
  | array (tag :: items) => do
    let alternative ← alternative? alternatives byPlace tag
    return (alternative.value, ← (array items).parts? alternative.parts)
  | _ => none

/-- A member that must be there, read by a function. -/
def required? {α : Type} (read : Json → Option α) (json : Json) (name : String) : Option α :=
  (json.member? name).bind read

/-- A member that may be missing or null. -/
def optional? {α : Type} (read : Json → Option α) (json : Json) (name : String) :
    Option (Option α) :=
  match json.member? name with
  | none | some null => some none
  | some value => (read value).map some

/-- A member that may be missing but is not null, with the value it has when it is missing. -/
def defaulted? {α : Type} (read : Json → Option α) (missing : α) (json : Json) (name : String) :
    Option α :=
  match json.member? name with
  | none => some missing
  | some value => read value

mutual

/-- How deep arrays and objects are nested. -/
def depth : Json → Nat
  | array items => depthOfItems items + 1
  | object members => depthOfMembers members + 1
  | _ => 0

/-- The greatest depth among some values. -/
def depthOfItems : List Json → Nat
  | [] => 0
  | item :: rest => max (depth item) (depthOfItems rest)

/-- The greatest depth among the values of some members. -/
def depthOfMembers : List (String × Json) → Nat
  | [] => 0
  | (_, value) :: rest => max (depth value) (depthOfMembers rest)

end

end Json

end Monomorph
