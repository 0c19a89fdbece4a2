/-!
# Positions in a text

Offsets and spans count the bytes of the text in UTF-8. A line ends after each line feed, and a
column counts bytes from the start of its line; both start at one.

`before?` cuts a text at an offset. An offset past the end stands for the end, and an offset inside
a character has no position.
-/

namespace Monomorph

/-- A stretch of text, from one byte offset to another. -/
structure Span where
  start : Nat
  stop : Nat
deriving DecidableEq, Repr, Inhabited

/-- A line and a column, both counted from one. -/
structure LineColumn where
  line : Nat
  column : Nat
deriving DecidableEq, Repr

namespace Text

/-- The number of bytes of a text in UTF-8. -/
def byteLength : List Char → Nat
  | [] => 0
  | c :: text => c.utf8Size + byteLength text

@[simp] theorem byteLength_nil : byteLength [] = 0 := rfl

@[simp] theorem byteLength_cons (c : Char) (text : List Char) :
    byteLength (c :: text) = c.utf8Size + byteLength text := rfl

@[simp] theorem byteLength_append (s t : List Char) :
    byteLength (s ++ t) = byteLength s + byteLength t := by
  induction s with
  | nil => simp
  | cons c s ih => simp [ih, Nat.add_assoc]

@[simp] theorem byteLength_reverse (text : List Char) :
    byteLength text.reverse = byteLength text := by
  induction text with
  | nil => rfl
  | cons c text ih => simp [ih, Nat.add_comm]

/-- The text before an offset. -/
def before? : List Char → Nat → Option (List Char)
  | _, 0 => some []
  | [], _ + 1 => some []
  | c :: rest, offset + 1 =>
    if c.utf8Size ≤ offset + 1 then (before? rest (offset + 1 - c.utf8Size)).map (c :: ·) else none

/-- The text before an offset that lies between two parts is the first part. -/
theorem before?_append (s t : List Char) : before? (s ++ t) (byteLength s) = some s := by
  induction s with
  | nil => cases t <;> rfl
  | cons c s ih =>
    obtain ⟨n, hn⟩ : ∃ n, c.utf8Size = n + 1 := ⟨c.utf8Size - 1, by have := c.utf8Size_pos; omega⟩
    rw [List.cons_append, byteLength_cons, hn, Nat.add_right_comm, before?, hn,
      if_pos (by omega), show n + byteLength s + 1 - (n + 1) = byteLength s by omega, ih]
    rfl

/-- The line and column right after a text. -/
def endPosition (text : List Char) : LineColumn where
  line := text.count '\n' + 1
  column := byteLength (text.reverse.takeWhile (· != '\n')) + 1

/-- The line and column of an offset. -/
def lineColumn? (text : List Char) (offset : Nat) : Option LineColumn :=
  (before? text offset).map endPosition

end Text

end Monomorph
