import Monomorph.Json.Basic

/-!
# Writing JSON

Values are written over several lines, each level two blanks further in, with the members of an
object sorted by name. Empty arrays and objects stay on one line.
-/

namespace Monomorph.Json

/-- One character between quotes. -/
def quotedChar (c : Char) : String :=
  match c with
  | '"' => "\\\""
  | '\\' => "\\\\"
  | '\n' => "\\n"
  | '\r' => "\\r"
  | '\t' => "\\t"
  | '\x08' => "\\b"
  | '\x0c' => "\\f"
  | c =>
    if c.toNat < 0x20 then
      let digits := Nat.toDigits 16 c.toNat
      "\\u" ++ String.ofList (List.replicate (4 - digits.length) '0' ++ digits)
    else String.singleton c

/-- A text between quotes. -/
def quoted (text : String) : String :=
  "\"" ++ String.join (text.toList.map quotedChar) ++ "\""

/-- A decimal fraction with all its places. -/
def decimal (digits : Int) (places : Nat) : String :=
  if places = 0 then toString digits
  else
    let all := Nat.toDigits 10 digits.natAbs
    let padded := List.replicate (places + 1 - all.length) '0' ++ all
    let cut := padded.length - places
    (if digits < 0 then "-" else "") ++
      String.ofList (padded.take cut ++ '.' :: padded.drop cut)

/-- The blanks before a line. -/
def margin (level : Nat) : String := String.ofList (List.replicate (2 * level) ' ')

/-- Put a named text at its place among texts sorted by name. -/
def insertByName (entry : String × String) : List (String × String) → List (String × String)
  | [] => [entry]
  | other :: rest =>
    if other.1 < entry.1 then other :: insertByName entry rest else entry :: other :: rest

/-- Written parts between delimiters, each part on a line of its own. -/
def block (left right : String) (level : Nat) : List String → String
  | [] => left ++ right
  | parts =>
    left ++ "\n" ++ ",\n".intercalate (parts.map (margin (level + 1) ++ ·)) ++ "\n" ++
      margin level ++ right

mutual

/-- The written form of a value whose first line is at some level. -/
def render (level : Nat) : Json → String
  | null => "null"
  | bool value => if value then "true" else "false"
  | number digits places => decimal digits places
  | string value => quoted value
  | array items => block "[" "]" level (renderItems (level + 1) items)
  | object members =>
    let sorted := (renderMembers (level + 1) members).foldr insertByName []
    block "\x7b" "\x7d" level (sorted.map fun (name, value) => quoted name ++ ": " ++ value)

/-- The written items of an array. -/
def renderItems (level : Nat) : List Json → List String
  | [] => []
  | item :: rest => render level item :: renderItems level rest

/-- The names and the written values of the members of an object. -/
def renderMembers (level : Nat) : List (String × Json) → List (String × String)
  | [] => []
  | (name, value) :: rest => (name, render level value) :: renderMembers level rest

end

/-- The written form of a value, as the text of a file. -/
def toFile (json : Json) : String := json.render 0 ++ "\n"

end Monomorph.Json
