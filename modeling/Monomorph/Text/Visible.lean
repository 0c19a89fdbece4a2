import Monomorph.Text.Printable

/-!
# Making a text visible

Messages show a piece of source between double quotes, with an escape for each quote, each
backslash and each character that does not show on its own.
-/

namespace Monomorph.Text

/-- How a message shows one character. -/
def visibleChar (c : Char) : String :=
  match c with
  | '"' => "\\\""
  | '\\' => "\\\\"
  | '\n' => "\\n"
  | '\r' => "\\r"
  | '\t' => "\\t"
  | '\x00' => "\\0"
  | c =>
    if isPrintable c then String.singleton c
    else "\\u\x7b" ++ String.ofList (Nat.toDigits 16 c.toNat) ++ "\x7d"

/-- How a message shows a text. -/
def visible (text : List Char) : String := "\"" ++ String.join (text.map visibleChar) ++ "\""

end Monomorph.Text
