/-!
# Quoted values

The value of an annotation is written between double quotes, with a backslash before each quote and
each backslash inside it. `decode?` reads the inside of the quotes; any other use of a backslash has
no reading.
-/

namespace Monomorph.Text.Quoted

/-- The inside of the quotes. -/
def encode : List Char → List Char
  | [] => []
  | c :: rest => if c = '\\' ∨ c = '"' then '\\' :: c :: encode rest else c :: encode rest

/-- The value that the inside of the quotes stands for. -/
def decode? : List Char → Option (List Char)
  | [] => some []
  | ['\\'] => none
  | '\\' :: c :: rest => if c = '\\' ∨ c = '"' then (decode? rest).map (c :: ·) else none
  | c :: rest => (decode? rest).map (c :: ·)

@[simp] theorem decode?_encode (value : List Char) : decode? (encode value) = some value := by
  induction value with
  | nil => rfl
  | cons c rest ih =>
    by_cases h : c = '\\' ∨ c = '"'
    · simp [encode, decode?, h, ih]
    · rw [not_or] at h
      simp [encode, decode?, h, ih]

/-- The written form of a value, quotes included. -/
def write (value : String) : String := "\"" ++ String.ofList (encode value.toList) ++ "\""

end Monomorph.Text.Quoted
