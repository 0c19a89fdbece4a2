import Monomorph.Source

/-!
# Matchers

A matcher reads a front part of some tokens. It may try one way after the other, from the same place, and
give up a way at any point. Therefore it keeps a record of the furthest place at which a token was
missing, with all that was expected there, also by ways that were given up: if the reading fails, this is what
the error is about.

There is a matcher for each kind of token, and there are forms to combine them: one after the other,
alternatives in order, repetition, lists with separators, and recursion.
-/

namespace Monomorph.Surface

/-- What was missing at a place. The place is known by the number of tokens that are left there. -/
structure Missing where
  left : Nat
  expected : List Expectation
deriving DecidableEq, Repr

/-- The elements of a list, and those of another one that are not among them. -/
def join {α : Type} [DecidableEq α] (first second : List α) : List α :=
  first ++ second.filter (· ∉ first)

/-- Of two records the one that is further on. At the same place, all that was missing, the earlier first. -/
def Missing.merge : Option Missing → Option Missing → Option Missing
  | none, later => later
  | earlier, none => earlier
  | some earlier, some later =>
    if earlier.left < later.left then some earlier
    else if later.left < earlier.left then some later
    else some ⟨earlier.left, join earlier.expected later.expected⟩

/-- What a matcher returns: a value and the tokens after those that it has read, unless it fails, and what was
missing on the way. -/
structure Outcome (α : Type) where
  result : Option (α × List Lexeme)
  missing : Option Missing
deriving DecidableEq, Repr

namespace Outcome

variable {α β : Type}

/-- The same outcome, when something was missing before. -/
def after (earlier : Option Missing) (o : Outcome α) : Outcome α :=
  { o with missing := Missing.merge earlier o.missing }

/-- The same outcome with another value. -/
def map (f : α → β) (o : Outcome α) : Outcome β :=
  ⟨o.result.map fun (a, rest) => (f a, rest), o.missing⟩

end Outcome

/-- A function that reads a front part of some tokens. -/
def Matcher (α : Type) : Type := List Lexeme → Outcome α

namespace Matcher

variable {α β : Type}

/-- Read nothing. -/
def pure (a : α) : Matcher α := fun lexemes => ⟨some (a, lexemes), none⟩

/-- Read one part and then another one. -/
def bind (p : Matcher α) (f : α → Matcher β) : Matcher β := fun lexemes =>
  match p lexemes with
  | ⟨none, missing⟩ => ⟨none, missing⟩
  | ⟨some (a, rest), missing⟩ => (f a rest).after missing

instance : Monad Matcher where
  pure := pure
  bind := bind

/-- Take the first of two ways that does not fail. -/
def orElse (p q : Matcher α) : Matcher α := fun lexemes =>
  match p lexemes with
  | ⟨none, missing⟩ => (q lexemes).after missing
  | ⟨some result, missing⟩ => ⟨some result, missing⟩

instance : OrElse (Matcher α) := ⟨fun p q => orElse p (q ())⟩

/-- Read one token, if it has a value. -/
def select (kind : TokenKind) (value? : Token → Option α) : Matcher α
  | [] => ⟨none, some ⟨0, [.kind kind]⟩⟩
  | lexeme :: rest =>
    match value? lexeme.token with
    | some a => ⟨some (a, rest), none⟩
    | none => ⟨none, some ⟨rest.length + 1, [.kind kind]⟩⟩

/-- Read a keyword or sign. -/
def mark (m : Mark) : Matcher Unit := select (.mark m) fun
  | .mark other => if other = m then some () else none
  | _ => none

/-- Read an identifier. -/
def ident : Matcher String := select .ident fun
  | .ident name => some name
  | _ => none

/-- Read a type variable. -/
def var : Matcher String := select .var fun
  | .var name => some name
  | _ => none

/-- Read a quoted text. -/
def text : Matcher String := select .text fun
  | .text value => some value
  | _ => none

/-- Read nothing where the input ends. -/
def endOfInput : Matcher Unit
  | [] => ⟨some ((), []), none⟩
  | _ :: rest => ⟨none, some ⟨rest.length + 1, [.endOfInput]⟩⟩

/-- Read a part if it is there. -/
def orNot (p : Matcher α) : Matcher (Option α) := (do return some (← p)) <|> Pure.pure none

/-- Read a part between two signs. -/
def delimited (opening closing : Mark) (p : Matcher α) : Matcher α := do
  mark opening
  let a ← p
  mark closing
  return a

/-- Read a part again and again, until it fails. A part without any token is refused. -/
def repeated (p : Matcher α) : Matcher (List α) := fun lexemes =>
  match p lexemes with
  | ⟨none, missing⟩ => ⟨some ([], lexemes), missing⟩
  | ⟨some (a, rest), missing⟩ =>
    if rest.length < lexemes.length then ((repeated p rest).map (a :: ·)).after missing
    else ⟨none, missing⟩
termination_by lexemes => lexemes.length

/-- Read a part once or more often. -/
def repeated1 (p : Matcher α) : Matcher (List α) := do
  let first ← p
  let rest ← repeated p
  return first :: rest

/-- Read a separator and an item again and again, after `count` items. Where an item is missing, the separator
before it is given back, unless it may be `trailing`. With less than `atLeast` items, this fails. -/
def separated (item : Matcher α) (separator : Mark) (atLeast : Nat) (trailing : Bool) (count : Nat) :
    Matcher (List α) := fun lexemes =>
  match mark separator lexemes with
  | ⟨none, missing⟩ => ⟨if count < atLeast then none else some ([], lexemes), missing⟩
  | ⟨some (_, inside), missing⟩ =>
    match (item inside).after missing with
    | ⟨none, missing⟩ =>
      let stop := if trailing then inside else lexemes
      ⟨if count < atLeast then none else some ([], stop), missing⟩
    | ⟨some (a, rest), missing⟩ =>
      if rest.length < lexemes.length then
        ((separated item separator atLeast trailing (count + 1) rest).map (a :: ·)).after missing
      else ⟨none, missing⟩
termination_by lexemes => lexemes.length

/-- Read items with a separator between every two. -/
def separatedBy (item : Matcher α) (separator : Mark) (atLeast : Nat) (trailing : Bool) :
    Matcher (List α) :=
  let items : Matcher (List α) := do
    let first ← item
    let rest ← separated item separator atLeast trailing 1
    return first :: rest
  if atLeast = 0 then items <|> Pure.pure [] else items

/-- A matcher that is used in its own definition, on less tokens. -/
def recursive (body : Matcher α → Matcher α) : Matcher α := fun lexemes =>
  body (fun inner => if inner.length < lexemes.length then recursive body inner else ⟨none, none⟩) lexemes
termination_by lexemes => lexemes.length

/-- Read a part, and note where it stands. -/
def spanned (p : Matcher α) : Matcher (α × Span) := fun lexemes =>
  match p lexemes with
  | ⟨none, missing⟩ => ⟨none, missing⟩
  | ⟨some (a, rest), missing⟩ =>
    ⟨some ((a, Source.spanOf (lexemes.take (lexemes.length - rest.length))), rest), missing⟩

end Matcher

end Monomorph.Surface
