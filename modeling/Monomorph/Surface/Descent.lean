import Monomorph.Surface.Matcher

/-!
# Reading by recursive descent

The rules of the grammar, each as a matcher. They return type expressions and definitions at once; there is no
tree in between. An alternative is given up only when it fails, so `(` may be read twice: as the beginning of
arguments before a name and, if they come to nothing, as that of a tuple or group.
-/

namespace Monomorph.Surface.Descent

open Matcher

/-- `key` or `key = "value"` inside angle brackets. -/
def entry : Matcher (String × Option String) := do
  let key ← ident
  let value ← orNot do
    mark .equals
    text
  return (key, value)

/-- `<name entries>`. -/
def annotationGroup : Matcher (List Annot) := delimited .less .greater do
  let group ← ident
  let entries ← repeated1 entry
  return entries.map fun (key, value) => ⟨group, key, value⟩

section Forms

variable (inner : Matcher TypeExpr)

/-- A tag, with or without a payload. -/
def variant : Matcher (Variant TypeExpr) := do
  let tag ← ident
  let payload ← orNot do
    mark .of
    inner
  return ⟨tag, payload⟩

/-- Variants in brackets. -/
def sum : Matcher TypeExpr := delimited .leftBracket .rightBracket do
  let _ ← orNot (mark .bar)
  let variants ← separatedBy (variant inner) .bar 0 false
  return .sum variants ∅

/-- Another record whose fields are taken over. -/
def inherited : Matcher (Field TypeExpr) := do
  mark .inherit
  return .inherit (← inner)

/-- A label and a type. -/
def labelled : Matcher (Field TypeExpr) := do
  let label ← ident
  mark .colon
  return .labelled label (← inner)

/-- Record lines in braces. -/
def record : Matcher TypeExpr := delimited .leftBrace .rightBrace do
  let fields ← separatedBy (inherited inner <|> labelled inner) .semicolon 0 true
  return .record fields ∅

/-- Arguments in parentheses before a name. -/
def application : Matcher TypeExpr := do
  let args ← delimited .leftParen .rightParen (separatedBy inner .comma 2 false)
  let name ← ident
  return .named name args ∅

/-- What items in parentheses stand for: one item is only grouped. -/
def tuple : List TypeExpr → TypeExpr
  | [item] => item
  | items => .tuple items ∅

/-- Items in parentheses. -/
def tupleOrGroup : Matcher TypeExpr := do
  let items ← delimited .leftParen .rightParen (separatedBy inner .star 1 false)
  return tuple items

/-- An expression without anything after it. -/
def atom : Matcher TypeExpr :=
  (do return .var (← var) ∅) <|> (do return .atom (← ident)) <|> sum inner <|> record inner <|>
    application inner <|> tupleOrGroup inner

end Forms

/-- What may stand after an expression: a name that is applied to it, or annotations. -/
inductive Suffix where
  | apply (name : String)
  | annotate (annots : List Annot)
deriving DecidableEq, Repr

/-- An expression with a suffix. -/
def Suffix.on : TypeExpr → Suffix → TypeExpr
  | e, apply name => .named name [e] ∅
  | e, annotate annots => annots.foldl (fun e annot => e.mapAnnots (·.insert annot)) e

/-- A name or a group of annotations after an expression. -/
def suffix : Matcher Suffix := (do return .apply (← ident)) <|> (do return .annotate (← annotationGroup))

/-- An expression. -/
def expr : Matcher TypeExpr := recursive fun inner => do
  let head ← atom inner
  let suffixes ← repeated suffix
  return suffixes.foldl Suffix.on head

/-- The parameters of a definition: a variable, or variables in parentheses. -/
def params : Matcher (List String) := do
  let names ← orNot ((do return [← var]) <|> delimited .leftParen .rightParen (separatedBy var .comma 1 false))
  return names.getD []

/-- A definition, its body in normal form. -/
def definition : Matcher TypeDef := do
  mark .type
  let params ← params
  let name ← ident
  let annots ← repeated annotationGroup
  mark .equals
  let body ← expr
  return ⟨name, params, .ofList annots.flatten, body.normalize⟩

/-- A definition with its place. -/
def item : Matcher Item := do
  let (definition, span) ← spanned definition
  return ⟨definition, span⟩

/-- Definitions up to the end of the input. -/
def file : Matcher (List Item) := do
  let items ← repeated item
  endOfInput
  return items

/-- Read a file. If this fails, the error is about the furthest place. -/
def parse (lexemes : List Lexeme) : Except SyntaxError (List Item) :=
  match file lexemes with
  | ⟨some (items, _), _⟩ => .ok items
  | ⟨none, missing⟩ =>
    let furthest := missing.getD ⟨lexemes.length, []⟩
    let index := lexemes.length - furthest.left
    .error ⟨index, lexemes[index]?.map Lexeme.token, furthest.expected⟩

/-- Read a source text. -/
def parseSource (source : String) : Parsed :=
  let lexed := Lexed.ofSource source
  { unmatched := lexed.unmatched
    outcome := match parse lexed.lexemes with
      | .ok items => .ok items
      | .error error =>
        .error (Source.diagnostic (Source.spanAt lexed.lexemes source.utf8ByteSize error.index)
          (Source.syntaxMessage error)) }

end Monomorph.Surface.Descent
