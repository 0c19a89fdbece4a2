import Monomorph.Token
import Monomorph.TypeExpr.Normal

/-!
# The surface grammar

A surface tree is a definition as it is written: it tells a group in parentheses from its content,
a leading bar and a trailing semicolon from none, and keeps the order of names and annotations after
an expression. `tokens` spells a tree out, so the trees are exactly the derivations of the grammar

    file  := def*
    def   := 'type' params? IDENT annot* '=' expr
    params := VAR | '(' VAR (',' VAR)* ')'
    expr  := VAR | IDENT | sum | record | expr IDENT | expr annot
           | '(' expr (',' expr)+ ')' IDENT | '(' expr ('*' expr)* ')'
    sum   := '[' '|'? (variant ('|' variant)*)? ']'
    variant := IDENT ('of' expr)?
    record := '{' (field (';' field)* ';'?)? '}'
    field := IDENT ':' expr | 'inherit' expr
    annot := '<' IDENT (IDENT ('=' TEXT)?)+ '>'

and `meaning` says which type expression or definition a tree stands for.
-/

namespace Monomorph.Surface

/-- `key` or `key = "value"` inside angle brackets. -/
structure Entry where
  key : String
  value : Option String
deriving DecidableEq, Repr

/-- `<name entries>`, with at least one entry. -/
structure Group where
  name : String
  before : List Entry
  last : Entry
deriving DecidableEq, Repr

/-- An expression as it is written. -/
inductive Expr where
  /-- A type variable. -/
  | var (name : String)
  /-- The name of a type. -/
  | ref (name : String)
  /-- Variants in brackets, after a leading bar or not. -/
  | sum (leadingBar : Bool) (variants : List (Variant Expr))
  /-- Lines in braces, a semicolon between every two. -/
  | record (fields : List (Field Expr))
  /-- At least one line in braces, a semicolon after every one. -/
  | terminated (before : List (Field Expr)) (last : Field Expr)
  /-- At least two arguments in parentheses before a name. -/
  | application (first : Expr) (middle : List Expr) (last : Expr) (name : String)
  /-- Items in parentheses with stars between them; one item is only grouped. -/
  | product (first : Expr) (rest : List Expr)
  /-- One argument before a name. -/
  | applied (arg : Expr) (name : String)
  /-- A group of annotations after an expression. -/
  | annotated (inner : Expr) (group : Group)
deriving Repr

/-- The parameters of a definition as they are written. -/
inductive Params where
  | absent
  | bare (name : String)
  | listed (first : String) (rest : List String)
deriving DecidableEq, Repr

/-- A definition as it is written. -/
structure Def where
  params : Params
  name : String
  annots : List Group
  body : Expr
deriving Repr

/-! ## Spelling -/

/-- The tokens of an entry. -/
def Entry.tokens (e : Entry) : List Token :=
  match e.value with
  | none => [.ident e.key]
  | some value => [.ident e.key, .mark .equals, .text value]

/-- The entries of a group in order. -/
def Group.entries (g : Group) : List Entry := g.before ++ [g.last]

/-- The tokens of a group of annotations. -/
def Group.tokens (g : Group) : List Token :=
  .mark .less :: .ident g.name :: (g.entries.flatMap Entry.tokens ++ [.mark .greater])

namespace Expr

mutual

/-- The tokens of an expression. -/
def tokens : Expr → List Token
  | var name => [.var name]
  | ref name => [.ident name]
  | sum leadingBar variants =>
    .mark .leftBracket :: (if leadingBar then [.mark .bar] else []) ++
      [.mark .bar].intercalate (variantTokens variants) ++ [.mark .rightBracket]
  | record fields =>
    .mark .leftBrace :: [.mark .semicolon].intercalate (fieldTokens fields) ++
      [.mark .rightBrace]
  | terminated before last =>
    .mark .leftBrace :: (fieldTokens before).flatMap (· ++ [.mark .semicolon]) ++
      lineTokens last ++ [.mark .semicolon, .mark .rightBrace]
  | application first middle last name =>
    .mark .leftParen :: tokens first ++ (allTokens middle).flatMap (.mark .comma :: ·) ++
      .mark .comma :: tokens last ++ [.mark .rightParen, .ident name]
  | product first rest =>
    .mark .leftParen :: tokens first ++ (allTokens rest).flatMap (.mark .star :: ·) ++
      [.mark .rightParen]
  | applied arg name => tokens arg ++ [.ident name]
  | annotated inner group => tokens inner ++ group.tokens

/-- The tokens of each variant of a list. -/
def variantTokens : List (Variant Expr) → List (List Token)
  | [] => []
  | ⟨tag, none⟩ :: rest => [.ident tag] :: variantTokens rest
  | ⟨tag, some payload⟩ :: rest => (.ident tag :: .mark .of :: tokens payload) :: variantTokens rest

/-- The tokens of each record line of a list. -/
def fieldTokens : List (Field Expr) → List (List Token)
  | [] => []
  | line :: rest => lineTokens line :: fieldTokens rest

/-- The tokens of a record line. -/
def lineTokens : Field Expr → List Token
  | .labelled label type => .ident label :: .mark .colon :: tokens type
  | .inherit type => .mark .inherit :: tokens type

/-- The tokens of each expression of a list. -/
def allTokens : List Expr → List (List Token)
  | [] => []
  | e :: rest => tokens e :: allTokens rest

end

end Expr

/-- The tokens of the parameters of a head. -/
def Params.tokens : Params → List Token
  | absent => []
  | bare name => [.var name]
  | listed first rest =>
    .mark .leftParen :: .var first :: rest.flatMap (fun name => [.mark .comma, .var name]) ++
      [.mark .rightParen]

/-- The tokens of a definition. -/
def Def.tokens (d : Def) : List Token :=
  .mark .type :: d.params.tokens ++ .ident d.name :: d.annots.flatMap Group.tokens ++
    .mark .equals :: d.body.tokens

/-! ## Meaning -/

/-- The annotations that a group stands for. -/
def Group.meaning (g : Group) : List Annot := g.entries.map fun e => ⟨g.name, e.key, e.value⟩

namespace Expr

mutual

/-- The type expression that a surface expression stands for. Names are applied to what precedes
them, annotations join those of the root of what precedes them, and a grouped expression is its
content. -/
def meaning : Expr → TypeExpr
  | var name => .var name ∅
  | ref name => .atom name
  | sum _ variants => .sum (variantsMeaning variants) ∅
  | record fields => .record (fieldsMeaning fields) ∅
  | terminated before last => .record (fieldsMeaning before ++ [lineMeaning last]) ∅
  | application first middle last name =>
    .named name (meaning first :: allMeaning middle ++ [meaning last]) ∅
  | product first [] => meaning first
  | product first (second :: rest) =>
    .tuple (meaning first :: meaning second :: allMeaning rest) ∅
  | applied arg name => .named name [meaning arg] ∅
  | annotated inner group => (meaning inner).annotate (.ofList group.meaning)

/-- The meaning of each variant of a list. -/
def variantsMeaning : List (Variant Expr) → List (Variant TypeExpr)
  | [] => []
  | ⟨tag, none⟩ :: rest => ⟨tag, none⟩ :: variantsMeaning rest
  | ⟨tag, some payload⟩ :: rest => ⟨tag, some (meaning payload)⟩ :: variantsMeaning rest

/-- The meaning of each record line of a list. -/
def fieldsMeaning : List (Field Expr) → List (Field TypeExpr)
  | [] => []
  | line :: rest => lineMeaning line :: fieldsMeaning rest

/-- The meaning of a record line. -/
def lineMeaning : Field Expr → Field TypeExpr
  | .labelled label type => .labelled label (meaning type)
  | .inherit type => .inherit (meaning type)

/-- The meaning of each expression of a list. -/
def allMeaning : List Expr → List TypeExpr
  | [] => []
  | e :: rest => meaning e :: allMeaning rest

end

end Expr

/-- The names of the parameters. -/
def Params.meaning : Params → List String
  | absent => []
  | bare name => [name]
  | listed first rest => first :: rest

/-- The definition that a surface definition stands for, its body in normal form. -/
def Def.meaning (d : Def) : TypeDef where
  name := d.name
  params := d.params.meaning
  annots := .ofList (d.annots.flatMap Group.meaning)
  body := d.body.meaning.normalize

end Monomorph.Surface
