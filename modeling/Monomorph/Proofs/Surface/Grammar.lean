import Mathlib.Data.List.Basic
import Monomorph.Proofs.Surface.Derivation
import Monomorph.Proofs.Surface.Soundness
import Monomorph.Source

/-!
# The grammar of source texts

`rules` is the grammar of source texts as a context-free grammar, apart from any way of reading it.
`meaning` interprets its derivations: it says, symbol by symbol, which definitions and type expressions
a derivation stands for.

`phrase` interprets them by surface trees instead. A surface tree keeps all that a derivation says, and
it is what the reader returns, so it is the link between the two.
-/

namespace Monomorph

namespace Surface.Grammar

/-- The symbols of the grammar. -/
inductive Symbol where
  | file
  | definition
  | params
  | expr
  | atom
  | sum
  | variant
  | record
  | field
  | annot
deriving DecidableEq, Repr

/-- A keyword or sign. -/
def mark (m : Mark) : Rule Symbol := .token (.mark m)

/-- An identifier. -/
def ident : Rule Symbol := .token .ident

/-- The grammar, symbol by symbol:

    file       := definition*
    definition := 'type' params? IDENT annot* '=' expr
    params     := VAR | '(' VAR (',' VAR)* ')'
    expr       := atom (IDENT | annot)*
    atom       := VAR | IDENT | sum | record
                | '(' expr (',' expr)+ ')' IDENT | '(' expr ('*' expr)* ')'
    sum        := '[' '|'? (variant ('|' variant)*)? ']'
    variant    := IDENT ('of' expr)?
    record     := '{' (field (';' field)* ';'?)? '}'
    field      := IDENT ':' expr | 'inherit' expr
    annot      := '<' IDENT (IDENT ('=' TEXT)?)+ '>'
-/
def rules : Symbol → Rule Symbol
  | .file => .many (.symbol .definition)
  | .definition =>
    .seq (mark .type) <| .seq (.optional (.symbol .params)) <| .seq ident <|
      .seq (.many (.symbol .annot)) <| .seq (mark .equals) (.symbol .expr)
  | .params =>
    .either (.token .var) <|
      .seq (mark .leftParen) <| .seq (.token .var) <|
        .seq (.many (.seq (mark .comma) (.token .var))) (mark .rightParen)
  | .expr => .seq (.symbol .atom) (.many (.either ident (.symbol .annot)))
  | .atom =>
    .either (.token .var) <| .either ident <| .either (.symbol .sum) <| .either (.symbol .record) <|
      .either
        (.seq (mark .leftParen) <| .seq (.symbol .expr) <|
          .seq (.oneOrMore (.seq (mark .comma) (.symbol .expr))) <| .seq (mark .rightParen) ident)
        (.seq (mark .leftParen) <| .seq (.symbol .expr) <|
          .seq (.many (.seq (mark .star) (.symbol .expr))) (mark .rightParen))
  | .sum =>
    .seq (mark .leftBracket) <| .seq (.optional (mark .bar)) <|
      .seq (.optional (.seq (.symbol .variant) (.many (.seq (mark .bar) (.symbol .variant)))))
        (mark .rightBracket)
  | .variant => .seq ident (.optional (.seq (mark .of) (.symbol .expr)))
  | .record =>
    .seq (mark .leftBrace) <|
      .seq (.optional (.seq (.symbol .field) <|
        .seq (.many (.seq (mark .semicolon) (.symbol .field))) (.optional (mark .semicolon))))
        (mark .rightBrace)
  | .field =>
    .either (.seq ident <| .seq (mark .colon) (.symbol .expr))
      (.seq (mark .inherit) (.symbol .expr))
  | .annot =>
    .seq (mark .less) <| .seq ident <|
      .seq (.oneOrMore (.seq ident (.optional (.seq (mark .equals) (.token .text))))) (mark .greater)

/-! ## Meaning -/

/-- What a derivation from a symbol stands for. -/
abbrev Meaning : Symbol → Type
  | .file => List TypeDef
  | .definition => TypeDef
  | .params => List String
  | .expr | .atom | .sum | .record => TypeExpr
  | .variant => Variant TypeExpr
  | .field => Field TypeExpr
  | .annot => List Annot

/-- The application of a name to one argument, which is a container if the name is reserved. -/
def applied (t : TypeExpr) (name : String) : TypeExpr :=
  match ContainerKind.ofName? name with
  | some kind => .container kind t ∅
  | none => .named name [t] ∅

/-- The type expression after one more postfix: a name is applied to what is before it, annotations join
those of its root. -/
def postfixMeaning (t : TypeExpr) : String ⊕ List Annot → TypeExpr
  | .inl name => applied t name
  | .inr annots => t.annotate (.ofList annots)

/-- The items of a list with separators between them. -/
def separated {α : Type} : Option (α × List (Unit × α)) → List α
  | none => []
  | some (first, rest) => first :: rest.map Prod.snd

/-- What the parts of a rule mean together. Postfixes are applied from left to right, and a group is its
content. -/
def meaning : ∀ name, (rules name).Value Meaning → Meaning name
  | .file, definitions => definitions
  | .definition, (_, params, name, annots, _, body) =>
    ⟨name, params.getD [], .ofList annots.flatten, body⟩
  | .params, .inl name => [name]
  | .params, .inr (_, first, rest, _) => first :: rest.map Prod.snd
  | .expr, (head, postfixes) => postfixes.foldl postfixMeaning head
  | .atom, .inl name => .var name ∅
  | .atom, .inr (.inl name) => .atom name
  | .atom, .inr (.inr (.inl sum)) => sum
  | .atom, .inr (.inr (.inr (.inl record))) => record
  | .atom, .inr (.inr (.inr (.inr (.inl (_, first, ((_, second), rest), _, name))))) =>
    .named name (first :: second :: rest.map Prod.snd) ∅
  | .atom, .inr (.inr (.inr (.inr (.inr (_, first, [], _))))) => first
  | .atom, .inr (.inr (.inr (.inr (.inr (_, first, second :: rest, _))))) =>
    .tuple (first :: (second :: rest).map Prod.snd) ∅
  | .sum, (_, _, variants, _) => .sum (separated variants) ∅
  | .variant, (tag, payload) => ⟨tag, payload.map Prod.snd⟩
  | .record, (_, none, _) => .record [] ∅
  | .record, (_, some (first, rest, _), _) => .record (first :: rest.map Prod.snd) ∅
  | .field, .inl (label, _, type) => .labelled label type
  | .field, .inr (_, type) => .inherit type
  | .annot, (_, name, (first, rest), _) =>
    (first :: rest).map fun (key, value) => ⟨name, key, value.map Prod.snd⟩

/-- The definitions that a derivation of a file stands for. -/
def definitions (d : Derivation rules (.symbol .file)) : List TypeDef := d.value meaning

/-! ## Surface trees of derivations -/

/-- The last element of a list that is not empty, and those before it. -/
def splitLast {α : Type} (first : α) (rest : List α) : List α × α :=
  ((first :: rest).dropLast, (first :: rest).getLast (List.cons_ne_nil first rest))

theorem append_splitLast {α : Type} (first : α) (rest : List α) :
    (splitLast first rest).1 ++ [(splitLast first rest).2] = first :: rest :=
  List.dropLast_append_getLast _

/-- Neither the application of a name to what is before it nor an expression with annotations. -/
def isAtom : Expr → Bool
  | .applied _ _ | .annotated _ _ => false
  | _ => true

/-- The surface tree, or part of one, that a derivation from a symbol has. -/
abbrev Phrase : Symbol → Type
  | .file => List Def
  | .definition => Def
  | .params => String ⊕ String × List String
  | .expr => Expr
  | .atom => { e : Expr // isAtom e = true }
  | .sum => Bool × List (Variant Expr)
  | .variant => Variant Expr
  | .record => List (Field Expr) ⊕ List (Field Expr) × Field Expr
  | .field => Field Expr
  | .annot => Group

/-- The parameters of a head. -/
def paramsPhrase : Option (String ⊕ String × List String) → Params
  | none => .absent
  | some (.inl name) => .bare name
  | some (.inr (first, rest)) => .listed first rest

/-- The surface expression after one more postfix. -/
def postfixPhrase (e : Expr) : String ⊕ Group → Expr
  | .inl name => .applied e name
  | .inr group => .annotated e group

/-- A key with or without a value. -/
def entryPhrase (entry : String × Option (Unit × String)) : Entry := ⟨entry.1, entry.2.map Prod.snd⟩

/-- The surface tree that the parts of a rule make. -/
def phrase : ∀ name, (rules name).Value Phrase → Phrase name
  | .file, definitions => definitions
  | .definition, (_, params, name, annots, _, body) => ⟨paramsPhrase params, name, annots, body⟩
  | .params, .inl name => .inl name
  | .params, .inr (_, first, rest, _) => .inr (first, rest.map Prod.snd)
  | .expr, (head, postfixes) => postfixes.foldl postfixPhrase head.1
  | .atom, .inl name => ⟨.var name, rfl⟩
  | .atom, .inr (.inl name) => ⟨.ref name, rfl⟩
  | .atom, .inr (.inr (.inl (lead, variants))) => ⟨.sum lead variants, rfl⟩
  | .atom, .inr (.inr (.inr (.inl (.inl fields)))) => ⟨.record fields, rfl⟩
  | .atom, .inr (.inr (.inr (.inl (.inr (before, last))))) => ⟨.terminated before last, rfl⟩
  | .atom, .inr (.inr (.inr (.inr (.inl (_, first, ((_, second), rest), _, name))))) =>
    let parts := splitLast second (rest.map Prod.snd)
    ⟨.application first parts.1 parts.2 name, rfl⟩
  | .atom, .inr (.inr (.inr (.inr (.inr (_, first, rest, _))))) =>
    ⟨.product first (rest.map Prod.snd), rfl⟩
  | .sum, (_, bar, variants, _) => (bar.isSome, separated variants)
  | .variant, (tag, payload) => ⟨tag, payload.map Prod.snd⟩
  | .record, (_, none, _) => .inl []
  | .record, (_, some (first, rest, none), _) => .inl (first :: rest.map Prod.snd)
  | .record, (_, some (first, rest, some _), _) => .inr (splitLast first (rest.map Prod.snd))
  | .field, .inl (label, _, type) => .labelled label type
  | .field, .inr (_, type) => .inherit type
  | .annot, (_, name, (first, rest), _) =>
    let parts := splitLast (entryPhrase first) (rest.map entryPhrase)
    ⟨name, parts.1, parts.2⟩

/-- The surface trees of a derivation of a file. -/
def trees (d : Derivation rules (.symbol .file)) : List Def := d.value phrase

end Surface.Grammar

end Monomorph
