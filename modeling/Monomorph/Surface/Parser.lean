import Monomorph.Surface.Basic

/-!
# Reading surface definitions

The grammar can be read with one token of foresight and no stack but that of the open brackets.
A `State` says what has been read: the place in the grammar, together with the finished parts of
every form that is still open, innermost first. `step` takes one more token, and `expected` lists
what may come next; a token whose kind is not in that list stops the reading there.

Lists of finished parts are kept last first and are turned round when their form is closed.

`Descent.parse` tries the rules of the grammar one after the other instead, and goes back where one fails. By
`Descent.parse_eq` it finds the same definitions and the same errors.
-/

namespace Monomorph.Surface

/-- What may come next: a token of some kind, or the end of the input. -/
inductive Expectation where
  | kind (kind : TokenKind)
  | endOfInput
deriving DecidableEq, Repr

namespace Parser

/-- A group of annotations that is not closed yet. -/
inductive OpenGroup where
  /-- The bracket. -/
  | bracket
  /-- The bracket and the name of the group. -/
  | named (name : String)
  /-- A key that may still get a value. -/
  | key (name : String) (before : List Entry) (key : String)
  /-- A key and the sign that announces its value. -/
  | valueOf (name : String) (before : List Entry) (key : String)
  /-- A key with its value. -/
  | valued (name : String) (before : List Entry) (last : Entry)
deriving DecidableEq, Repr

namespace OpenGroup

/-- Go on with an open group, or close it. -/
def step : OpenGroup → Token → Option (OpenGroup ⊕ Group)
  | bracket, .ident name => some (.inl (named name))
  | named name, .ident k => some (.inl (key name [] k))
  | key name before k, .mark .equals => some (.inl (valueOf name before k))
  | key name before k, .ident next => some (.inl (key name (⟨k, none⟩ :: before) next))
  | key name before k, .mark .greater => some (.inr ⟨name, before.reverse, ⟨k, none⟩⟩)
  | valueOf name before k, .text value => some (.inl (valued name before ⟨k, some value⟩))
  | valued name before last, .ident next => some (.inl (key name (last :: before) next))
  | valued name before last, .mark .greater => some (.inr ⟨name, before.reverse, last⟩)
  | _, _ => none

/-- What may follow in an open group. -/
def expected : OpenGroup → List TokenKind
  | bracket | named _ => [.ident]
  | key _ _ _ => [.mark .equals, .ident, .mark .greater]
  | valueOf _ _ _ => [.text]
  | valued _ _ _ => [.ident, .mark .greater]

end OpenGroup

/-- The part of a definition before its equals sign; its groups last first. -/
structure Head where
  params : Params
  name : String
  annots : List Group
deriving Repr

/-- A form that is open around an expression. -/
inductive Frame where
  /-- A sum, at the payload of a variant. -/
  | payload (leadingBar : Bool) (before : List (Variant Expr)) (tag : String)
  /-- A record, at the type of a field. -/
  | field (before : List (Field Expr)) (label : String)
  /-- A record, at an inherited record. -/
  | inherited (before : List (Field Expr))
  /-- A parenthesis, at the first expression inside. -/
  | first
  /-- Items with stars between them, at an item after the first. -/
  | product (first : Expr) (rest : List Expr)
  /-- Arguments with commas between them, at an argument after the first. -/
  | arguments (first : Expr) (middle : List Expr)
deriving Repr

/-- A definition read up to somewhere in its body: the head and the open forms, innermost first. -/
structure Context where
  head : Head
  frames : List Frame
deriving Repr

/-- The place in the grammar inside or between definitions. -/
inductive Place where
  /-- Before the first definition. -/
  | file
  /-- After `type`. -/
  | params
  /-- After the parenthesis of the parameters. -/
  | firstParam
  /-- After a comma between parameters. -/
  | nextParam (first : String) (rest : List String)
  /-- After a parameter in parentheses. -/
  | afterParam (first : String) (rest : List String)
  /-- After the parameters. -/
  | name (params : Params)
  /-- After the name or a group of annotations. -/
  | head (head : Head)
  /-- In a group of annotations of the head. -/
  | headGroup (head : Head) (group : OpenGroup)
  /-- Before an expression. -/
  | operand (context : Context)
  /-- After an expression. -/
  | operator (context : Context) (expr : Expr)
  /-- In a group of annotations after an expression. -/
  | exprGroup (context : Context) (expr : Expr) (group : OpenGroup)
  /-- After the bracket of a sum. -/
  | sum (context : Context)
  /-- After a bar. -/
  | bar (context : Context) (leadingBar : Bool) (before : List (Variant Expr))
  /-- After a tag. -/
  | tag (context : Context) (leadingBar : Bool) (before : List (Variant Expr)) (tag : String)
  /-- After the brace of a record or a semicolon. -/
  | line (context : Context) (before : List (Field Expr))
  /-- After a label. -/
  | label (context : Context) (before : List (Field Expr)) (label : String)
  /-- After the parenthesis that closes arguments. -/
  | applied (context : Context) (first : Expr) (middle : List Expr) (last : Expr)
deriving Repr

/-- All that has been read: finished definitions, last first, and the place after them. -/
structure State where
  done : List Def
  place : Place
deriving Repr

/-- Nothing has been read. -/
def State.start : State := ⟨[], .file⟩

/-- The head with one more group of annotations. -/
def Head.annotate (head : Head) (group : Group) : Head :=
  { head with annots := group :: head.annots }

/-- The definition that a head and a body make. -/
def Head.define (head : Head) (body : Expr) : Def :=
  ⟨head.params, head.name, head.annots.reverse, body⟩

/-- The context with one more open form. -/
def Context.push (context : Context) (frame : Frame) : Context :=
  { context with frames := frame :: context.frames }

/-- A closed record with the lines `fields`, last first, a semicolon after the last one. -/
def closeTerminated : List (Field Expr) → Expr
  | [] => .record []
  | last :: before => .terminated before.reverse last

/-- Read a mark after an expression that stands directly in the form `frame`; `outer` is the context
around that form. -/
def stepFrame (outer : Context) (expr : Expr) : Frame → Mark → Option Place
  | .payload lead before tag, .bar => some (.bar outer lead (⟨tag, some expr⟩ :: before))
  | .payload lead before tag, .rightBracket =>
    some (.operator outer (.sum lead (⟨tag, some expr⟩ :: before).reverse))
  | .field before label, .semicolon => some (.line outer (.labelled label expr :: before))
  | .field before label, .rightBrace =>
    some (.operator outer (.record (.labelled label expr :: before).reverse))
  | .inherited before, .semicolon => some (.line outer (.inherit expr :: before))
  | .inherited before, .rightBrace =>
    some (.operator outer (.record (.inherit expr :: before).reverse))
  | .first, .comma => some (.operand (outer.push (.arguments expr [])))
  | .first, .star => some (.operand (outer.push (.product expr [])))
  | .first, .rightParen => some (.operator outer (.product expr []))
  | .product first rest, .star => some (.operand (outer.push (.product first (expr :: rest))))
  | .product first rest, .rightParen =>
    some (.operator outer (.product first (expr :: rest).reverse))
  | .arguments first middle, .comma =>
    some (.operand (outer.push (.arguments first (expr :: middle))))
  | .arguments first middle, .rightParen => some (.applied outer first middle.reverse expr)
  | _, _ => none

/-- Read one token inside a definition. -/
def stepPlace : Place → Token → Option Place
  | .file, .mark .type => some .params
  | .params, .var name => some (.name (.bare name))
  | .params, .mark .leftParen => some .firstParam
  | .params, .ident name => some (.head ⟨.absent, name, []⟩)
  | .firstParam, .var name => some (.afterParam name [])
  | .nextParam first rest, .var name => some (.afterParam first (name :: rest))
  | .afterParam first rest, .mark .comma => some (.nextParam first rest)
  | .afterParam first rest, .mark .rightParen => some (.name (.listed first rest.reverse))
  | .name params, .ident name => some (.head ⟨params, name, []⟩)
  | .head head, .mark .less => some (.headGroup head .bracket)
  | .head head, .mark .equals => some (.operand ⟨head, []⟩)
  | .headGroup head group, token =>
    (group.step token).map fun
      | .inl still => .headGroup head still
      | .inr closed => .head (head.annotate closed)
  | .operand context, .var name => some (.operator context (.var name))
  | .operand context, .ident name => some (.operator context (.ref name))
  | .operand context, .mark .leftBracket => some (.sum context)
  | .operand context, .mark .leftBrace => some (.line context [])
  | .operand context, .mark .leftParen => some (.operand (context.push .first))
  | .operator context expr, .ident name => some (.operator context (.applied expr name))
  | .operator context expr, .mark .less => some (.exprGroup context expr .bracket)
  | .operator ⟨head, frame :: frames⟩ expr, .mark mark => stepFrame ⟨head, frames⟩ expr frame mark
  | .exprGroup context expr group, token =>
    (group.step token).map fun
      | .inl still => .exprGroup context expr still
      | .inr closed => .operator context (.annotated expr closed)
  | .sum context, .mark .bar => some (.bar context true [])
  | .sum context, .ident tag => some (.tag context false [] tag)
  | .sum context, .mark .rightBracket => some (.operator context (.sum false []))
  | .bar context lead before, .ident tag => some (.tag context lead before tag)
  | .bar context lead [], .mark .rightBracket => some (.operator context (.sum lead []))
  | .tag context lead before tag, .mark .of => some (.operand (context.push (.payload lead before tag)))
  | .tag context lead before tag, .mark .bar => some (.bar context lead (⟨tag, none⟩ :: before))
  | .tag context lead before tag, .mark .rightBracket =>
    some (.operator context (.sum lead (⟨tag, none⟩ :: before).reverse))
  | .line context before, .mark .inherit => some (.operand (context.push (.inherited before)))
  | .line context before, .ident label => some (.label context before label)
  | .line context before, .mark .rightBrace => some (.operator context (closeTerminated before))
  | .label context before label, .mark .colon => some (.operand (context.push (.field before label)))
  | .applied context first middle last, .ident name =>
    some (.operator context (.application first middle last name))
  | _, _ => none

/-- The definition that is complete at a place, if one is. -/
def Place.complete? : Place → Option Def
  | .operator ⟨start, []⟩ body => some (start.define body)
  | _ => none

/-- Read one token. The keyword `type` after a complete definition starts the next one. -/
def step (state : State) (token : Token) : Option State :=
  match state.place.complete?, token with
  | some finished, .mark .type => some ⟨finished :: state.done, .params⟩
  | _, _ => (stepPlace state.place token).map (⟨state.done, ·⟩)

/-- All definitions, in order, if the input may end here. -/
def State.finish? (state : State) : Option (List Def) :=
  match state.place with
  | .file => some state.done.reverse
  | place => place.complete?.map fun last => (last :: state.done).reverse

/-- The marks that may follow an expression, by the form it stands in. -/
def Frame.closing : Frame → List Mark
  | .payload _ _ _ => [.bar, .rightBracket]
  | .field _ _ | .inherited _ => [.semicolon, .rightBrace]
  | .first => [.comma, .star, .rightParen]
  | .product _ _ => [.star, .rightParen]
  | .arguments _ _ => [.comma, .rightParen]

/-- The kinds of tokens that may follow, in the order of the grammar. -/
def Place.expected : Place → List TokenKind
  | .file => [.mark .type]
  | .params => [.var, .mark .leftParen, .ident]
  | .firstParam | .nextParam _ _ => [.var]
  | .afterParam _ _ => [.mark .comma, .mark .rightParen]
  | .name _ => [.ident]
  | .head _ => [.mark .less, .mark .equals]
  | .headGroup _ group => group.expected
  | .operand _ =>
    [.var, .ident, .mark .leftBracket, .mark .leftBrace, .mark .leftParen]
  | .operator ⟨_, []⟩ _ => [.ident, .mark .less, .mark .type]
  | .operator ⟨_, frame :: _⟩ _ => [.ident, .mark .less] ++ frame.closing.map .mark
  | .exprGroup _ _ group => group.expected
  | .sum _ => [.mark .bar, .ident, .mark .rightBracket]
  | .bar _ _ [] => [.ident, .mark .rightBracket]
  | .bar _ _ (_ :: _) => [.ident]
  | .tag _ _ _ _ => [.mark .of, .mark .bar, .mark .rightBracket]
  | .line _ _ => [.mark .inherit, .ident, .mark .rightBrace]
  | .label _ _ _ => [.mark .colon]
  | .applied _ _ _ _ => [.ident]

/-- What may come next, in the order of the grammar, the end of the input last. -/
def State.expected (state : State) : List Expectation :=
  state.place.expected.map .kind ++ if state.finish?.isSome then [.endOfInput] else []

end Parser

/-- The first token that no file goes on with; `found` is missing at the end of the input. -/
structure SyntaxError where
  index : Nat
  found : Option Token
  expected : List Expectation
deriving DecidableEq, Repr

namespace Parser

/-- Read the remaining tokens, the first of which has the given index. -/
def run (state : State) (index : Nat) : List Token → Except SyntaxError (List Def)
  | [] =>
    match state.finish? with
    | some defs => .ok defs
    | none => .error ⟨index, none, state.expected⟩
  | token :: rest =>
    match step state token with
    | some next => run next (index + 1) rest
    | none => .error ⟨index, some token, state.expected⟩

end Parser

/-- Read a file. -/
def parse (tokens : List Token) : Except SyntaxError (List Def) := Parser.run .start 0 tokens

end Monomorph.Surface
