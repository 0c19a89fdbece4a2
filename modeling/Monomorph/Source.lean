import Monomorph.Diagnostic
import Monomorph.Surface.Parser
import Monomorph.Text.Visible
import Monomorph.Token.Lexer

/-!
# Source files

A source text is split into tokens and read as a list of definitions. Text that is no token is
reported and set aside; the tokens that are left are read all the same, and at most one more error
points at the first of them that no file goes on with.

Each definition is returned as an `Item`, with the stretch of text from its first to its last token. These
stretches are found from the numbers of tokens when all is read; `Surface.Descent.item` notes them while it
reads, and they are the same by `Surface.parse_eq_parseSource`.
-/

namespace Monomorph

/-- A definition and the place of its text. -/
structure Item where
  definition : TypeDef
  span : Span
deriving DecidableEq, Repr

/-- What reading a source text gives. -/
structure Parsed where
  unmatched : List Unmatched
  outcome : Except Diagnostic (List Item)

namespace Source

/-- The code of all errors in the text itself. -/
def errorCode : String := "E0001"

/-- An error in the text itself. -/
def diagnostic (span : Span) (message : String) : Diagnostic :=
  ⟨some errorCode, .error, span, message, none, []⟩

/-- How a message names a kind of token. A variable or a quoted text has no name. -/
def expectedKind : TokenKind → String
  | .mark mark => "'" ++ mark.spelling ++ "'"
  | .ident => "'<ident>'"
  | .var | .text => "something else"

/-- How a message names what may come next. -/
def expectation : Surface.Expectation → String
  | .kind kind => expectedKind kind
  | .endOfInput => "end of input"

/-- Alternatives one after the other, with `or` before the last of several. -/
def alternatives : List String → String
  | [] => "something else"
  | [only] => only
  | [first, last] => first ++ ", or " ++ last
  | first :: rest => first ++ ", " ++ alternatives rest

/-- The message of a syntax error. -/
def syntaxMessage (error : Surface.SyntaxError) : String :=
  let found := match error.found with
    | some token => "'" ++ token.display ++ "'"
    | none => "end of input"
  "found " ++ found ++ " expected " ++ alternatives (error.expected.map expectation)

/-- The message about a text that is no token. -/
def unmatchedMessage (unmatched : Unmatched) : String :=
  "unexpected character: " ++ Text.visible unmatched.text

/-- The place of a token, or the end of the text if there is no such token. -/
def spanAt (lexemes : List Lexeme) (length index : Nat) : Span :=
  match lexemes[index]? with
  | some lexeme => lexeme.span
  | none => ⟨length, length⟩

/-- The stretch from the first to the last of some tokens. -/
def spanOf (lexemes : List Lexeme) : Span :=
  match lexemes.head?, lexemes.getLast? with
  | some first, some last => ⟨first.span.start, last.span.stop⟩
  | _, _ => ⟨0, 0⟩

/-- Give each definition the place of its own tokens, where the tokens of all definitions stand one
after the other. -/
def locate : List Surface.Def → List Lexeme → List Item
  | [], _ => []
  | d :: rest, lexemes =>
    let length := d.tokens.length
    ⟨d.meaning, spanOf (lexemes.take length)⟩ :: locate rest (lexemes.drop length)

/-- Read a source text. -/
def parse (source : String) : Parsed :=
  let lexed := Lexed.ofSource source
  { unmatched := lexed.unmatched
    outcome := match Surface.parse lexed.tokens with
      | .ok defs => .ok (locate defs lexed.lexemes)
      | .error error =>
        .error (diagnostic (spanAt lexed.lexemes source.utf8ByteSize error.index)
          (syntaxMessage error)) }

end Source

namespace Parsed

/-- All errors, those about unmatched text first. -/
def diagnostics (parsed : Parsed) : List Diagnostic :=
  parsed.unmatched.map (fun u => Source.diagnostic u.span (Source.unmatchedMessage u)) ++
    match parsed.outcome with
    | .ok _ => []
    | .error d => [d]

/-- The definitions, unless there is a syntax error. -/
def items? (parsed : Parsed) : Option (List Item) :=
  match parsed.outcome with
  | .ok items => some items
  | .error _ => none

/-- The definitions of a text without any error. -/
def clean? (parsed : Parsed) : Option (List Item) :=
  match parsed.unmatched, parsed.outcome with
  | [], .ok items => some items
  | _, _ => none

end Parsed

end Monomorph
