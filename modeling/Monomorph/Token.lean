/-!
# Tokens

The words of the definition language: keywords and signs with one fixed spelling, type variables,
quoted texts and identifiers. A token carries the value that its text stands for, so that tokens
alone determine what a file means; where they stand is kept beside them.
-/

namespace Monomorph

/-- A keyword or sign. -/
inductive Mark where
  | type
  | of
  | inherit
  | equals
  | leftParen
  | rightParen
  | leftBracket
  | rightBracket
  | leftBrace
  | rightBrace
  | bar
  | star
  | comma
  | colon
  | semicolon
  | less
  | greater
deriving DecidableEq, Repr

namespace Mark

/-- The one spelling of a keyword or sign. -/
def spelling : Mark → String
  | type => "type"
  | of => "of"
  | inherit => "inherit"
  | equals => "="
  | leftParen => "("
  | rightParen => ")"
  | leftBracket => "["
  | rightBracket => "]"
  | leftBrace => "\x7b"
  | rightBrace => "\x7d"
  | bar => "|"
  | star => "*"
  | comma => ","
  | colon => ":"
  | semicolon => ";"
  | less => "<"
  | greater => ">"

/-- The keyword spelled by a word. -/
def ofWord? : String → Option Mark
  | "type" => some type
  | "of" => some of
  | "inherit" => some inherit
  | _ => none

/-- The sign that a character is. -/
def ofChar? : Char → Option Mark
  | '=' => some equals
  | '(' => some leftParen
  | ')' => some rightParen
  | '[' => some leftBracket
  | ']' => some rightBracket
  | '\x7b' => some leftBrace
  | '\x7d' => some rightBrace
  | '|' => some bar
  | '*' => some star
  | ',' => some comma
  | ':' => some colon
  | ';' => some semicolon
  | '<' => some less
  | '>' => some greater
  | _ => none

end Mark

/-- One word of a source text. -/
inductive Token where
  | mark (mark : Mark)
  | var (name : String)
  | text (value : String)
  | ident (name : String)
deriving DecidableEq, Repr

namespace Token

/-- What a word made of letters, digits and underscores is. -/
def ofWord (word : String) : Token :=
  match Mark.ofWord? word with
  | some m => mark m
  | none => ident word

/-- How messages show a token: an identifier only as such, a quoted text by its value. -/
def display : Token → String
  | mark m => m.spelling
  | var name => "'" ++ name
  | text value => "\"" ++ value ++ "\""
  | ident _ => "<ident>"

end Token

/-- What a token is, apart from its value. -/
inductive TokenKind where
  | mark (mark : Mark)
  | var
  | text
  | ident
deriving DecidableEq, Repr

/-- The kind of a token. -/
def Token.kind : Token → TokenKind
  | mark m => .mark m
  | var _ => .var
  | text _ => .text
  | ident _ => .ident

end Monomorph
