import Monomorph.Text.Position
import Monomorph.Text.Quoted
import Monomorph.Token

/-!
# Splitting a text into tokens

A text is cut into segments: layout, tokens, and stretches that are neither. `scan` reads it
character by character. Its mode says what the open segment can still become; a character that
cannot extend the segment ends it and starts the next one. So every segment is as long as it can be,
and reading never looks back.

`flatMap_text_segments` says that no character is lost, invented or moved.
-/

namespace Monomorph

/-- A stretch of source text and what it is. -/
inductive Segment where
  | layout (text : List Char)
  | token (token : Token) (text : List Char)
  | unmatched (text : List Char)
deriving DecidableEq, Repr

/-- The characters of a segment. -/
def Segment.text : Segment → List Char
  | layout text | token _ text | unmatched text => text

namespace Lexer

/-- Space, tab, carriage return or line feed. -/
def isBlank (c : Char) : Bool := c == ' ' || c == '\t' || c == '\r' || c == '\n'

/-- The characters a word can start with: ASCII letters and the underscore. -/
def isWordStart (c : Char) : Bool := c.isAlpha || c == '_'

/-- The characters a word can go on with: ASCII letters and digits and the underscore. -/
def isWordPart (c : Char) : Bool := c.isAlphanum || c == '_'

/-- The characters a type variable can start with, after its apostrophe. -/
def isVarStart (c : Char) : Bool := c.isLower || c == '_'

/-- What the open segment is so far. -/
inductive Mode where
  | blank
  | comment
  | word
  | apostrophe
  | var
  | quote
  | escape
  | quoted
  | sign (mark : Mark)
  | stray
deriving DecidableEq, Repr

namespace Mode

/-- The mode of a segment that starts with a character. -/
def start (c : Char) : Mode :=
  if isBlank c then blank
  else if isWordStart c then word
  else if c = '#' then comment
  else if c = '\'' then apostrophe
  else if c = '"' then quote
  else match Mark.ofChar? c with
    | some mark => sign mark
    | none => stray

/-- The mode after one more character, if it belongs to the open segment. Layout takes blanks, a
comment all but a line feed; between quotes a backslash takes any next character but a line feed. -/
def extend (c : Char) : Mode → Option Mode
  | blank => if isBlank c then some blank else none
  | comment => if c = '\n' then none else some comment
  | word => if isWordPart c then some word else none
  | apostrophe => if isVarStart c then some var else none
  | var => if isWordPart c then some var else none
  | quote => some (if c = '"' then quoted else if c = '\\' then escape else quote)
  | escape => if c = '\n' then none else some quote
  | quoted => none
  | sign _ => none
  | stray => none

/-- The segments that an ended stretch of text gives. A backslash that nothing follows is cut off
from the open quotes before it. -/
def finish (text : List Char) : Mode → List Segment
  | blank | comment => [.layout text]
  | word => [.token (.ofWord (String.ofList text)) text]
  | var => [.token (.var (String.ofList text.tail)) text]
  | quoted =>
    match Text.Quoted.decode? text.tail.dropLast with
    | some value => [.token (.text (String.ofList value)) text]
    | none => [.unmatched text]
  | escape => [.unmatched text.dropLast, .unmatched ['\\']]
  | sign mark => [.token (.mark mark) text]
  | apostrophe | quote | stray => [.unmatched text]

end Mode

/-- Read on, where `text` is the open segment, last character first. -/
def scan (mode : Mode) (text : List Char) : List Char → List Segment
  | [] => mode.finish text.reverse
  | c :: rest =>
    match mode.extend c with
    | some next => scan next (c :: text) rest
    | none => mode.finish text.reverse ++ scan (.start c) [c] rest

/-- Cut a text into segments. -/
def segments : List Char → List Segment
  | [] => []
  | c :: rest => scan (.start c) [c] rest

/-- The open text of `mode` is not empty, and ends with the backslash if a backslash is open. -/
def Mode.Fits (mode : Mode) (text : List Char) : Prop :=
  text ≠ [] ∧ (mode = .escape → ∃ before, text = before ++ ['\\'])

theorem Mode.fits_start (c : Char) : (Mode.start c).Fits [c] := by
  refine ⟨by simp, fun h => ?_⟩
  unfold start at h
  split at h
  · simp at h
  · repeat' split at h
    all_goals simp at h

theorem Mode.fits_extend {mode next : Mode} {c : Char} (text : List Char)
    (h : mode.extend c = some next) : next.Fits (text ++ [c]) := by
  refine ⟨by simp, ?_⟩
  rintro rfl
  cases mode <;> simp [extend] at h
  split at h
  · simp at h
  · split at h
    · next hc => exact ⟨text, by rw [hc]⟩
    · simp at h

theorem Mode.flatMap_text_finish {mode : Mode} {text : List Char} (h : mode.Fits text) :
    (mode.finish text).flatMap Segment.text = text := by
  cases mode <;> simp [finish, Segment.text]
  · obtain ⟨before, rfl⟩ := h.2 rfl
    simp
  · split <;> simp [Segment.text]

theorem flatMap_text_scan {mode : Mode} {text : List Char} (h : mode.Fits text.reverse)
    (rest : List Char) :
    (scan mode text rest).flatMap Segment.text = text.reverse ++ rest := by
  induction rest generalizing mode text with
  | nil => simp [scan, Mode.flatMap_text_finish h]
  | cons c rest ih =>
    simp only [scan]
    split
    · next next hnext =>
      rw [ih (by simpa using Mode.fits_extend text.reverse hnext)]
      simp
    · rw [List.flatMap_append, Mode.flatMap_text_finish h, ih (by simpa using Mode.fits_start c)]
      simp

/-- The segments of a text, one after the other, are the text. -/
theorem flatMap_text_segments (source : List Char) :
    (segments source).flatMap Segment.text = source := by
  cases source with
  | nil => rfl
  | cons c rest =>
    have hstart : (Mode.start c).Fits [c].reverse := Mode.fits_start c
    exact flatMap_text_scan hstart rest

end Lexer

/-- A token and the place of its text. -/
structure Lexeme where
  token : Token
  span : Span
deriving DecidableEq, Repr

/-- A stretch of text that is neither layout nor a token. -/
structure Unmatched where
  text : List Char
  span : Span
deriving DecidableEq, Repr

/-- The tokens of a source text and what is left over. -/
structure Lexed where
  lexemes : List Lexeme
  unmatched : List Unmatched
deriving DecidableEq, Repr

namespace Lexed

/-- Sort segments into tokens and the rest, where the first one starts at the offset `start`. -/
def ofSegments (start : Nat) : List Segment → Lexed
  | [] => ⟨[], []⟩
  | segment :: rest =>
    let stop := start + Text.byteLength segment.text
    let lexed := ofSegments stop rest
    match segment with
    | .layout _ => lexed
    | .token token _ => { lexed with lexemes := ⟨token, ⟨start, stop⟩⟩ :: lexed.lexemes }
    | .unmatched text => { lexed with unmatched := ⟨text, ⟨start, stop⟩⟩ :: lexed.unmatched }

/-- Split a source text into tokens. -/
def ofSource (source : String) : Lexed := ofSegments 0 (Lexer.segments source.toList)

/-- The tokens without their places. -/
def tokens (lexed : Lexed) : List Token := lexed.lexemes.map Lexeme.token

end Lexed

end Monomorph
