import Monomorph.Compilation
import Monomorph.Json.Printer

/-!
# The command line

`Arguments.read` turns the words of a command line into a request. Words are taken one by one, and
the first one that asks for help or the version, or that cannot stand where it does, decides.

`CommandLine.respond` answers a request. It reads and writes files through a `System`, in any monad,
so the same program runs on real files and on files that are only values.
-/

namespace Monomorph

/-- What is written for a source file. -/
inductive Emit where
  | definitions
  | ast
  | json
  | buildInfo
deriving DecidableEq, Repr

namespace Emit

/-- The kind of output that a word on the command line names. -/
def ofWord? : String → Option Emit
  | "defs" => some definitions
  | "ast" => some ast
  | "json" => some json
  | "build-info" => some buildInfo
  | _ => none

/-- The name of a kind of output in messages. -/
def label : Emit → String
  | definitions => "Defs"
  | ast => "Ast"
  | json => "Json"
  | buildInfo => "BuildInfo"

end Emit

/-- One call of the program on a source file. -/
structure Invocation where
  source : String
  output : Option String
  emit : Emit
  options : Options
  verbose : Bool
deriving DecidableEq, Repr

/-- What is wrong with a command line. -/
inductive UsageError where
  | unknownOption (word : String)
  | missingValue (option : String)
  | unexpectedValue (option : String)
  | repeated (option : String)
  | invalidValue (value option : String)
  | unexpectedArgument (word : String)
  | missingSource
deriving DecidableEq, Repr

/-- The message about a wrong command line. -/
def UsageError.message : UsageError → String
  | unknownOption word => s!"unexpected argument '{word}' found"
  | missingValue option => s!"a value is required for '{option}' but none was supplied"
  | unexpectedValue option => s!"unexpected value for '{option}' found; no more were expected"
  | repeated option => s!"the argument '{option}' cannot be used multiple times"
  | invalidValue value option => s!"invalid value '{value}' for '{option}'"
  | unexpectedArgument word => s!"unexpected argument '{word}' found"
  | missingSource => "the following required arguments were not provided: <SOURCE>"

/-- Why no source file is processed. -/
inductive Stop where
  | help
  | version
  | usage (error : UsageError)
deriving DecidableEq, Repr

namespace Arguments

/-- An option that takes a value. -/
inductive Setting where
  | output
  | emit
  | stem
deriving DecidableEq, Repr

/-- An option without a value. -/
inductive Flag where
  | keepPoly
  | debug
  | verbose
deriving DecidableEq, Repr

/-- The option with a value that a word names. -/
def Setting.ofWord? : String → Option Setting
  | "--output" => some output
  | "--emit" => some emit
  | "--prefix" => some stem
  | _ => none

/-- The option without a value that a word names. -/
def Flag.ofWord? : String → Option Flag
  | "--keep-poly" => some keepPoly
  | "--debug" => some debug
  | "--verbose" => some verbose
  | _ => none

/-- How messages name an option. -/
def Setting.word : Setting → String
  | output => "--output"
  | emit => "--emit"
  | stem => "--prefix"

/-- How messages name an option. -/
def Flag.word : Flag → String
  | keepPoly => "--keep-poly"
  | debug => "--debug"
  | verbose => "--verbose"

/-- What has been read of a command line. -/
structure Draft where
  source : Option String
  output : Option String
  emit : Option Emit
  stem : Option String
  flags : List Flag
deriving DecidableEq, Repr

/-- Nothing has been read. -/
def Draft.empty : Draft := ⟨none, none, none, none, []⟩

/-- Refuse a command line. -/
def refuse {α : Type} (error : UsageError) : Except Stop α := .error (.usage error)

/-- Note a flag. -/
def Draft.raise (draft : Draft) (flag : Flag) : Except Stop Draft :=
  if flag ∈ draft.flags then refuse (.repeated flag.word)
  else .ok { draft with flags := flag :: draft.flags }

/-- Note the value of an option. A path is not empty. -/
def Draft.set (draft : Draft) (setting : Setting) (value : String) : Except Stop Draft :=
  match setting with
  | .output =>
    if draft.output.isSome then refuse (.repeated setting.word)
    else if value = "" then refuse (.missingValue setting.word)
    else .ok { draft with output := some value }
  | .emit =>
    if draft.emit.isSome then refuse (.repeated setting.word)
    else match Emit.ofWord? value with
      | some emit => .ok { draft with emit := some emit }
      | none => refuse (.invalidValue value setting.word)
  | .stem =>
    if draft.stem.isSome then refuse (.repeated setting.word)
    else .ok { draft with stem := some value }

/-- Note a word that belongs to no option. -/
def Draft.place (draft : Draft) (word : String) : Except Stop Draft :=
  if draft.source.isSome then refuse (.unexpectedArgument word)
  else if word = "" then refuse (.missingValue "<SOURCE>")
  else .ok { draft with source := some word }

/-- What a word is, where options are looked for. -/
inductive Word where
  /-- The end of the options. -/
  | separator
  /-- An option with a value attached to it. -/
  | attached (setting : Setting) (value : String)
  /-- An option whose value is the next word. -/
  | awaiting (setting : Setting)
  | flag (flag : Flag)
  | stop (stop : Stop)
  | plain
deriving DecidableEq, Repr

/-- The part of a word before its first equals sign, and the part after it if there is one. -/
def splitValue (word : List Char) : String × Option String :=
  match word.dropWhile (· != '=') with
  | _ :: value => (String.ofList (word.takeWhile (· != '=')), some (String.ofList value))
  | [] => (String.ofList word, none)

/-- What a word that starts with two hyphens is. -/
def classifyLong (word : String) : Word :=
  let (name, value) := splitValue word.toList
  match Setting.ofWord? name, Flag.ofWord? name, value with
  | some setting, _, some value => .attached setting value
  | some setting, _, none => .awaiting setting
  | none, some flag, none => .flag flag
  | none, some _, some _ => .stop (.usage (.unexpectedValue name))
  | none, none, value =>
    if name = "--help" then .stop (if value.isSome then .usage (.unexpectedValue name) else .help)
    else if name = "--version" then
      .stop (if value.isSome then .usage (.unexpectedValue name) else .version)
    else .stop (.usage (.unknownOption word))

/-- What a word is. A single hyphen is a plain word. -/
def classify (word : String) : Word :=
  match word.toList with
  | ['-'] => .plain
  | ['-', '-'] => .separator
  | '-' :: '-' :: _ => classifyLong word
  | '-' :: 'o' :: [] => .awaiting .output
  | '-' :: 'o' :: '=' :: value => .attached .output (String.ofList value)
  | '-' :: 'o' :: value => .attached .output (String.ofList value)
  | '-' :: 'h' :: _ => .stop .help
  | '-' :: 'V' :: _ => .stop .version
  | '-' :: _ => .stop (.usage (.unknownOption word))
  | _ => .plain

/-- Read words after the end of the options. -/
def readPlain (draft : Draft) : List String → Except Stop Draft
  | [] => .ok draft
  | word :: rest => do readPlain (← draft.place word) rest

/-- Read words, where `pending` is the option that the next word is the value of. -/
def readWords (draft : Draft) (pending : Option Setting) : List String → Except Stop Draft
  | [] =>
    match pending with
    | some setting => refuse (.missingValue setting.word)
    | none => .ok draft
  | word :: rest =>
    match pending, classify word with
    | some setting, .plain => do readWords (← draft.set setting word) none rest
    | some setting, _ => refuse (.missingValue setting.word)
    | none, .separator => readPlain draft rest
    | none, .attached setting value => do readWords (← draft.set setting value) none rest
    | none, .awaiting setting => readWords draft (some setting) rest
    | none, .flag flag => do readWords (← draft.raise flag) none rest
    | none, .stop stop => .error stop
    | none, .plain => do readWords (← draft.place word) none rest

/-- The call that a complete command line asks for. -/
def Draft.invocation (draft : Draft) : Except Stop Invocation :=
  match draft.source with
  | none => refuse .missingSource
  | some source =>
    .ok {
      source := source
      output := draft.output
      emit := draft.emit.getD .definitions
      options :=
        { keepPoly := draft.flags.contains .keepPoly
          stem := draft.stem.getD Options.default.stem
          debug := draft.flags.contains .debug }
      verbose := draft.flags.contains .verbose }

/-- Read a command line. -/
def read (words : List String) : Except Stop Invocation := do
  (← readWords .empty none words).invocation

end Arguments

/-- Why a file could not be read or written. -/
inductive FileFault where
  | notFound
  | isDirectory
  | notDirectory
  | permissionDenied
  | nameTooLong
  /-- The bytes of the file are no text in UTF-8. -/
  | notText
  | other (message : String)
deriving DecidableEq, Repr

/-- The message of the operating system about a file. -/
def FileFault.message : FileFault → String
  | notFound => "No such file or directory (os error 2)"
  | permissionDenied => "Permission denied (os error 13)"
  | notDirectory => "Not a directory (os error 20)"
  | isDirectory => "Is a directory (os error 21)"
  | nameTooLong => "File name too long (os error 36)"
  | notText => "stream did not contain valid UTF-8"
  | other message => message

/-- The world as the program sees it. -/
structure System (m : Type → Type) where
  /-- The text of a file. -/
  read : String → m (Except FileFault String)
  /-- Make a file with a text, or replace it. -/
  write : String → String → m (Except FileFault Unit)
  /-- The milliseconds since the last time this was asked for. -/
  lap : m String

/-- What a call of the program leaves behind, apart from files. -/
structure Response where
  code : Nat
  output : String
  errors : String
deriving DecidableEq, Repr

namespace CommandLine

/-- The name of the program. -/
def programName : String := "tdmono"

/-- The text that explains the command line. -/
def helpText : String :=
  String.join (List.map (· ++ "\n") [
    "Monomorphizes parametrized type definitions into flat, parameterless ones",
    "",
    "Usage: tdmono [OPTIONS] <SOURCE>",
    "",
    "Arguments:",
    "  <SOURCE>  Input type definition file",
    "",
    "Options:",
    "  -o, --output <OUTPUT>  Output file path (stdout when absent)",
    "      --emit <EMIT>      Output stage: defs, ast, json or build-info [default: defs]",
    "      --keep-poly        Keep parametrized definitions in the output",
    "      --prefix <PREFIX>  Prefix for names given to synthesized definitions [default: _]",
    "      --debug            Leave canonical `@(...)` names in place",
    "      --verbose          Print pass timing and expansion events",
    "  -h, --help             Print help",
    "  -V, --version          Print version"])

/-- The deepest nesting of specializations that the program follows. -/
def depth : Nat := 1000000

/-- How a line of progress shows a character. Those that can begin a control sequence of a terminal
show as escapes, so that no source text can steer the terminal it is read on. -/
def progressChar (c : Char) : String :=
  match c with
  | '\x07' => "\\x07"
  | '\x08' => "\\x08"
  | '\x0c' => "\\x0c"
  | '\x1b' => "\\x1b"
  | '\x7f' => "\\x7f"
  | c =>
    if 0x80 ≤ c.toNat ∧ c.toNat ≤ 0x9f then
      "\\u\x7b" ++ String.ofList (Nat.toDigits 16 c.toNat) ++ "\x7d"
    else String.singleton c

/-- One line of progress. -/
def progress (message : String) : String :=
  "DEBUG " ++ String.join (message.toList.map progressChar) ++ "\n"

/-- One line about a failure of the program itself. -/
def complaint (message : String) : String := programName ++ ": " ++ message ++ "\n"

/-- A complaint about a file. -/
def fileComplaint (path : String) (fault : FileFault) : String :=
  complaint (s!"error: {path}: " ++ fault.message)

/-- Diagnostics about a file, a line or more for each. -/
def renderDiagnostics (path source : String) (diagnostics : List Diagnostic) : String :=
  String.join (diagnostics.map fun d => (d.render? path source).getD d.display ++ "\n")

/-- The message about a failed expansion. -/
def failureMessage : Failure → String
  | .fault fault => fault.message
  | .tooDeep => s!"specializations nest more than {depth} deep"

/-- The text that a call writes, or the exit code of a failure, and what goes to standard error. -/
structure Result where
  events : List CompilationEvent
  errors : String
  text : Except Nat String

/-- Compile a source text, with its diagnostics. -/
def compileFor (path source : String) (options : Options) (terminal : Pass)
    (text : Output → String) : Result :=
  match compileTo depth options terminal source with
  | (.ok output, events) =>
    ⟨events, renderDiagnostics path source output.diagnostics, .ok (text output)⟩
  | (.error (.rejected diagnostics), events) =>
    ⟨events, renderDiagnostics path source diagnostics ++ complaint (rejectionMessage diagnostics),
      .error 1⟩
  | (.error (.expansion failure), events) =>
    ⟨events, complaint ("error: " ++ failureMessage failure), .error 1⟩

/-- What a call writes for a source text. -/
def produce (call : Invocation) (source : String) : Result :=
  let options := call.options
  match call.emit with
  | .buildInfo => ⟨[], "", .ok (Provenance.ofSource source).toJson.toFile⟩
  | .ast =>
    compileFor call.source source options .check fun output => TypeDef.renderAll output.input
  | .definitions => compileFor call.source source options options.terminal Output.render
  | .json =>
    compileFor call.source source options options.terminal fun output =>
      (output.toJson options).toFile

section Respond

variable {m : Type → Type} [Monad m] (system : System m)

/-- The message of an event; a finished stage tells how long it took. -/
def eventMessage : CompilationEvent → m String
  | .complete stage => do
    let lap ← system.lap
    return s!"{stage} complete, {lap}ms"
  | .parsed definitions => return s!"parsed {definitions} definitions"
  | .expansion event => return event.message

/-- Process a source file. -/
def process (call : Invocation) : m Response := do
  let shown := fun message => if call.verbose then progress message else ""
  let opening := shown s!"source = {call.source}" ++ shown s!"emit   = {call.emit.label}"
  match ← system.read call.source with
  | .error fault => return ⟨2, "", opening ++ fileComplaint call.source fault⟩
  | .ok source =>
    let result := produce call source
    let events ← result.events.mapM (eventMessage system)
    let errors := opening ++ String.join (events.map shown) ++ result.errors
    match result.text, call.output with
    | .error code, _ => return ⟨code, "", errors⟩
    | .ok text, none => return ⟨0, text, errors⟩
    | .ok text, some path =>
      match ← system.write path text with
      | .ok () => return ⟨0, "", errors⟩
      | .error fault => return ⟨2, "", errors ++ fileComplaint path fault⟩

/-- Answer a command line. -/
def respond (words : List String) : m Response :=
  match Arguments.read words with
  | .ok call => process system call
  | .error .help => return ⟨0, helpText, ""⟩
  | .error .version => return ⟨0, programName ++ " " ++ version ++ "\n", ""⟩
  | .error (.usage error) => return ⟨2, "", "error: " ++ error.message ++ "\n"⟩

end Respond

end CommandLine

end Monomorph
