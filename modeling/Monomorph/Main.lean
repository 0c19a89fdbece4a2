import Monomorph.CommandLine

/-!
# The program

Runs the command line on the files of the machine.
-/

namespace Monomorph

/-- The number of a system error, which some calls give with its sign turned. -/
def errorNumber (code : UInt32) : UInt32 := min code (0 - code)

/-- The fault that an error of the operating system stands for. -/
def faultOf (error : IO.Error) : FileFault :=
  match error with
  | .noFileOrDirectory .. => .notFound
  | .permissionDenied .. => .permissionDenied
  | .inappropriateType _ code _ => if errorNumber code = 20 then .notDirectory else .isDirectory
  | .invalidArgument _ code _ =>
    if errorNumber code = 36 then .nameTooLong else .other (toString error)
  | _ => .other (toString error)

/-- Turn an action on a file into its outcome. -/
def outcomeOf {α : Type} (action : IO α) : IO (Except FileFault α) := do
  try
    return .ok (← action)
  catch error =>
    return .error (faultOf error)

/-- The files and the clock of the machine. -/
def machine (clock : IO.Ref Nat) : System IO where
  read path := do
    match ← outcomeOf (IO.FS.readBinFile path) with
    | .error fault => return .error fault
    | .ok bytes =>
      match String.fromUTF8? bytes with
      | some text => return .ok text
      | none => return .error .notText
  write path text := outcomeOf (IO.FS.writeFile path text)
  lap := do
    let now ← IO.monoNanosNow
    let before ← clock.swap now
    return (Json.decimal ((now - before) / 100000) 1)

end Monomorph

open Monomorph in
/-- Answer the command line and exit. -/
def main (words : List String) : IO UInt32 := do
  let clock ← IO.mkRef (← IO.monoNanosNow)
  let response ← CommandLine.respond (machine clock) words
  IO.eprint response.errors
  IO.print response.output
  return response.code.toUInt32
