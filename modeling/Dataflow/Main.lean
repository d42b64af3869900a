import Dataflow.Command.Run

/-!
# The program
-/

namespace Dataflow

/-- A fault of the operating system. -/
def FileError.ofIO : IO.Error → FileError
  | .noFileOrDirectory .. => .notFound
  | .alreadyExists .. => .alreadyExists
  | .inappropriateType _ 21 _ => .isDirectory
  | .inappropriateType .. => .notDirectory
  | e => .other (toString e)

/-- An action whose faults are given as values. -/
def guarded {α : Type} (action : IO α) : IO (Except FileError α) := do
  try return .ok (← action)
  catch e => return .error (.ofIO e)

instance : FileAccess IO where
  read path := guarded (IO.FS.readBinFile path)
  write path content := guarded (IO.FS.writeBinFile path content)
  pathExists path := do
    try
      discard (IO.FS.readBinFile path)
      return true
    catch
      | .inappropriateType _ 21 _ => return true
      | _ => return false
  createDirs path := guarded (IO.FS.createDirAll path)

def usage : String :=
  "Usage: cadence [-v] validate FILE\n"
    ++ "       cadence [-v] schedule FILE [--mode MODE] [--margin PERCENT]\n"
    ++ "               [--capacity-limit ELEMENTS] [--format FORMAT] [--output FILE]\n"

def version : String := "cadence 0.1.0\n"

def Command.Refusal.text : Command.Refusal → String
  | .displayVersion => version
  | .displayHelp | .displayHelpOnMissing => usage
  | .missingSubcommand => "error: a command is required\n" ++ usage
  | .invalidSubcommand => "error: unknown command\n" ++ usage
  | .unknownArgument => "error: unexpected argument\n" ++ usage
  | .tooManyValues => "error: a flag takes no value\n" ++ usage
  | .argumentConflict => "error: an argument is given twice\n" ++ usage
  | .invalidValue | .valueValidation => "error: invalid value\n" ++ usage
  | .missingRequiredArgument => "error: no file is given\n" ++ usage

end Dataflow

open Dataflow

def main (args : List String) : IO UInt32 := do
  match Command.parse args with
  | .error refusal =>
    if refusal.exitCode = 0 then IO.print refusal.text else IO.eprint refusal.text
    return UInt32.ofNat refusal.exitCode
  | .ok invocation =>
    match ← (Command.run invocation.task : IO Command.Verdict) with
    | .ok text =>
      IO.print text
      return 0
    | .error chain =>
      IO.eprintln ("Error: " ++ ": ".intercalate chain)
      return 1
