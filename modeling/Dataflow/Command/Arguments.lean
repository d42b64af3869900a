import Dataflow.Schedule.Mode
import Dataflow.Text.Decimal
import Dataflow.Word

/-!
# Command lines

A command line names a command and gives it a file and settings. Flags and settings have long names,
behind two dashes, and some a letter, behind one; letters may be joined, and a value may follow in the
same argument or in the next. Behind two bare dashes everything is a file.

A value is looked at only when the next known flag, setting or file comes, or at the end, so an unknown
name further on is found before a wrong value.
-/

namespace Dataflow.Command

/-- The form of a report. -/
inductive Format where
  | text
  | json
  | toml
  deriving DecidableEq, Repr

/-- Why a command line is not carried out. Help and version are answers, the others are mistakes. -/
inductive Refusal where
  | displayHelp
  | displayVersion
  /-- Nothing is given at all. -/
  | displayHelpOnMissing
  | missingSubcommand
  | invalidSubcommand
  | unknownArgument
  /-- A value for a flag. -/
  | tooManyValues
  /-- The same name twice. -/
  | argumentConflict
  | invalidValue
  | valueValidation
  | missingRequiredArgument
  deriving DecidableEq, Repr

def Refusal.exitCode : Refusal → Nat
  | .displayHelp | .displayVersion => 0
  | _ => 2

inductive Flag where
  | verbose
  | help
  | version
  deriving DecidableEq, Repr

/-- Names that take a value. -/
inductive Setting where
  | mode
  | margin
  | capacityLimit
  | format
  | output
  deriving DecidableEq, Repr

/-- Where a value belongs. -/
inductive Place where
  | file
  | setting (s : Setting)
  deriving DecidableEq, Repr

/-- What one level of a command line accepts. -/
structure Level where
  flags : List Flag
  settings : List Setting
  takesFile : Bool
  deriving DecidableEq, Repr

def rootLevel : Level := ⟨[.verbose, .help, .version], [], false⟩

def validateLevel : Level := ⟨[.verbose, .help], [], true⟩

def scheduleLevel : Level :=
  ⟨[.verbose, .help], [.mode, .margin, .capacityLimit, .format, .output], true⟩

/-! ## Names -/

inductive Name where
  | flag (f : Flag)
  | setting (s : Setting)
  deriving DecidableEq, Repr

def Level.names (l : Level) : List Name := l.flags.map .flag ++ l.settings.map .setting

def Name.long : Name → String
  | .flag .verbose => "verbose"
  | .flag .help => "help"
  | .flag .version => "version"
  | .setting .mode => "mode"
  | .setting .margin => "margin"
  | .setting .capacityLimit => "capacity-limit"
  | .setting .format => "format"
  | .setting .output => "output"

def Name.letter? : Name → Option Char
  | .flag .verbose => some 'v'
  | .flag .help => some 'h'
  | .flag .version => some 'V'
  | .setting .format => some 'f'
  | .setting .output => some 'o'
  | .setting _ => none

/-! ## Values -/

/-- What has been given on one level. -/
structure Given where
  verbose : Bool
  file : Option String
  mode : Option Mode
  margin : Option UInt32
  capacityLimit : Option UInt64
  format : Option Format
  output : Option String
  deriving DecidableEq, Repr

def Given.none : Given := ⟨false, .none, .none, .none, .none, .none, .none⟩

def format? (value : String) : Option Format :=
  if value == "text" then some .text
  else if value == "json" then some .json
  else if value == "toml" then some .toml
  else none

/-- A number of 32 bits, which may have a sign. -/
def margin? (value : String) : Option UInt32 :=
  let read (digits : List Char) : Option Nat := Decimal.value? digits
  let n := match value.toList with
    | '+' :: digits => read digits
    | '-' :: digits => (read digits).filter (· == 0)
    | digits => read digits
  n.bind fun n ↦ if n < 4294967296 then some (UInt32.ofNat n) else none

/-- A number of 64 bits, which may have a plus sign. -/
def capacityLimit? (value : String) : Option UInt64 :=
  let digits := match value.toList with
    | '+' :: digits => digits
    | digits => digits
  ((Decimal.value? digits).bind Word.checked).map UInt64.ofNat

/-- A path is not empty. -/
def path? (value : String) : Option String := if value.isEmpty then none else some value

/-- Takes a first value for a place, if it can be read. -/
def take {α : Type} (known : Option α) (read : String → Option α) (wrong : Refusal)
    (value : String) : Except Refusal (Option α) :=
  if known.isSome then .error .argumentConflict
  else
    match read value with
    | some a => .ok (some a)
    | none => .error wrong

/-- Puts a value in its place. -/
def Given.accept (g : Given) : Place → Option String → Except Refusal Given
  | _, .none => .error .invalidValue
  | .file, some v => do return { g with file := ← take g.file path? .invalidValue v }
  | .setting .mode, some v => do return { g with mode := ← take g.mode Mode.ofText? .invalidValue v }
  | .setting .margin, some v => do
    return { g with margin := ← take g.margin margin? .valueValidation v }
  | .setting .capacityLimit, some v => do
    return { g with capacityLimit := ← take g.capacityLimit capacityLimit? .valueValidation v }
  | .setting .format, some v => do
    return { g with format := ← take g.format format? .invalidValue v }
  | .setting .output, some v => do return { g with output := ← take g.output path? .invalidValue v }

/-! ## Reading one level -/

/-- A level half read: what has been given, a place whose value has not been looked at or has not come
yet, whether the file has come, and whether two bare dashes have. -/
structure Reading where
  given : Given
  pending : Option (Place × Option String)
  fileSeen : Bool
  trailing : Bool
  deriving DecidableEq, Repr

namespace Reading

def start : Reading := ⟨.none, none, false, false⟩

/-- Looks at the value that is pending. -/
def settle (r : Reading) : Except Refusal Reading :=
  match r.pending with
  | none => .ok r
  | some (place, value) => do return { r with given := ← r.given.accept place value, pending := none }

/-- A place is named, and its value is still to come. -/
def await (r : Reading) (s : Setting) : Except Refusal Reading := do
  return { ← r.settle with pending := some (.setting s, none) }

/-- A place is named together with its value. -/
def assign (r : Reading) (s : Setting) (value : String) : Except Refusal Reading := do
  let r ← r.settle
  return { r with given := ← r.given.accept (.setting s) (some value) }

def raise (r : Reading) (f : Flag) : Except Refusal Reading := do
  let r ← r.settle
  match f with
  | .help => throw .displayHelp
  | .version => throw .displayVersion
  | .verbose =>
    if r.given.verbose then throw .argumentConflict
    else return { r with given := { r.given with verbose := true } }

/-- An argument that is not the name of anything. -/
def word (r : Reading) (l : Level) (arg : String) : Except Refusal Reading :=
  if l.takesFile && !r.fileSeen then do
    return { ← r.settle with pending := some (.file, some arg), fileSeen := true }
  else .error .unknownArgument

end Reading

/-- The name and the value of an argument behind its two dashes. -/
def splitLong (cs : List Char) : String × Option String :=
  let name := String.ofList (cs.takeWhile (· != '='))
  match cs.dropWhile (· != '=') with
  | [] => (name, none)
  | _ :: value => (name, some (String.ofList value))

def readLong (l : Level) (r : Reading) (cs : List Char) : Except Refusal Reading :=
  let (name, value) := splitLong cs
  match l.names.find? (·.long == name), value with
  | none, _ => .error .unknownArgument
  | some (.flag f), none => r.raise f
  | some (.flag _), some _ => .error .tooManyValues
  | some (.setting s), none => r.await s
  | some (.setting s), some value => r.assign s value

/-- The letters of an argument behind its dash. The first that takes a value has the rest for it. -/
def readLetters (l : Level) (r : Reading) : List Char → Except Refusal Reading
  | [] => .ok r
  | c :: rest =>
    match l.names.find? (·.letter? == some c) with
    | none => .error .unknownArgument
    | some (.flag f) => do readLetters l (← r.raise f) rest
    | some (.setting s) =>
      match rest with
      | [] => r.await s
      | '=' :: value => r.assign s (String.ofList value)
      | value => r.assign s (String.ofList value)

/-- Reads one argument. -/
def read (l : Level) (r : Reading) (arg : String) : Except Refusal Reading :=
  if r.trailing then r.word l arg
  else
    match arg.toList with
    | ['-', '-'] => .ok { r with trailing := true }
    | '-' :: '-' :: cs => readLong l r cs
    | '-' :: c :: cs => readLetters l r (c :: cs)
    | _ =>
      match r.pending with
      | some (.setting s, none) => .ok { r with pending := some (.setting s, some arg) }
      | _ => r.word l arg

/-! ## Whole command lines -/

structure ScheduleArgs where
  file : String
  mode : Option Mode
  margin : Option UInt32
  capacityLimit : Option UInt64
  format : Format
  output : Option String
  deriving DecidableEq, Repr

inductive Task where
  | validate (file : String)
  | schedule (args : ScheduleArgs)
  deriving DecidableEq, Repr

structure Invocation where
  verbose : Bool
  task : Task
  deriving DecidableEq, Repr

inductive Subcommand where
  | validate
  | schedule
  | help
  deriving DecidableEq, Repr

def Subcommand.ofText? (s : String) : Option Subcommand :=
  if s == "validate" then some .validate
  else if s == "schedule" then some .schedule
  else if s == "help" then some .help
  else none

/-- The arguments of a command, all of which stand behind its name. -/
def readCommand (l : Level) (args : List String) : Except Refusal (Given × String) := do
  let r ← (← args.foldlM (read l) .start).settle
  match r.given.file with
  | none => throw .missingRequiredArgument
  | some file => return (r.given, file)

/-- Help on a command, the commands of which have no commands of their own. -/
def help : List String → Refusal
  | [] => .displayHelp
  | [name] => if (Subcommand.ofText? name).isSome then .displayHelp else .invalidSubcommand
  | _ => .invalidSubcommand

def readSubcommand (verbose : Bool) (args : List String) : Subcommand → Except Refusal Invocation
  | .help => .error (help args)
  | .validate => do
    let (g, file) ← readCommand validateLevel args
    return ⟨verbose || g.verbose, .validate file⟩
  | .schedule => do
    let (g, file) ← readCommand scheduleLevel args
    let args : ScheduleArgs :=
      ⟨file, g.mode, g.margin, g.capacityLimit, g.format.getD .text, g.output⟩
    return ⟨verbose || g.verbose, .schedule args⟩

/-- The flags in front of the command, and the command. -/
def readRoot (r : Reading) : List String → Except Refusal Invocation
  | [] => .error (if r.given.verbose then .missingSubcommand else .displayHelpOnMissing)
  | arg :: rest =>
    match Subcommand.ofText? arg with
    | some c => if r.trailing then .error .unknownArgument else readSubcommand r.given.verbose rest c
    | none =>
      match read rootLevel r arg with
      | .ok r => readRoot r rest
      | .error e =>
        if r.trailing || !arg.startsWith "-" || arg == "-" then .error .invalidSubcommand
        else .error e

def parse (args : List String) : Except Refusal Invocation := readRoot .start args

end Dataflow.Command
