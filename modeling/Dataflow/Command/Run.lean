import Dataflow.Command.Arguments
import Dataflow.Description.Storage
import Dataflow.Report.Document
import Dataflow.Report.Text

/-!
# Carrying out commands

`validate` checks a description; `schedule` compiles it and reports the plan. A failure is told by a
chain of messages, from the command down to the first cause.
-/

namespace Dataflow.Command

variable {m : Type → Type} [Monad m] [FileAccess m]

/-- What a command has to say: text to print, or why it failed. -/
abbrev Verdict := Except (List String) String

def graphCause {α : Type} (context : String) : Except GraphError α → Except (List String) α
  | .ok a => .ok a
  | .error e => .error [context, e.message]

def cause {α : Type} (context : List String) :
    Except DescriptionError α → Except (List String) α
  | .ok a => .ok a
  | .error e => .error (context ++ e.chain)

def load (path : String) : m (Except (List String) Description) := do
  return cause ["loading " ++ path] (← Description.load path)

/-! ## Validating -/

def validateDescription (d : Description) : Verdict := do
  let g ← cause [] d.toGraph
  graphCause "invalid graph" g.validate
  let repetitions ← graphCause "rates are not balanced" g.solve
  let order ← graphCause "no periodic schedule" (g.periodOrder repetitions d.maxPeriod.toNat)
  return "OK: '" ++ d.name ++ "' has " ++ Decimal.text g.nodes.length ++ " nodes, "
    ++ Decimal.text g.edges.length ++ " edges, " ++ Decimal.text order.length
    ++ " activations per period\n"

def validate (file : String) : m Verdict := do
  return (← load file).bind validateDescription

/-! ## Scheduling -/

/-- The description with the settings of the command line in place of its own. -/
def override (args : ScheduleArgs) (d : Description) : Description :=
  { d with
    mode := args.mode.getD d.mode
    margin := args.margin.getD d.margin
    capacityLimit := args.capacityLimit.orElse fun _ ↦ d.capacityLimit }

def render (format : Format) (r : Report) : Verdict :=
  match format with
  | .text => .ok r.toText
  | .json => .ok r.toJson
  | .toml => cause [] r.toToml

def scheduleDescription (args : ScheduleArgs) (d : Description) : Verdict := do
  let d := override args d
  let plan ← cause ["compiling '" ++ d.name ++ "'"] d.compile
  render args.format (Report.ofPlan d.name plan)

/-- Prints a text, or puts it into a file. -/
def emit (output : Option String) (text : String) : m Verdict := do
  match output with
  | none => return .ok text
  | some path =>
    match ← FileAccess.write path text.toUTF8 with
    | .ok () => return .ok ""
    | .error e => return .error ["writing " ++ path, e.message]

def schedule (args : ScheduleArgs) : m Verdict := do
  match (← load args.file).bind (scheduleDescription args) with
  | .error chain => return .error chain
  | .ok text => emit args.output text

def run : Task → m Verdict
  | .validate file => validate file
  | .schedule args => schedule args

end Dataflow.Command
