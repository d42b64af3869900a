import Dataflow.Engine.Activation
import Dataflow.Engine.Binding
import Dataflow.Engine.Run
import Dataflow.Fifo.Contents
import Dataflow.Fifo.Scalar
import Dataflow.Files.Tree
import Dataflow.Main
import Dataflow.Proofs.Command.Agreement
import Dataflow.Proofs.Engine.Independence
import Dataflow.Proofs.Engine.Passes
import Dataflow.Proofs.Engine.Poisoning
import Dataflow.Proofs.Engine.Suspension
import Dataflow.Proofs.Engine.Rebuilding
import Dataflow.Proofs.Engine.Sweep
import Dataflow.Proofs.Engine.Observers
import Dataflow.Proofs.Engine.Stopping
import Dataflow.Proofs.Engine.Recovery
import Dataflow.Proofs.Engine.Overwriting
import Dataflow.Proofs.Engine.Restart
import Dataflow.Proofs.Engine.Reports
import Dataflow.Proofs.Engine.Turns
import Dataflow.Proofs.Engine.Skips
import Dataflow.Proofs.Description.Names
import Dataflow.Proofs.Engine.Fields
import Dataflow.Proofs.Machine.Plan
import Dataflow.Proofs.Schedule.Search
import Dataflow.Proofs.Schedule.Least
import Dataflow.Proofs.Report.Document
import Dataflow.Proofs.Report.Memory
import Dataflow.Proofs.Schedule.Solvable
import Dataflow.Proofs.Schedule.Headroom
import Dataflow.Proofs.Schedule.ZeroRates
import Dataflow.Proofs.Engine.Guards
import Dataflow.Proofs.Engine.Starting
import Dataflow.Proofs.Engine.Truncation
import Dataflow.Proofs.Engine.Polling
