import Dataflow.Description.Document
import Dataflow.Document.Json
import Dataflow.Report.Basic

/-!
# Reports as documents

The tree of a report has an entry for each part; only the order of firing by readiness can be missing.
-/

namespace Dataflow

/-! ## Parts -/

namespace NodeReport

def toTree (n : NodeReport) : Tree :=
  .table
    [("name", .string n.name), ("code", .natural n.code.toNat),
      ("repetitions", .natural n.repetitions.toNat)]

def ofTree? (t : Tree) : Option NodeReport := do
  let field ← t.record? ["name", "code", "repetitions"]
  let name ← (← field "name").text?
  let code ← (← field "code").u32?
  let repetitions ← (← field "repetitions").u32?
  return ⟨name, code, repetitions⟩

end NodeReport

namespace EdgeReport

def toTree (e : EdgeReport) : Tree :=
  .table
    [("from", .string e.source), ("to", .string e.target), ("type", .string e.type),
      ("production", .natural e.production.toNat), ("consumption", .natural e.consumption.toNat),
      ("delay", .natural e.delay.toNat), ("capacity", .natural e.capacity.toNat),
      ("bytes", .natural e.bytes.toNat)]

def ofTree? (t : Tree) : Option EdgeReport := do
  let field ← t.record?
    ["from", "to", "type", "production", "consumption", "delay", "capacity", "bytes"]
  let source ← (← field "from").text?
  let target ← (← field "to").text?
  let type ← (← field "type").text?
  let production ← (← field "production").u32?
  let consumption ← (← field "consumption").u32?
  let delay ← (← field "delay").u32?
  let capacity ← (← field "capacity").u64?
  let bytes ← (← field "bytes").u64?
  return { source, target, type, production, consumption, delay, capacity, bytes }

end EdgeReport

/-! ## Reports -/

namespace Report

def entries (r : Report) : List (String × Tree) :=
  [("name", .string r.name), ("mode", .string r.mode.text),
    ("period_activations", .natural r.activations.toNat),
    ("memory_bytes", .natural r.memoryBytes.toNat), ("order", .strings r.order)]
    ++ (r.firingOrder.map fun names ↦ ("firing_order", Tree.strings names)).toList
    ++ [("nodes", .list (r.nodes.map NodeReport.toTree)),
      ("edges", .list (r.edges.map EdgeReport.toTree))]

def toTree (r : Report) : Tree := .table r.entries

def ofTree? : Tree → Option Report
  | .table entries => do
    let field (name : String) := entries.lookup name
    let name ← (← field "name").text?
    let mode ← Mode.ofTree? (← field "mode")
    let activations ← (← field "period_activations").u64?
    let memoryBytes ← (← field "memory_bytes").u64?
    let order ← (← field "order").listOf? Tree.text?
    let firingOrder ← Tree.optional? (fun t ↦ (t.listOf? Tree.text?).map some) none
      (field "firing_order")
    let nodes ← (← field "nodes").listOf? NodeReport.ofTree?
    let edges ← (← field "edges").listOf? EdgeReport.ofTree?
    return { name, mode, activations, memoryBytes, order, firingOrder, nodes, edges }
  | _ => none

def toJson (r : Report) (json : Tree → String := Json.write) : String := json r.toTree

def toToml (r : Report) (toml : DocumentFormat := Toml.format) : Except DescriptionError String :=
  match toml.write? r.toTree with
  | some text => .ok text
  | none => .error .unwritable

end Report

end Dataflow
