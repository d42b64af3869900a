import Dataflow.Description.Basic
import Dataflow.Description.Error
import Dataflow.Document.Toml.Writer

/-!
# Descriptions as documents

The tree of a description has an entry for each part; parts that are absent are left out. What reading
does not know it passes over, and parts that are missing get their defaults. Documents are in the format
that is there for TOML, or in any other.
-/

namespace Dataflow

/-! ## Modes -/

/-- A mode is a text, or a table with the text as its only key and nothing in it. -/
def Mode.ofTree? : Tree → Option Mode
  | .string s => Mode.ofText? s
  | .table [(s, .table [])] | .table [(s, .list [])] => Mode.ofText? s
  | _ => none

/-! ## Parts -/

namespace PortDecl

def toTree (p : PortDecl) : Tree :=
  .table [("type", .string p.type), ("rate", .natural p.rate.toNat)]

def ofTree? (t : Tree) : Option PortDecl := do
  let field ← t.record? ["type", "rate"]
  let type ← (← field "type").text?
  let rate ← (← field "rate").u32?
  return ⟨type, rate⟩

end PortDecl

/-- A list of tables, which is left out if it is empty. -/
def unlessEmpty (key : String) (items : List Tree) : List (String × Tree) :=
  if items.isEmpty then [] else [(key, .list items)]

namespace NodeDecl

def toTree (n : NodeDecl) : Tree :=
  .table <|
    ("name", .string n.name)
      :: (n.code.map fun c ↦ ("code", Tree.natural c.toNat)).toList
      ++ unlessEmpty "inputs" (n.inputs.map PortDecl.toTree)
      ++ unlessEmpty "outputs" (n.outputs.map PortDecl.toTree)

def ofTree? (t : Tree) : Option NodeDecl := do
  let field ← t.record? ["name", "code", "inputs", "outputs"]
  let name ← (← field "name").text?
  let code ← Tree.optional? (fun t ↦ t.u32?.map some) none (field "code")
  let inputs ← Tree.optional? (Tree.listOf? PortDecl.ofTree?) [] (field "inputs")
  let outputs ← Tree.optional? (Tree.listOf? PortDecl.ofTree?) [] (field "outputs")
  return ⟨name, code, inputs, outputs⟩

end NodeDecl

namespace EdgeDecl

def toTree (e : EdgeDecl) : Tree :=
  .table [("from", .string e.source), ("to", .string e.target), ("delay", .natural e.delay.toNat)]

def ofTree? (t : Tree) : Option EdgeDecl := do
  let field ← t.record? ["from", "to", "delay"]
  let source ← (← field "from").text?
  let target ← (← field "to").text?
  let delay ← Tree.optional? Tree.u32? 0 (field "delay")
  return ⟨source, target, delay⟩

end EdgeDecl

namespace TypeTable

def toTree (t : TypeTable) : Tree :=
  .table (t.entries.map fun (name, size) ↦ (name, .natural size.toNat))

def ofTree? : Tree → Option TypeTable
  | .table entries =>
    (entries.mapM fun (entry : String × Tree) ↦ entry.2.u64?.map fun size ↦ (entry.1, size)).map
      TypeTable.ofList
  | _ => none

end TypeTable

/-! ## Descriptions -/

namespace Description

def entries (d : Description) : List (String × Tree) :=
  ("name", .string d.name)
    :: (d.description.map fun s ↦ ("description", Tree.string s)).toList
    ++ [("mode", .string d.mode.text), ("async_margin_percent", .natural d.margin.toNat)]
    ++ (d.capacityLimit.map fun l ↦ ("capacity_limit", Tree.natural l.toNat)).toList
    ++ [("max_period_activations", .natural d.maxPeriod.toNat), ("types", d.types.toTree),
      ("nodes", .list (d.nodes.map NodeDecl.toTree)), ("edges", .list (d.edges.map EdgeDecl.toTree))]

def toTree (d : Description) : Tree := .table d.entries

def ofTree? : Tree → Option Description
  | .table entries => do
    let field (name : String) := entries.lookup name
    let name ← (← field "name").text?
    let description ← Tree.optional? (fun t ↦ t.text?.map some) none (field "description")
    let mode ← Tree.optional? Mode.ofTree? .static (field "mode")
    let margin ← Tree.optional? Tree.u32? 0 (field "async_margin_percent")
    let capacityLimit ← Tree.optional? (fun t ↦ t.u64?.map some) none (field "capacity_limit")
    let maxPeriod ← Tree.optional? Tree.u64? defaultMaxPeriod (field "max_period_activations")
    let types ← Tree.optional? TypeTable.ofTree? .empty (field "types")
    let nodes ← Tree.optional? (Tree.listOf? NodeDecl.ofTree?) [] (field "nodes")
    let edges ← Tree.optional? (Tree.listOf? EdgeDecl.ofTree?) [] (field "edges")
    return { name, description, mode, margin, capacityLimit, maxPeriod, types, nodes, edges }
  | _ => none

def ofToml (text : String) (toml : DocumentFormat := Toml.format) : Except DescriptionError Description :=
  match (toml.read? text).bind ofTree? with
  | some d => .ok d
  | none => .error .malformed

def toToml (d : Description) (toml : DocumentFormat := Toml.format) : Except DescriptionError String :=
  match toml.write? d.toTree with
  | some text => .ok text
  | none => .error .unwritable

end Description

end Dataflow
