import Dataflow.Report.Basic
import Dataflow.Text.Rounding

/-!
# Reports as text

The summary of a plan for people to read.
-/

namespace Dataflow

/-- A number of bytes: as it is, or in units of 1024 or of 1024 times 1024 with one decimal place. -/
def bytesText (bytes : Nat) : String :=
  if bytes < 1024 then Decimal.text bytes ++ " B"
  else if bytes < 1048576 then Rounding.oneDecimal bytes 1024 ++ " KB"
  else Rounding.oneDecimal (Rounding.toSignificand bytes) 1048576 ++ " MB"

/-- The text with blanks behind it up to `width` characters. -/
def padRight (width : Nat) (s : String) : String :=
  s ++ String.ofList (List.replicate (width - s.length) ' ')

namespace Report

def nodeLine (width : Nat) (n : NodeReport) : String :=
  "  " ++ padRight width n.name ++ "  x" ++ padRight 4 (Decimal.text n.repetitions.toNat) ++ " code "
    ++ Decimal.text n.code.toNat ++ "\n"

def edgeLine (e : EdgeReport) : String :=
  "  " ++ e.source ++ " -> " ++ e.target ++ "  " ++ e.type ++ " " ++ Decimal.text e.production.toNat
    ++ ":" ++ Decimal.text e.consumption.toNat ++ "  delay " ++ Decimal.text e.delay.toNat
    ++ "  capacity " ++ Decimal.text e.capacity.toNat ++ " (" ++ bytesText e.bytes.toNat ++ ")\n"

/-- Names of nodes are padded to the greatest number of bytes in a name. -/
def nameWidth (r : Report) : Nat := (r.nodes.map (·.name.utf8ByteSize)).foldl max 0

def toText (r : Report) : String :=
  "Graph:   " ++ r.name ++ "\n"
    ++ "Mode:    " ++ r.mode.text ++ "\n"
    ++ "Period:  " ++ Decimal.text r.activations.toNat ++ " activations\n"
    ++ "Memory:  " ++ bytesText r.memoryBytes.toNat ++ "\n"
    ++ "Order:   " ++ " ".intercalate r.order ++ "\n"
    ++ (match r.firingOrder with
      | none => ""
      | some names => "Firing:  " ++ " ".intercalate names ++ "\n")
    ++ "\nNodes:\n" ++ String.join (r.nodes.map (nodeLine r.nameWidth))
    ++ "\nEdges:\n" ++ String.join (r.edges.map edgeLine)

end Report

end Dataflow
