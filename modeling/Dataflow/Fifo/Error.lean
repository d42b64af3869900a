import Dataflow.Text.Decimal

/-!
# What can be wrong with a queue operation
-/

namespace Dataflow

inductive FifoError where
  | underflow (requested available : Nat)
  | overflow (requested free : Nat)
  | storageTooSmall (required provided : Nat)
  | delayExceedsCapacity (delay capacity : Nat)
  | zeroCapacity
  deriving DecidableEq, Repr

def FifoError.message : FifoError → String
  | .underflow requested available =>
    "underflow: requested " ++ Decimal.text requested ++ ", " ++ Decimal.text available ++ " available"
  | .overflow requested free =>
    "overflow: requested " ++ Decimal.text requested ++ ", " ++ Decimal.text free ++ " free"
  | .storageTooSmall required provided =>
    "storage holds " ++ Decimal.text provided ++ " elements, capacity needs "
      ++ Decimal.text required
  | .delayExceedsCapacity delay capacity =>
    "delay " ++ Decimal.text delay ++ " exceeds capacity " ++ Decimal.text capacity
  | .zeroCapacity => "capacity must be at least 1"

end Dataflow
