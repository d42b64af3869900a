import Dataflow.Text.Decimal

/-!
# Rounding

Quotients are rounded to the nearest integer, and a half goes to the even one of its neighbours.
-/

namespace Dataflow.Rounding

/-- `num / den` to the nearest integer. -/
def nearest (num den : Nat) : Nat :=
  let floor := num / den
  let twice := 2 * (num % den)
  if twice < den then floor
  else if den < twice then floor + 1
  else floor + floor % 2

/-- The nearest number that has at most 53 binary digits but for zeros at the end. -/
def toSignificand (n : Nat) : Nat :=
  let unit := Nat.pow 2 (n.log2 + 1 - 53)
  nearest n unit * unit

/-- `num / den` with one decimal place. -/
def oneDecimal (num den : Nat) : String :=
  let tenths := nearest (num * 10) den
  Decimal.text (tenths / 10) ++ "." ++ Decimal.text (tenths % 10)

end Dataflow.Rounding
