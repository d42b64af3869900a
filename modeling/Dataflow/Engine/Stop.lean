/-!
# Stop requests

A stop token is a flag that hosts, nodes and observers can raise, and that an engine looks at between
firings. Tokens with the same number are the same flag. A board holds the flags that are raised.
-/

namespace Dataflow

abbrev StopToken := Nat

structure StopBoard where
  raised : List StopToken
  deriving DecidableEq, Repr

namespace StopBoard

def empty : StopBoard := ⟨[]⟩

def isRaised (b : StopBoard) (t : StopToken) : Bool := b.raised.contains t

def raise (b : StopBoard) (t : StopToken) : StopBoard :=
  if b.isRaised t then b else ⟨t :: b.raised⟩

def lower (b : StopBoard) (t : StopToken) : StopBoard := ⟨b.raised.filter (· != t)⟩

end StopBoard

/-- What an engine shares with its surroundings: the stop flags and whatever the host keeps. -/
structure World (ω : Type) where
  stops : StopBoard
  host : ω

end Dataflow
