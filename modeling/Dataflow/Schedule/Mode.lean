/-!
# Scheduling modes

A period can be replayed in a fixed order, with or without asking each node whether it is ready; or
there is no order at all and a host fires one ready node at a time.
-/

namespace Dataflow

inductive Mode where
  | static
  | asynchronous
  | fullyAsynchronous
  deriving DecidableEq, Repr

namespace Mode

/-- Nodes are asked for their readiness before they fire. -/
def isAsynchronous : Mode → Bool
  | static => false
  | asynchronous | fullyAsynchronous => true

def text : Mode → String
  | static => "static"
  | asynchronous => "async"
  | fullyAsynchronous => "fully-async"

def ofText? (s : String) : Option Mode :=
  [static, asynchronous, fullyAsynchronous].find? (·.text == s)

@[simp]
theorem ofText?_text (m : Mode) : ofText? m.text = some m := by cases m <;> rfl

end Mode

end Dataflow
