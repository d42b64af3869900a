import Dataflow.Engine.Blob
import Dataflow.Engine.Ports
import Dataflow.Engine.Stop

/-!
# Behaviours of nodes and observers

A behaviour is what the host supplies for a node: how it fires, and optionally how it starts, when it
is ready, how its state is parked and how it ends. Each callback may change the memory of the node
(`σ`) and the surroundings of the engine (`World ω`); only `run` reaches queues. Observers see periods
and firings begin and end, and may change the surroundings.
-/

namespace Dataflow

variable {κ : Type} [ElementKind κ] {σ ω : Type}

/-- A callback that gives an `α` and may change the memory of its node and the surroundings. -/
abbrev Callback (σ ω α : Type) := StateM (σ × World ω) α

/-- Ready when every input holds its rate and every output has room for its rate. -/
def PortView.readiness (v : PortView) : Readiness :=
  if v.inputsReady && v.outputsReady then .proceed else .skip

structure Behaviour (κ : Type) [ElementKind κ] (σ ω : Type) where
  /-- One firing. -/
  run : StateT (σ × World ω) (Activity κ) (Except NodeError RunStatus)
  /-- Called once, when the engine is built. -/
  init : Callback σ ω (Except NodeError Unit) := pure (.ok ())
  prepare : PortView → Callback σ ω Readiness := fun v ↦ pure v.readiness
  /-- The state to be parked after a firing; a node without a state gives nothing. -/
  save : Callback σ ω (Option Blob) := pure none
  restore : Blob → Callback σ ω (Except NodeError Unit) := fun _ ↦ pure (.ok ())
  reset : Callback σ ω Unit := pure ()
  teardown : Callback σ ω Unit := pure ()

/-- A node in an engine: how it behaves and what it remembers. -/
structure Instance (κ : Type) [ElementKind κ] (σ ω : Type) where
  behaviour : Behaviour κ σ ω
  memory : σ

structure Hooks (ω : Type) where
  beforePeriod : Nat → World ω → World ω := fun _ w ↦ w
  afterPeriod : Nat → World ω → World ω := fun _ w ↦ w
  beforeActivation : NodeId → World ω → World ω := fun _ w ↦ w
  afterActivation : NodeId → Outcome → World ω → World ω := fun _ _ w ↦ w

/-- Nobody observes. -/
def Hooks.none : Hooks ω := {}

end Dataflow
