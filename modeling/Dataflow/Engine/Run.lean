import Dataflow.Engine.Basic

/-!
# Running

`run` goes on until the stop token is raised, the bound of the context is reached or something fails.
With a fixed order, one round is one period: every node of the order is fired, or passed over when it
is asked and not ready. Without an order, one round is one pass over all nodes that fires those that
are ready; a pass in which none is ends the run. A stop request is noticed between two periods, and
between any two nodes of a pass.
-/

namespace Dataflow

variable {κ : Type} [ElementKind κ] {σ ω : Type}

namespace Session

/-! ## Periods -/

/-- Visits the nodes of one period. With `check` each is asked before it fires. -/
def visitPeriod (check : Bool) :
    List NodeId → Session κ σ ω → Option Failure × Session κ σ ω
  | [], s => (none, s)
  | n :: rest, s =>
    let (ready, s) := if check then s.readiness n else (.proceed, s)
    match ready with
    | .skip => visitPeriod check rest (s.modifyContext (·.recordSkip n))
    | .fatal code =>
      let (failure, s) := s.failNode n (.fatal code)
      (some failure, s)
    | .proceed =>
      match s.fire n false with
      | (.error failure, s) => (some failure, s)
      | (.ok _, s) => visitPeriod check rest s

/-- Marks the end of round `iteration`. -/
def closeRound (s : Session κ σ ω) (iteration : Nat) : Session κ σ ω :=
  (s.modifyContext (·.completePeriod)).observe (·.afterPeriod iteration)

/-- At most `rounds` periods. -/
def runPeriods (check : Bool) : (rounds : Nat) → Session κ σ ω → Option Failure × Session κ σ ω
  | 0, s => (none, s)
  | rounds + 1, s =>
    if s.stopRequested then (none, s)
    else
      let iteration := s.context.iterations
      let s := (s.modifyContext (·.beginPeriod)).observe (·.beforePeriod iteration)
      match visitPeriod check s.engine.plan.order s with
      | (some failure, s) => (some failure, s)
      | (none, s) => runPeriods check rounds (s.closeRound iteration)

section

variable {check : Bool} {s t : Session κ σ ω}

theorem runPeriods_of_stopRequested (hstop : s.stopRequested = true) (rounds : Nat) :
    runPeriods check rounds s = (none, s) := by
  cases rounds with
  | zero => rfl
  | succ rounds => rw [runPeriods, if_pos hstop]

/-- A period that meets no failure is the first one of all runs that are long enough. -/
theorem runPeriods_succ (hstop : s.stopRequested = false)
    (hvisit : visitPeriod check s.engine.plan.order ((s.modifyContext (·.beginPeriod)).observe
      (·.beforePeriod s.context.iterations)) = (none, t)) (rounds : Nat) :
    runPeriods check (rounds + 1) s = runPeriods check rounds (t.closeRound s.context.iterations) := by
  have horder : ((s.modifyContext (·.beginPeriod)).observe
      (·.beforePeriod s.context.iterations)).engine.plan.order = s.engine.plan.order := rfl
  simp only [runPeriods, hstop, horder, hvisit, Bool.false_eq_true, if_false]

theorem runPeriods_succ_of_failure {failure : Failure} (hstop : s.stopRequested = false)
    (hvisit : visitPeriod check s.engine.plan.order ((s.modifyContext (·.beginPeriod)).observe
      (·.beforePeriod s.context.iterations)) = (some failure, t)) (rounds : Nat) :
    runPeriods check (rounds + 1) s = (some failure, t) := by
  have horder : ((s.modifyContext (·.beginPeriod)).observe
      (·.beforePeriod s.context.iterations)).engine.plan.order = s.engine.plan.order := rfl
  simp only [runPeriods, hstop, horder, hvisit, Bool.false_eq_true, if_false]

end

/-! ## Passes -/

/-- How a pass ended: whether a node fired in it, and whether a stop request cut it short. -/
structure Pass where
  started : Bool
  stopped : Bool
  deriving DecidableEq, Repr

/-- Visits the nodes of pass `iteration`. The pass begins for the observers when its first node is
about to fire; `started` tells whether that was before. -/
def visitPass (iteration : Nat) :
    List NodeId → (started : Bool) → Session κ σ ω → Except Failure Pass × Session κ σ ω
  | [], started, s => (.ok ⟨started, false⟩, s)
  | n :: rest, started, s =>
    if s.stopRequested then (.ok ⟨started, true⟩, s)
    else
      match s.readiness n with
      | (.skip, s) => visitPass iteration rest started (s.modifyContext (·.recordSkip n))
      | (.fatal code, s) =>
        let (failure, s) := s.failNode n (.fatal code)
        (.error failure, s)
      | (.proceed, s) =>
        let s := if started then s else s.observe (·.beforePeriod iteration)
        match s.fire n true with
        | (.error failure, s) => (.error failure, s)
        | (.ok _, s) => visitPass iteration rest true s

/-- At most `rounds` passes. -/
def runPasses : (rounds : Nat) → Session κ σ ω → Option Failure × Session κ σ ω
  | 0, s => (none, s)
  | rounds + 1, s =>
    if s.stopRequested then (none, s)
    else
      let iteration := s.context.iterations
      let s := s.modifyContext (·.beginPeriod)
      match visitPass iteration s.engine.plan.firingOrder false s with
      | (.error failure, s) => (some failure, s)
      | (.ok pass, s) =>
        if !pass.started then (none, s)
        else if pass.stopped then (none, s.closeRound iteration)
        else runPasses rounds (s.closeRound iteration)

/-! ## Whole runs -/

/-- The rounds of a run without a bound. The counter of rounds is a machine word, so no run has
more. -/
def unbounded : Nat := Word.modulus

/-- The failure that ends a run, if there is one. -/
def runRounds (s : Session κ σ ω) : Option Failure × Session κ σ ω :=
  let rounds := s.context.limit.getD unbounded
  match s.engine.plan.mode with
  | .fullyAsynchronous => runPasses rounds s
  | .asynchronous => runPeriods true rounds s
  | .static => runPeriods false rounds s

/-- Runs with a context that is reset first. -/
def run (s : Session κ σ ω) : RunReport × Session κ σ ω :=
  let s := s.modifyContext (·.reset)
  let (failure, s) :=
    match s.engine.refusal with
    | some failure => (some failure, s)
    | none => s.runRounds
  let s :=
    match failure with
    | none => s
    | some failure => s.modifyContext (·.fail failure)
  (s.context.report, s)

end Session

end Dataflow
