import Dataflow.Proofs.Engine.Events

/-!
# Recorded firings

Which nodes fire in a call is not written down anywhere in an engine, but an observer can write it down.
The recorder keeps a list beside the data of the host and adds to it each node that has fired. Nothing
else sees the list, so all steps of an execution go as they would without it.
-/

namespace Dataflow

variable {κ : Type} [ElementKind κ] {σ ω α : Type}

/-! ## A list beside the data of the host -/

/-- The data of a host with the nodes that have fired. -/
abbrev Logged (ω : Type) := ω × List NodeId

namespace World

def keeping (w : World ω) (log : List NodeId) : World (Logged ω) := ⟨w.stops, w.host, log⟩

def unlogged (w : World (Logged ω)) : World ω := ⟨w.stops, w.host.1⟩

end World

/-- The callback leaves the list alone. -/
def Callback.logged (c : Callback σ ω α) : Callback σ (Logged ω) α := fun s ↦
  let (answer, memory, world) := c (s.1, s.2.unlogged)
  (answer, memory, world.keeping s.2.host.2)

/-- The node does not know of the list. -/
def Behaviour.logged (b : Behaviour κ σ ω) : Behaviour κ σ (Logged ω) where
  run := fun s ↦ (b.run (s.1, s.2.unlogged)).bind fun r ↦
    .done (r.1, r.2.1, r.2.2.keeping s.2.host.2)
  init := Callback.logged b.init
  prepare := fun v ↦ Callback.logged (b.prepare v)
  save := Callback.logged b.save
  restore := fun blob ↦ Callback.logged (b.restore blob)
  reset := Callback.logged b.reset
  teardown := Callback.logged b.teardown

/-- Adds the nodes that have fired to the list. -/
def Hooks.logged (h : Hooks ω) : Hooks (Logged ω) where
  beforePeriod := fun i w ↦ (h.beforePeriod i w.unlogged).keeping w.host.2
  afterPeriod := fun i w ↦ (h.afterPeriod i w.unlogged).keeping w.host.2
  beforeActivation := fun n w ↦ (h.beforeActivation n w.unlogged).keeping w.host.2
  afterActivation := fun n outcome w ↦ (h.afterActivation n outcome w.unlogged).keeping
    (w.host.2 ++ if outcome = .success then [n] else [])

def Instance.logged (i : Instance κ σ ω) : Instance κ σ (Logged ω) := ⟨i.behaviour.logged, i.memory⟩

def Engine.logged (e : Engine κ σ ω) : Engine κ σ (Logged ω) where
  plan := e.plan
  nodes := e.nodes.map Instance.logged
  channels := e.channels
  hooks := e.hooks.logged
  stop := e.stop
  poisoned := e.poisoned
  cursor := e.cursor

namespace Session

/-- The session with a recorder that has this list. -/
def logged (log : List NodeId) (s : Session κ σ ω) : Session κ σ (Logged ω) :=
  ⟨s.engine.logged, s.context, s.world.keeping log⟩

/-- The nodes that fire in a sequence of calls, in their order. -/
def firings (s : Session κ σ ω) (cs : List Call) : List NodeId :=
  ((s.logged []).calls cs).2.world.host.2

/-! ## The recorder changes nothing -/

/-- What the recorder does at an event. -/
def recordFiring : Event → List NodeId → List NodeId
  | .afterActivation n outcome, log => log ++ if outcome = .success then [n] else []
  | _, log => log

theorem logged_eq_watched (log : List NodeId) (s : Session κ σ ω) :
    s.logged log = s.watched recordFiring log := by
  have hnodes : s.engine.nodes.map Instance.logged =
      s.engine.nodes.mapIdx (Instance.watched recordFiring) := by
    apply List.ext_getElem?
    intro n
    rw [List.getElem?_map, List.getElem?_mapIdx]
    rfl
  simp only [logged, watched, Engine.logged, Engine.watched, hnodes]
  rfl

theorem noteAll_recordFiring {events : List Event} (log : List NodeId)
    (h : ∀ event ∈ events, ∀ n outcome, event ≠ .afterActivation n outcome) :
    noteAll recordFiring events log = log := by
  induction events with
  | nil => rfl
  | cons event events ih =>
    have hrest := ih fun event hevent ↦ h event (List.mem_cons_of_mem _ hevent)
    cases event with
    | afterActivation n outcome => exact absurd rfl (h _ List.mem_cons_self n outcome)
    | _ => exact hrest

theorem logged_readiness (log : List NodeId) (s : Session κ σ ω) (n : NodeId) :
    (s.logged log).readiness n = ((s.readiness n).1, (s.readiness n).2.logged log) := by
  have hevents : noteAll recordFiring (s.readinessEvents n) log = log := by
    apply noteAll_recordFiring
    intro event hevent m outcome
    obtain ⟨answer, rfl⟩ := exists_of_mem_readinessEvents hevent
    exact Event.noConfusion
  rw [logged_eq_watched, watched_readiness, hevents, logged_eq_watched]

/-- What the recorder writes down when node `n` has been fired. -/
def entry (n : NodeId) : Except Failure RunStatus → List NodeId
  | .ok .success => [n]
  | _ => []

theorem logged_fire (log : List NodeId) (s : Session κ σ ω) (n : NodeId) (persist : Bool) :
    (s.logged log).fire n persist =
      ((s.fire n persist).1, (s.fire n persist).2.logged (log ++ entry n (s.fire n persist).1)) := by
  have hattempt : noteAll recordFiring (s.attemptEvents n persist) log = log :=
    noteAll_recordFiring log fun event hevent ↦ ne_afterActivation_of_mem_attemptEvents hevent
  have hentry : recordFiring (.afterActivation n (Outcome.of (s.attempt n persist).1)) log =
      log ++ entry n (s.fire n persist).1 := by
    rw [fire_eq]
    rcases s.attempt n persist with ⟨e | status, t⟩
    · rfl
    · cases status <;> rfl
  rw [logged_eq_watched, watched_fire, fireEvents, noteAll_append, hattempt, logged_eq_watched]
  exact congrArg (fun log ↦ ((s.fire n persist).1, (s.fire n persist).2.watched recordFiring log))
    hentry

end Session

end Dataflow
