import Dataflow.Proofs.Engine.Moments

/-!
# Events of an execution

Often the events of an execution tell enough, whatever surroundings they leave. A watched engine takes
notes of the events alone.
-/

namespace Dataflow

variable {κ : Type} [ElementKind κ] {σ ω η α : Type}

section Watched

variable (note : Event → η → η)

def Callback.watched (event : α → Event) (c : Callback σ ω α) : Callback σ (ω × η) α := fun s ↦
  let (answer, memory, world) := c (s.1, s.2.withoutNotes)
  (answer, memory, world.withNotes (note (event answer) s.2.host.2))

/-- Node `n`, whose callbacks are noted. -/
def Behaviour.watched (n : NodeId) (b : Behaviour κ σ ω) : Behaviour κ σ (ω × η) where
  run := fun s ↦ (b.run (s.1, s.2.withoutNotes)).bind fun r ↦
    .done (r.1, r.2.1, r.2.2.withNotes (note (.ran n r.1) s.2.host.2))
  init := Callback.watched note (.started n) b.init
  prepare := fun v ↦ Callback.watched note (.prepared n) (b.prepare v)
  save := Callback.watched note (.saved n) b.save
  restore := fun blob ↦ Callback.watched note (.restored n blob) (b.restore blob)
  reset := Callback.watched note (fun _ ↦ .reset n) b.reset
  teardown := Callback.watched note (fun _ ↦ .closed n) b.teardown

def Hooks.watched (h : Hooks ω) : Hooks (ω × η) where
  beforePeriod := fun i w ↦
    (h.beforePeriod i w.withoutNotes).withNotes (note (.beforePeriod i) w.host.2)
  afterPeriod := fun i w ↦
    (h.afterPeriod i w.withoutNotes).withNotes (note (.afterPeriod i) w.host.2)
  beforeActivation := fun n w ↦
    (h.beforeActivation n w.withoutNotes).withNotes (note (.beforeActivation n) w.host.2)
  afterActivation := fun n outcome w ↦
    (h.afterActivation n outcome w.withoutNotes).withNotes (note (.afterActivation n outcome) w.host.2)

def Instance.watched (n : NodeId) (i : Instance κ σ ω) : Instance κ σ (ω × η) :=
  ⟨i.behaviour.watched note n, i.memory⟩

def Engine.watched (e : Engine κ σ ω) : Engine κ σ (ω × η) where
  plan := e.plan
  nodes := e.nodes.mapIdx (Instance.watched note)
  channels := e.channels
  hooks := e.hooks.watched note
  stop := e.stop
  poisoned := e.poisoned
  cursor := e.cursor

/-- The notes after these events. -/
def noteAll (events : List Event) (notes : η) : η :=
  events.foldl (fun notes event ↦ note event notes) notes

theorem noteAll_append (events events' : List Event) (notes : η) :
    noteAll note (events ++ events') notes = noteAll note events' (noteAll note events notes) :=
  List.foldl_append

end Watched

namespace Session

/-- The session of the watched engine, with these notes. -/
def watched (note : Event → η → η) (s : Session κ σ ω) (notes : η) : Session κ σ (ω × η) :=
  ⟨s.engine.watched note, s.context, s.world.withNotes notes⟩

/-- The session that keeps a list of all events. -/
def traced (s : Session κ σ ω) (events : List Event) : Session κ σ (ω × List Event) :=
  s.watched (fun event events ↦ events ++ [event]) events

theorem noteAll_traced (events new : List Event) :
    noteAll (fun event events ↦ events ++ [event]) new events = events ++ new := by
  induction new generalizing events with
  | nil => exact (List.append_nil events).symm
  | cons event new ih =>
    calc
      noteAll _ (event :: new) events = noteAll _ new (events ++ [event]) := rfl
      _ = events ++ [event] ++ new := ih _
      _ = events ++ event :: new := List.append_assoc events [event] new

/-! ## The events of a step -/

/-- The event of a callback of node `n`, if the node is known. -/
def callEvents (s : Session κ σ ω) (n : NodeId) (event : α → Event)
    (callback : Behaviour κ σ ω → Callback σ ω α) : List Event :=
  match s.engine.nodes[n]? with
  | none => []
  | some i => [event (callback i.behaviour (i.memory, s.world)).1]

def readinessEvents (s : Session κ σ ω) (n : NodeId) : List Event :=
  match s.engine.plan.graph.nodes[n]? with
  | none => []
  | some node => s.callEvents n (.prepared n) (·.prepare (node.view n s.engine.channels))

def restoreEvents (s : Session κ σ ω) (n : NodeId) : List Event :=
  match s.context.parked.get? n with
  | none => []
  | some blob => s.callEvents n (.restored n blob) (·.restore blob)

def saveEvents (s : Session κ σ ω) (n : NodeId) : List Event := s.callEvents n (.saved n) (·.save)

def executeEvents (s : Session κ σ ω) (n : NodeId) : List Event :=
  match s.engine.nodes[n]?, s.engine.plan.graph.nodes[n]? with
  | some i, some node => [.ran n (s.outcomeOf n i node).1.1]
  | _, _ => []

def resumeEvents (s : Session κ σ ω) (n : NodeId) (persist : Bool) : List Event :=
  .beforeActivation n ::
    if persist then (s.observe (·.beforeActivation n)).restoreEvents n else []

def performEvents (s : Session κ σ ω) (n : NodeId) (persist : Bool) : List Event :=
  s.executeEvents n ++ if persist then (s.execute n).2.saveEvents n else []

def attemptEvents (s : Session κ σ ω) (n : NodeId) (persist : Bool) : List Event :=
  s.resumeEvents n persist ++
    match s.resume n persist with
    | (.error _, _) => []
    | (.ok (), t) => t.performEvents n persist

def fireEvents (s : Session κ σ ω) (n : NodeId) (persist : Bool) : List Event :=
  s.attemptEvents n persist ++ [.afterActivation n (Outcome.of (s.attempt n persist).1)]

theorem exists_of_mem_callEvents {s : Session κ σ ω} {n : NodeId} {event : α → Event}
    {callback : Behaviour κ σ ω → Callback σ ω α} {e : Event}
    (h : e ∈ s.callEvents n event callback) : ∃ answer, e = event answer := by
  unfold callEvents at h
  split at h
  · cases h
  · exact ⟨_, List.mem_singleton.mp h⟩

theorem exists_of_mem_readinessEvents {s : Session κ σ ω} {n : NodeId} {e : Event}
    (h : e ∈ s.readinessEvents n) : ∃ answer, e = .prepared n answer := by
  unfold readinessEvents at h
  split at h
  · cases h
  · exact exists_of_mem_callEvents h

/-! ## Watching changes nothing -/

section Moments

variable (s : Session κ σ ω) (n : NodeId)

theorem events_callMoments (event : α → Event) (callback : Behaviour κ σ ω → Callback σ ω α) :
    (s.callMoments n event callback).map (·.event) = s.callEvents n event callback := by
  unfold callMoments callEvents
  cases s.engine.nodes[n]? <;> rfl

theorem events_readinessMoments : (s.readinessMoments n).map (·.event) = s.readinessEvents n := by
  unfold readinessMoments readinessEvents
  cases s.engine.plan.graph.nodes[n]? with
  | none => rfl
  | some node => exact s.events_callMoments n _ _

theorem events_restoreMoments : (s.restoreMoments n).map (·.event) = s.restoreEvents n := by
  unfold restoreMoments restoreEvents
  cases s.context.parked.get? n with
  | none => rfl
  | some blob => exact s.events_callMoments n _ _

theorem events_executeMoments : (s.executeMoments n).map (·.event) = s.executeEvents n := by
  unfold executeMoments executeEvents
  cases s.engine.nodes[n]? <;> cases s.engine.plan.graph.nodes[n]? <;> rfl

theorem events_resumeMoments (persist : Bool) :
    (s.resumeMoments n persist).map (·.event) = s.resumeEvents n persist := by
  unfold resumeMoments resumeEvents
  cases persist with
  | false => rfl
  | true => exact congrArg _ (events_restoreMoments _ n)

theorem events_performMoments (persist : Bool) :
    (s.performMoments n persist).map (·.event) = s.performEvents n persist := by
  rw [performMoments, performEvents, List.map_append, events_executeMoments]
  cases persist with
  | false => rfl
  | true => exact congrArg _ ((s.execute n).2.events_callMoments n (.saved n) (·.save))

theorem events_attemptMoments (persist : Bool) :
    (s.attemptMoments n persist).map (·.event) = s.attemptEvents n persist := by
  rw [attemptMoments, attemptEvents, List.map_append, events_resumeMoments]
  rcases s.resume n persist with ⟨_ | _, t⟩
  · rfl
  · exact congrArg _ (t.events_performMoments n persist)

theorem events_fireMoments (persist : Bool) :
    (s.fireMoments n persist).map (·.event) = s.fireEvents n persist := by
  rw [fireMoments, fireEvents, List.map_append, events_attemptMoments]
  rfl

/-- A firing is over when its end is noted. -/
theorem ne_afterActivation_of_mem_attemptEvents {s : Session κ σ ω} {n : NodeId} {persist : Bool}
    {e : Event} (h : e ∈ s.attemptEvents n persist) (m : NodeId) (outcome : Outcome) :
    e ≠ .afterActivation m outcome := by
  obtain ⟨work, hmoments, hwork⟩ := s.exists_attemptMoments_eq n persist
  rw [← events_attemptMoments, hmoments] at h
  obtain ⟨moment, hmem, rfl⟩ := List.mem_map.mp h
  rcases List.mem_cons.mp hmem with rfl | hmem
  · exact Event.noConfusion
  · intro hafter
    have hisWork := hwork moment hmem
    rw [hafter] at hisWork
    exact Bool.false_ne_true hisWork

end Moments

variable (note : Event → η → η) (s : Session κ σ ω) (notes : η) (n : NodeId)

/-- Watching is monitoring that pays no heed to the surroundings. -/
theorem watched_eq_monitored :
    s.watched note notes = s.monitored (fun event _ ↦ note event) notes := rfl

theorem noteMoments_events (moments : List (Moment ω)) :
    noteMoments (fun event _ ↦ note event) moments notes =
      noteAll note (moments.map (·.event)) notes := by
  rw [noteAll, List.foldl_map, noteMoments]

theorem getElem?_nodes_watched :
    (s.watched note notes).engine.nodes[n]? = s.engine.nodes[n]?.map (Instance.watched note n) :=
  List.getElem?_mapIdx

theorem watched_readiness : (s.watched note notes).readiness n =
    ((s.readiness n).1,
      (s.readiness n).2.watched note (noteAll note (s.readinessEvents n) notes)) := by
  rw [watched_eq_monitored, monitored_readiness, noteMoments_events, events_readinessMoments,
    watched_eq_monitored]

theorem watched_fire (persist : Bool) : (s.watched note notes).fire n persist =
    ((s.fire n persist).1,
      (s.fire n persist).2.watched note (noteAll note (s.fireEvents n persist) notes)) := by
  rw [watched_eq_monitored, monitored_fire, noteMoments_events, events_fireMoments,
    watched_eq_monitored]

/-! ## Traces of calls -/

/-- What holds of a session and the events so far: `P` through all that can happen in a call of an engine
with this mode, where a node fires when `ok` holds, and `Q` after a failure. -/
structure Chronicle (mode : Mode) (ok : NodeId → List (Channel κ) → Prop)
    (P Q : Session κ σ ω → List Event → Prop) : Prop where
  mode {s events} (h : P s events) : s.engine.plan.mode = mode
  sane {s events} (h : P s events) : s.engine.poisoned = none
  status {s events} (h : P s events) {f : Context → Context} (hf : ∀ c, (f c).parked = c.parked) :
    P (s.modifyContext f) events
  status_failed {s events} (h : Q s events) {f : Context → Context}
    (hf : ∀ c, (f c).parked = c.parked) : Q (s.modifyContext f) events
  moved {s events} (h : P s events) (cursor : Nat) : P (s.putCursor cursor) events
  before {s events} (h : P s events) (i : Nat) :
    P (s.observe (·.beforePeriod i)) (events ++ [.beforePeriod i])
  after {s events} (h : P s events) (i : Nat) :
    P (s.observe (·.afterPeriod i)) (events ++ [.afterPeriod i])
  asked {s events} (h : P s events) (n : NodeId) :
    match (s.readiness n).1 with
    | .skip => P (s.readiness n).2 (events ++ s.readinessEvents n)
    | .proceed => P (s.readiness n).2 (events ++ s.readinessEvents n) ∧
        ok n (s.readiness n).2.engine.channels
    | .fatal code => Q ((s.readiness n).2.failNode n (.fatal code)).2 (events ++ s.readinessEvents n)
  fired {s events} (h : P s events) {n : NodeId} (hok : ok n s.engine.channels) :
    P (s.fire n s.persists).2 (events ++ s.fireEvents n s.persists) ∨
      (Except.failure? (s.fire n s.persists).1).isSome ∧
        Q (s.fire n s.persists).2 (events ++ s.fireEvents n s.persists)

/-- The second session is the first with a trace that satisfies `P`. -/
def Told (P : Session κ σ ω → List Event → Prop) (s : Session κ σ ω)
    (t : Session κ σ (ω × List Event)) : Prop := ∃ events, t = s.traced events ∧ P s events

theorem traced_readiness (events : List Event) : (s.traced events).readiness n =
    ((s.readiness n).1, (s.readiness n).2.traced (events ++ s.readinessEvents n)) := by
  rw [traced, watched_readiness, noteAll_traced, traced]

theorem traced_fire (events : List Event) (persist : Bool) : (s.traced events).fire n persist =
    ((s.fire n persist).1, (s.fire n persist).2.traced (events ++ s.fireEvents n persist)) := by
  rw [traced, watched_fire, noteAll_traced, traced]

theorem Chronicle.coupled {mode : Mode} {ok : NodeId → List (Channel κ) → Prop}
    {P Q : Session κ σ ω → List Event → Prop} (h : Chronicle mode ok P Q) :
    Coupled mode ok (Told P) (Told Q) where
  mode hs := by
    obtain ⟨events, -, hP⟩ := hs
    exact h.mode hP
  plan hs := by
    obtain ⟨events, rfl, -⟩ := hs
    rfl
  cursor hs := by
    obtain ⟨events, rfl, -⟩ := hs
    rfl
  context hs := by
    obtain ⟨events, rfl, -⟩ := hs
    rfl
  sane hs := by
    obtain ⟨events, rfl, hP⟩ := hs
    exact ⟨h.sane hP, h.sane hP⟩
  stopped hs := by
    obtain ⟨events, rfl, -⟩ := hs
    rfl
  bounded hs limit := by
    obtain ⟨events, rfl, hP⟩ := hs
    exact ⟨events, rfl, h.status (f := (·.withLimit limit)) hP fun _ ↦ rfl⟩
  status hs f hf := by
    obtain ⟨events, rfl, hP⟩ := hs
    exact ⟨events, rfl, h.status hP fun c ↦ (hf c).1⟩
  status_failed hs f hf := by
    obtain ⟨events, rfl, hQ⟩ := hs
    exact ⟨events, rfl, h.status_failed hQ fun c ↦ (hf c).1⟩
  moved hs cursor := by
    obtain ⟨events, rfl, hP⟩ := hs
    exact ⟨events, rfl, h.moved hP cursor⟩
  before hs i := by
    obtain ⟨events, rfl, hP⟩ := hs
    exact ⟨_, rfl, h.before hP i⟩
  after hs i := by
    obtain ⟨events, rfl, hP⟩ := hs
    exact ⟨_, rfl, h.after hP i⟩
  asked := by
    intro s t hs n
    obtain ⟨events, rfl, hP⟩ := hs
    have hasked := h.asked hP n
    rw [traced_readiness]
    refine ⟨rfl, ?_⟩
    revert hasked
    rcases s.readiness n with ⟨_ | _ | code, u⟩
    · intro hasked
      exact ⟨⟨_, rfl, hasked.1⟩, hasked.2⟩
    · intro hasked
      exact ⟨_, rfl, hasked⟩
    · intro hasked
      exact ⟨_, rfl, hasked⟩
  fired := by
    intro s t hs n hok
    obtain ⟨events, rfl, hP⟩ := hs
    have hpersists : (s.traced events).persists = s.persists := rfl
    rw [traced_fire]
    refine ⟨rfl, (h.fired hP hok).imp ?_ ?_⟩
    · intro hP
      exact ⟨_, rfl, hP⟩
    · intro hQ
      exact ⟨hQ.1, _, rfl, hQ.2⟩

end Session

end Dataflow
