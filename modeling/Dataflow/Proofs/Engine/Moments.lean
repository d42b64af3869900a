import Dataflow.Proofs.Engine.Calls
import Dataflow.Proofs.Engine.Parking

/-!
# Moments of an execution

An execution is seen from outside by what it calls: the callbacks of nodes with their answers, and the
observers. Each of these events leaves certain surroundings behind, and both make a moment. A monitored
engine takes notes of its moments beside the data of the host. The nodes and the observers do not see the
notes, so all steps go as they would without them, and the notes that a step adds can be told from the
step.
-/

namespace Dataflow

variable {κ : Type} [ElementKind κ] {σ ω η α : Type}

inductive Event where
  | beforePeriod (iteration : Nat)
  | afterPeriod (iteration : Nat)
  | beforeActivation (node : NodeId)
  | afterActivation (node : NodeId) (outcome : Outcome)
  | started (node : NodeId) (answer : Except NodeError Unit)
  | prepared (node : NodeId) (answer : Readiness)
  | restored (node : NodeId) (blob : Blob) (answer : Except NodeError Unit)
  | ran (node : NodeId) (result : Except NodeError RunStatus)
  | saved (node : NodeId) (blob : Option Blob)
  | reset (node : NodeId)
  | closed (node : NodeId)
  deriving DecidableEq

/-- The event is one of a node at work in a firing. -/
def Event.isWork : Event → Bool
  | .restored _ _ _ | .ran _ _ | .saved _ _ => true
  | _ => false

/-- An event with the surroundings it left. -/
structure Moment (ω : Type) where
  event : Event
  world : World ω

/-! ## Notes beside the data of the host -/

namespace World

def withNotes (w : World ω) (notes : η) : World (ω × η) := ⟨w.stops, w.host, notes⟩

def withoutNotes (w : World (ω × η)) : World ω := ⟨w.stops, w.host.1⟩

/-- The event is noted that left these surroundings. -/
def noted (note : Event → World ω → η → η) (event : Event) (w : World ω) (notes : η) : World (ω × η) :=
  w.withNotes (note event w notes)

end World

section Monitored

variable (note : Event → World ω → η → η)

def Callback.monitored (event : α → Event) (c : Callback σ ω α) : Callback σ (ω × η) α := fun s ↦
  let (answer, memory, world) := c (s.1, s.2.withoutNotes)
  (answer, memory, world.noted note (event answer) s.2.host.2)

/-- Node `n`, whose callbacks are noted. -/
def Behaviour.monitored (n : NodeId) (b : Behaviour κ σ ω) : Behaviour κ σ (ω × η) where
  run := fun s ↦ (b.run (s.1, s.2.withoutNotes)).bind fun r ↦
    .done (r.1, r.2.1, r.2.2.noted note (.ran n r.1) s.2.host.2)
  init := Callback.monitored note (.started n) b.init
  prepare := fun v ↦ Callback.monitored note (.prepared n) (b.prepare v)
  save := Callback.monitored note (.saved n) b.save
  restore := fun blob ↦ Callback.monitored note (.restored n blob) (b.restore blob)
  reset := Callback.monitored note (fun _ ↦ .reset n) b.reset
  teardown := Callback.monitored note (fun _ ↦ .closed n) b.teardown

def Hooks.monitored (h : Hooks ω) : Hooks (ω × η) where
  beforePeriod := fun i w ↦ (h.beforePeriod i w.withoutNotes).noted note (.beforePeriod i) w.host.2
  afterPeriod := fun i w ↦ (h.afterPeriod i w.withoutNotes).noted note (.afterPeriod i) w.host.2
  beforeActivation := fun n w ↦
    (h.beforeActivation n w.withoutNotes).noted note (.beforeActivation n) w.host.2
  afterActivation := fun n outcome w ↦
    (h.afterActivation n outcome w.withoutNotes).noted note (.afterActivation n outcome) w.host.2

def Instance.monitored (n : NodeId) (i : Instance κ σ ω) : Instance κ σ (ω × η) :=
  ⟨i.behaviour.monitored note n, i.memory⟩

def Engine.monitored (e : Engine κ σ ω) : Engine κ σ (ω × η) where
  plan := e.plan
  nodes := e.nodes.mapIdx (Instance.monitored note)
  channels := e.channels
  hooks := e.hooks.monitored note
  stop := e.stop
  poisoned := e.poisoned
  cursor := e.cursor

/-- The notes after these moments. -/
def noteMoments (moments : List (Moment ω)) (notes : η) : η :=
  moments.foldl (fun notes moment ↦ note moment.event moment.world notes) notes

theorem noteMoments_append (moments moments' : List (Moment ω)) (notes : η) :
    noteMoments note (moments ++ moments') notes =
      noteMoments note moments' (noteMoments note moments notes) :=
  List.foldl_append

end Monitored

/-- The result of an activity can be used behind it. -/
theorem Activity.exec_bind_done {β : Type} (act : Activity κ α) (f : α → β) (node : Node) (n : NodeId)
    (channels : List (Channel κ)) :
    (act.bind fun a ↦ .done (f a)).exec node n channels =
      (f (act.exec node n channels).1, (act.exec node n channels).2) := by
  induction act generalizing channels with
  | done a => rfl
  | look next ih => exact ih _ channels
  | call op next ih =>
    simp only [Activity.bind, Activity.exec]
    cases op.reserve node channels with
    | ok r => exact ih _ _
    | error e => exact ih _ _

/-- The surroundings after these moments, where they were `w` before. -/
def lastWorld (w : World ω) (moments : List (Moment ω)) : World ω :=
  moments.foldl (fun _ moment ↦ moment.world) w

@[simp]
theorem lastWorld_nil (w : World ω) : lastWorld w [] = w := rfl

@[simp]
theorem lastWorld_cons (w : World ω) (moment : Moment ω) (moments : List (Moment ω)) :
    lastWorld w (moment :: moments) = lastWorld moment.world moments := rfl

@[simp]
theorem lastWorld_append (w : World ω) (moments moments' : List (Moment ω)) :
    lastWorld w (moments ++ moments') = lastWorld (lastWorld w moments) moments' :=
  List.foldl_append

namespace Session

/-- The session of the monitored engine, with these notes. -/
def monitored (note : Event → World ω → η → η) (s : Session κ σ ω) (notes : η) :
    Session κ σ (ω × η) := ⟨s.engine.monitored note, s.context, s.world.withNotes notes⟩

/-! ## The moments of a step -/

/-- The moment of a callback of node `n`, if the node is known. -/
def callMoments (s : Session κ σ ω) (n : NodeId) (event : α → Event)
    (callback : Behaviour κ σ ω → Callback σ ω α) : List (Moment ω) :=
  match s.engine.nodes[n]? with
  | none => []
  | some i =>
    let (answer, _, world) := callback i.behaviour (i.memory, s.world)
    [⟨event answer, world⟩]

def readinessMoments (s : Session κ σ ω) (n : NodeId) : List (Moment ω) :=
  match s.engine.plan.graph.nodes[n]? with
  | none => []
  | some node => s.callMoments n (.prepared n) (·.prepare (node.view n s.engine.channels))

def restoreMoments (s : Session κ σ ω) (n : NodeId) : List (Moment ω) :=
  match s.context.parked.get? n with
  | none => []
  | some blob => s.callMoments n (.restored n blob) (·.restore blob)

def saveMoments (s : Session κ σ ω) (n : NodeId) : List (Moment ω) :=
  s.callMoments n (.saved n) (·.save)

def executeMoments (s : Session κ σ ω) (n : NodeId) : List (Moment ω) :=
  match s.engine.nodes[n]?, s.engine.plan.graph.nodes[n]? with
  | some i, some node => [⟨.ran n (s.outcomeOf n i node).1.1, (s.outcomeOf n i node).1.2.2⟩]
  | _, _ => []

def resumeMoments (s : Session κ σ ω) (n : NodeId) (persist : Bool) : List (Moment ω) :=
  ⟨.beforeActivation n, (s.observe (·.beforeActivation n)).world⟩ ::
    if persist then (s.observe (·.beforeActivation n)).restoreMoments n else []

def performMoments (s : Session κ σ ω) (n : NodeId) (persist : Bool) : List (Moment ω) :=
  s.executeMoments n ++ if persist then (s.execute n).2.saveMoments n else []

def attemptMoments (s : Session κ σ ω) (n : NodeId) (persist : Bool) : List (Moment ω) :=
  s.resumeMoments n persist ++
    match s.resume n persist with
    | (.error _, _) => []
    | (.ok (), t) => t.performMoments n persist

/-- The end of a firing leaves the surroundings as the firing does. -/
def fireMoments (s : Session κ σ ω) (n : NodeId) (persist : Bool) : List (Moment ω) :=
  s.attemptMoments n persist ++
    [⟨.afterActivation n (Outcome.of (s.attempt n persist).1), (s.fire n persist).2.world⟩]

section Work

variable {s : Session κ σ ω} {n : NodeId} {moment : Moment ω}

theorem exists_of_mem_callMoments {event : α → Event} {callback : Behaviour κ σ ω → Callback σ ω α}
    (h : moment ∈ s.callMoments n event callback) : ∃ answer, moment.event = event answer := by
  unfold callMoments at h
  split at h
  · cases h
  · exact ⟨_, congrArg Moment.event (List.mem_singleton.mp h)⟩

theorem isWork_of_mem_callMoments {event : α → Event}
    {callback : Behaviour κ σ ω → Callback σ ω α} (hwork : ∀ answer, (event answer).isWork)
    (h : moment ∈ s.callMoments n event callback) : moment.event.isWork := by
  obtain ⟨answer, hevent⟩ := exists_of_mem_callMoments h
  rw [hevent]
  exact hwork answer

theorem isWork_of_mem_restoreMoments (h : moment ∈ s.restoreMoments n) : moment.event.isWork := by
  unfold restoreMoments at h
  split at h
  · cases h
  · exact isWork_of_mem_callMoments (fun _ ↦ rfl) h

theorem isWork_of_mem_performMoments {persist : Bool} (h : moment ∈ s.performMoments n persist) :
    moment.event.isWork := by
  rcases List.mem_append.mp h with hexecute | hsave
  · unfold executeMoments at hexecute
    split at hexecute
    · rw [List.mem_singleton.mp hexecute]
      rfl
    · cases hexecute
  · split at hsave
    · exact isWork_of_mem_callMoments (fun _ ↦ rfl) hsave
    · cases hsave

/-- What happens between the beginning of a firing and its end is the work of its node. -/
theorem exists_attemptMoments_eq (s : Session κ σ ω) (n : NodeId) (persist : Bool) :
    ∃ work, s.attemptMoments n persist =
        ⟨.beforeActivation n, (s.observe (·.beforeActivation n)).world⟩ :: work ∧
      ∀ moment ∈ work, moment.event.isWork := by
  refine ⟨_, rfl, ?_⟩
  intro moment hmoment
  rcases List.mem_append.mp hmoment with h | h
  · split at h
    · exact isWork_of_mem_restoreMoments h
    · cases h
  · split at h
    · cases h
    · exact isWork_of_mem_performMoments h

end Work

/-! ## Monitoring changes nothing -/

variable (note : Event → World ω → η → η) (s : Session κ σ ω) (notes : η) (n : NodeId)

theorem getElem?_nodes_monitored :
    (s.monitored note notes).engine.nodes[n]? = s.engine.nodes[n]?.map (Instance.monitored note n) :=
  List.getElem?_mapIdx

theorem monitored_putMemory (memory : σ) :
    (s.monitored note notes).putMemory n memory = (s.putMemory n memory).monitored note notes := by
  have hnodes : (s.engine.nodes.mapIdx (Instance.monitored note)).modify n
        ({ · with memory := memory }) =
      (s.engine.nodes.modify n ({ · with memory := memory })).mapIdx (Instance.monitored note) := by
    apply List.ext_getElem?
    intro m
    simp only [List.getElem?_mapIdx, List.getElem?_modify]
    cases s.engine.nodes[m]? with
    | none => simp
    | some i => by_cases hm : n = m <;> simp [hm, Instance.monitored]
  simp only [putMemory, monitored, Engine.monitored, hnodes]

theorem monitored_callNode (absent : α) (event : α → Event)
    (callback : Behaviour κ σ ω → Callback σ ω α)
    (callback' : Behaviour κ σ (ω × η) → Callback σ (ω × η) α)
    (h : ∀ b, callback' (b.monitored note n) = Callback.monitored note event (callback b)) :
    (s.monitored note notes).callNode n absent callback' =
      ((s.callNode n absent callback).1, (s.callNode n absent callback).2.monitored note
        (noteMoments note (s.callMoments n event callback) notes)) := by
  have hnode := s.getElem?_nodes_monitored note notes n
  cases hi : s.engine.nodes[n]? with
  | none =>
    rw [hi, Option.map_none] at hnode
    simp only [callNode, callMoments, hi, hnode]
    rfl
  | some i =>
    rw [hi] at hnode
    rcases hanswer : callback i.behaviour (i.memory, s.world) with ⟨answer, memory, world⟩
    have hcallback : callback' (i.monitored note n).behaviour ((i.monitored note n).memory,
        (s.monitored note notes).world) = (answer, memory, world.noted note (event answer) notes) := by
      change callback' (i.behaviour.monitored note n) (i.memory, s.world.withNotes notes) = _
      rw [h]
      change (_, _, _) = _
      have hbare : (s.world.withNotes notes).withoutNotes = s.world := rfl
      rw [hbare, hanswer]
      rfl
    have hmoments : s.callMoments n event callback = [⟨event answer, world⟩] := by
      simp only [callMoments, hi, hanswer]
    rw [callNode_eq hi, callNode_eq hnode, hcallback, hanswer, hmoments]
    exact Prod.ext rfl (monitored_putMemory note { s with world := world } _ n memory)

theorem monitored_readiness : (s.monitored note notes).readiness n =
    ((s.readiness n).1,
      (s.readiness n).2.monitored note (noteMoments note (s.readinessMoments n) notes)) := by
  have hnode : (s.monitored note notes).engine.plan.graph.nodes[n]? =
      s.engine.plan.graph.nodes[n]? := rfl
  unfold readiness readinessMoments
  rw [hnode]
  cases s.engine.plan.graph.nodes[n]? with
  | none => rfl
  | some node =>
    exact s.monitored_callNode note notes n _ (.prepared n) (·.prepare _) (·.prepare _) fun _ ↦ rfl

theorem monitored_restoreParked : (s.monitored note notes).restoreParked n =
    ((s.restoreParked n).1,
      (s.restoreParked n).2.monitored note (noteMoments note (s.restoreMoments n) notes)) := by
  have hparked : (s.monitored note notes).context.parked.get? n = s.context.parked.get? n := rfl
  unfold restoreParked restoreMoments
  rw [hparked]
  cases s.context.parked.get? n with
  | none => rfl
  | some blob =>
    have hcall := (s.modifyContext (·.unpark n)).monitored_callNode note notes n (.ok ())
      (.restored n blob) (·.restore blob) (·.restore blob) fun _ ↦ rfl
    change ((s.monitored note notes).modifyContext (·.unpark n)).callNode n (.ok ())
      (·.restore blob) = _ at hcall
    dsimp only
    rw [hcall]
    rcases (s.modifyContext (·.unpark n)).callNode n (Except.ok () : Except NodeError Unit)
      (·.restore blob) with ⟨_ | _, t⟩ <;> rfl

theorem monitored_savePark : (s.monitored note notes).savePark n =
    (s.savePark n).monitored note (noteMoments note (s.saveMoments n) notes) := by
  unfold savePark saveMoments
  rw [s.monitored_callNode note notes n none (.saved n) (·.save) (·.save) fun _ ↦ rfl]
  rcases s.callNode n none (·.save) with ⟨_ | _, t⟩ <;> rfl

theorem monitored_execute : (s.monitored note notes).execute n =
    ((s.execute n).1,
      (s.execute n).2.monitored note (noteMoments note (s.executeMoments n) notes)) := by
  have hnode := s.getElem?_nodes_monitored note notes n
  have hgraph : (s.monitored note notes).engine.plan.graph.nodes[n]? =
      s.engine.plan.graph.nodes[n]? := rfl
  cases hi : s.engine.nodes[n]? with
  | none =>
    rw [hi] at hnode
    simp only [execute, executeMoments, hi, hnode]
    rfl
  | some i =>
    rw [hi] at hnode
    cases hgraph' : s.engine.plan.graph.nodes[n]? with
    | none =>
      rw [hgraph'] at hgraph
      simp only [execute, executeMoments, hi, hnode, hgraph, hgraph']
      rfl
    | some node =>
      rw [hgraph'] at hgraph
      have houtcome : (s.monitored note notes).outcomeOf n (i.monitored note n) node =
          (((s.outcomeOf n i node).1.1, (s.outcomeOf n i node).1.2.1,
            (s.outcomeOf n i node).1.2.2.noted note (.ran n (s.outcomeOf n i node).1.1) notes),
            (s.outcomeOf n i node).2) :=
        Activity.exec_bind_done _ _ node n s.engine.channels
      have hmoments : s.executeMoments n =
          [⟨.ran n (s.outcomeOf n i node).1.1, (s.outcomeOf n i node).1.2.2⟩] := by
        simp only [executeMoments, hi, hgraph']
      rw [execute_eq hi hgraph', execute_eq hnode hgraph, houtcome, hmoments]
      rcases s.outcomeOf n i node with ⟨⟨result, memory, world⟩, channels⟩
      have hsettle : (s.monitored note notes).settle n memory
            (world.noted note (.ran n result) notes) channels =
          (s.settle n memory world channels).monitored note (note (.ran n result) world notes) :=
        monitored_putMemory note (putChannels ⟨s.engine, s.context, world⟩ channels) _ n memory
      refine Prod.ext ?_ hsettle
      cases result <;> rfl

theorem monitored_resume (persist : Bool) : (s.monitored note notes).resume n persist =
    ((s.resume n persist).1, (s.resume n persist).2.monitored note
      (noteMoments note (s.resumeMoments n persist) notes)) := by
  unfold resume resumeMoments
  cases persist with
  | false => rfl
  | true => exact (s.observe (·.beforeActivation n)).monitored_restoreParked note _ n

theorem monitored_perform (persist : Bool) : (s.monitored note notes).perform n persist =
    ((s.perform n persist).1, (s.perform n persist).2.monitored note
      (noteMoments note (s.performMoments n persist) notes)) := by
  unfold perform performMoments
  rw [monitored_execute, noteMoments_append]
  cases persist with
  | false => rfl
  | true => exact Prod.ext rfl (monitored_savePark note _ _ n)

theorem monitored_attempt (persist : Bool) : (s.monitored note notes).attempt n persist =
    ((s.attempt n persist).1, (s.attempt n persist).2.monitored note
      (noteMoments note (s.attemptMoments n persist) notes)) := by
  unfold attempt attemptMoments
  rw [monitored_resume, noteMoments_append]
  rcases s.resume n persist with ⟨_ | _, t⟩
  · rfl
  · exact t.monitored_perform note _ n persist

theorem monitored_fire (persist : Bool) : (s.monitored note notes).fire n persist =
    ((s.fire n persist).1, (s.fire n persist).2.monitored note
      (noteMoments note (s.fireMoments n persist) notes)) := by
  rw [fireMoments, noteMoments_append, fire_eq, fire_eq, monitored_attempt]
  rcases s.attempt n persist with ⟨e | status, t⟩ <;> rfl

/-! ## The list of all moments -/

/-- The session that keeps a list of its moments. -/
def recorded (s : Session κ σ ω) (moments : List (Moment ω)) :
    Session κ σ (ω × List (Moment ω)) :=
  s.monitored (fun event world moments ↦ moments ++ [⟨event, world⟩]) moments

theorem noteMoments_recorded (moments new : List (Moment ω)) :
    noteMoments (fun event world moments ↦ moments ++ [⟨event, world⟩]) new moments =
      moments ++ new := by
  induction new generalizing moments with
  | nil => exact (List.append_nil moments).symm
  | cons moment new ih =>
    calc
      noteMoments _ (moment :: new) moments = noteMoments _ new (moments ++ [moment]) := rfl
      _ = moments ++ [moment] ++ new := ih _
      _ = moments ++ moment :: new := List.append_assoc moments [moment] new

theorem recorded_readiness (moments : List (Moment ω)) : (s.recorded moments).readiness n =
    ((s.readiness n).1, (s.readiness n).2.recorded (moments ++ s.readinessMoments n)) := by
  rw [recorded, monitored_readiness, noteMoments_recorded, recorded]

theorem recorded_fire (moments : List (Moment ω)) (persist : Bool) :
    (s.recorded moments).fire n persist =
      ((s.fire n persist).1, (s.fire n persist).2.recorded (moments ++ s.fireMoments n persist)) := by
  rw [recorded, monitored_fire, noteMoments_recorded, recorded]

/-- The moments of a call. -/
def moments (s : Session κ σ ω) (c : Call) : List (Moment ω) :=
  ((s.recorded []).call c).2.world.host.2

end Session

end Dataflow
