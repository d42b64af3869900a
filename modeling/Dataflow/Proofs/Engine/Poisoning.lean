import Dataflow.Proofs.Engine.Binding
import Dataflow.Proofs.Engine.Events
import Dataflow.Proofs.Engine.Periods

/-!
# Engines that refuse to go on

A fatal error of a node makes its engine unusable until the engine is put back to its beginning. Whatever
a host does in between, an engine is unusable exactly when such an error has occurred, and then it answers
with the first of them and touches nothing.
-/

namespace Dataflow

variable {κ : Type} [ElementKind κ] {σ ω α : Type}

/-! ## Fatal errors in a trace -/

def fatalCode? : Except NodeError α → Option StatusCode
  | .error (.fatal code) => some code
  | _ => none

/-- The node and the code of a fatal error. -/
def Event.fatal? : Event → Option (NodeId × StatusCode)
  | .prepared n (.fatal code) => some (n, code)
  | .restored n _ answer => (fatalCode? answer).map (n, ·)
  | .ran n result => (fatalCode? result).map (n, ·)
  | _ => none

/-- The first fatal error. -/
def firstFatal (events : List Event) : Option (NodeId × StatusCode) := events.findSome? Event.fatal?

theorem firstFatal_append (events events' : List Event) :
    firstFatal (events ++ events') = (firstFatal events).or (firstFatal events') :=
  List.findSome?_append

/-- A fatal error of a node of this plan as a failure. -/
def Plan.fatality (p : Plan) (error : NodeId × StatusCode) : Failure where
  code := error.2
  node := error.1
  diagnostic := (p.diagnosticCode? error.1).getD 0
  fatal := true

namespace Session

variable (s : Session κ σ ω) (n : NodeId)

theorem firstFatal_readinessEvents : firstFatal (s.readinessEvents n) =
    match (s.readiness n).1 with
    | .fatal code => some (n, code)
    | _ => none := by
  unfold readinessEvents readiness
  cases s.engine.plan.graph.nodes[n]? with
  | none => rfl
  | some node =>
    cases hi : s.engine.nodes[n]? with
    | none =>
      simp only [callEvents, callNode, hi]
      rfl
    | some i =>
      simp only [callEvents, callNode_eq hi, hi]
      cases (i.behaviour.prepare (node.view n s.engine.channels) (i.memory, s.world)).1 <;> rfl

theorem firstFatal_restoreEvents : firstFatal (s.restoreEvents n) =
    (fatalCode? (s.restoreParked n).1).map (n, ·) := by
  unfold restoreEvents restoreParked
  cases s.context.parked.get? n with
  | none => rfl
  | some blob =>
    cases hi : s.engine.nodes[n]? with
    | none =>
      have hi' : (s.modifyContext (·.unpark n)).engine.nodes[n]? = none := hi
      simp only [callEvents, callNode, hi, hi']
      rfl
    | some i =>
      have hi' : (s.modifyContext (·.unpark n)).engine.nodes[n]? = some i := hi
      have hworld : (s.modifyContext (·.unpark n)).world = s.world := rfl
      simp only [callEvents, callNode_eq hi', hi, hworld]
      rcases (i.behaviour.restore blob (i.memory, s.world)).1 with (code | code) | _ <;> rfl

theorem firstFatal_executeEvents : firstFatal (s.executeEvents n) =
    (fatalCode? (s.execute n).1).map (n, ·) := by
  unfold executeEvents
  cases hi : s.engine.nodes[n]? with
  | none =>
    simp only [execute, hi]
    rfl
  | some i =>
    cases hnode : s.engine.plan.graph.nodes[n]? with
    | none =>
      simp only [execute, hi, hnode]
      rfl
    | some node =>
      rw [execute_eq hi hnode]
      change firstFatal [.ran n (s.outcomeOf n i node).1.1] = _
      rcases (s.outcomeOf n i node).1.1 with (code | code) | status
      · rfl
      · rfl
      · -- A node that has not moved its rates is at fault, but not fatally.
        unfold verdict
        dsimp only
        split <;> rfl

theorem firstFatal_saveEvents : firstFatal (s.saveEvents n) = none := by
  unfold saveEvents callEvents
  split <;> rfl

theorem firstFatal_resumeEvents (persist : Bool) : firstFatal (s.resumeEvents n persist) =
    (fatalCode? (s.resume n persist).1).map (n, ·) := by
  unfold resumeEvents resume
  cases persist with
  | false => rfl
  | true => exact (s.observe (·.beforeActivation n)).firstFatal_restoreEvents n

theorem firstFatal_performEvents (persist : Bool) : firstFatal (s.performEvents n persist) =
    (fatalCode? (s.perform n persist).1).map (n, ·) := by
  have hsave : firstFatal (if persist then (s.execute n).2.saveEvents n else []) = none := by
    cases persist with
    | false => rfl
    | true => exact (s.execute n).2.firstFatal_saveEvents n
  rw [performEvents, firstFatal_append, hsave, Option.or_none, firstFatal_executeEvents, perform]

theorem firstFatal_attemptEvents (persist : Bool) : firstFatal (s.attemptEvents n persist) =
    (fatalCode? (s.attempt n persist).1).map (n, ·) := by
  rw [attemptEvents, firstFatal_append, firstFatal_resumeEvents, attempt]
  rcases s.resume n persist with ⟨(code | code) | _, t⟩
  · rfl
  · rfl
  · exact t.firstFatal_performEvents n persist

theorem firstFatal_fireEvents (persist : Bool) : firstFatal (s.fireEvents n persist) =
    (fatalCode? (s.attempt n persist).1).map (n, ·) := by
  rw [fireEvents, firstFatal_append, firstFatal_attemptEvents]
  exact Option.or_none

/-- A firing makes the engine unusable when its error is fatal. -/
theorem poisoned_fire (hsane : s.engine.poisoned = none) (persist : Bool) :
    (s.fire n persist).2.engine.poisoned =
      (firstFatal (s.fireEvents n persist)).map s.engine.plan.fatality := by
  have hlocal := s.local_attempt n persist
  rw [firstFatal_fireEvents]
  rcases s.fire_cases n persist with ⟨status, hattempt, hfire⟩ | ⟨e, hattempt, hfire⟩
  · rw [hfire, hattempt]
    exact hlocal.poisoned.trans hsane
  · rw [hfire, hattempt]
    cases e with
    | recoverable code => exact hlocal.poisoned.trans hsane
    | fatal code =>
      have hplan : ((s.attempt n persist).2.note n (.error (.fatal code))).engine.plan =
          s.engine.plan := plan_of_frame hlocal.frame
      change some (Failure.mk code n _ true) = some (Failure.mk code n _ true)
      rw [hplan]

/-! ## Calls -/

/-- The first fatal error among the events is what makes the engine of this plan unusable. -/
def Poisons (p : Plan) (s : Session κ σ ω) (events : List Event) : Prop :=
  s.engine.plan = p ∧ s.engine.poisoned = (firstFatal events).map p.fatality

section Poisons

variable {p : Plan} {s t : Session κ σ ω} {events more : List Event}

/-- Events without a fatal error make no difference. -/
theorem Poisons.append (h : s.Poisons p events) (hplan : t.engine.plan = s.engine.plan)
    (hpoisoned : t.engine.poisoned = s.engine.poisoned) (hmore : firstFatal more = none) :
    t.Poisons p (events ++ more) := by
  refine ⟨hplan.trans h.1, ?_⟩
  rw [firstFatal_append, hmore, Option.or_none]
  exact hpoisoned.trans h.2

/-- As long as the engine is usable, what comes next decides. -/
theorem Poisons.next (h : s.Poisons p events) (hsane : s.engine.poisoned = none)
    (hplan : t.engine.plan = s.engine.plan)
    (hpoisoned : t.engine.poisoned = (firstFatal more).map s.engine.plan.fatality) :
    t.Poisons p (events ++ more) := by
  have hnone : firstFatal events = none := Option.map_eq_none_iff.mp (h.2.symm.trans hsane)
  refine ⟨hplan.trans h.1, ?_⟩
  rw [firstFatal_append, hnone, Option.none_or, ← h.1]
  exact hpoisoned

end Poisons

theorem chronicle_poisons (p : Plan) :
    Chronicle (κ := κ) (σ := σ) (ω := ω) p.mode (fun _ _ ↦ True)
      (fun s events ↦ s.Poisons p events ∧ s.engine.poisoned = none) (Poisons p) where
  mode h := congrArg Plan.mode h.1.1
  sane h := h.2
  status h _ _ := h
  status_failed h _ _ := h
  moved h _ := h
  before h i := ⟨h.1.append rfl rfl rfl, h.2⟩
  after h i := ⟨h.1.append rfl rfl rfl, h.2⟩
  asked := by
    rintro s events ⟨hpoisons, hsane⟩ n
    have hlocal := s.local_readiness n
    have hplan : (s.readiness n).2.engine.plan = s.engine.plan := plan_of_frame hlocal.frame
    have hmore := s.firstFatal_readinessEvents n
    split
    · rename_i hskip
      rw [hskip] at hmore
      exact ⟨hpoisons.append hplan hlocal.poisoned hmore, hlocal.poisoned.trans hsane⟩
    · rename_i hproceed
      rw [hproceed] at hmore
      exact ⟨⟨hpoisons.append hplan hlocal.poisoned hmore, hlocal.poisoned.trans hsane⟩, trivial⟩
    · rename_i code hfatal
      rw [hfatal] at hmore
      refine hpoisons.next hsane hplan ?_
      rw [hmore]
      change some (Failure.mk code n _ true) = some (Failure.mk code n _ true)
      rw [hplan]
  fired := by
    rintro s events ⟨hpoisons, hsane⟩ n -
    have hend : (s.fire n s.persists).2.Poisons p (events ++ s.fireEvents n s.persists) :=
      hpoisons.next hsane (plan_of_frame (s.frame_fire n s.persists))
        (s.poisoned_fire n hsane s.persists)
    exact (sane_or_failed_of_fire hsane n s.persists).imp (⟨hend, ·⟩) (⟨·, hend⟩)

/-- The events of a call. -/
def trace (s : Session κ σ ω) (c : Call) : List Event := ((s.traced []).call c).2.world.host.2

/-- A call of a usable engine leaves it unusable when it has met with a fatal error. -/
theorem poisons_call {p : Plan} {s : Session κ σ ω} (hplan : s.engine.plan = p)
    (hsane : s.engine.poisoned = none) (c : Call) : (s.call c).2.Poisons p (s.trace c) := by
  have hstart : Told (fun s events ↦ s.Poisons p events ∧ s.engine.poisoned = none) s (s.traced []) :=
    ⟨[], rfl, ⟨hplan, hsane⟩, hsane⟩
  have hcall := (chronicle_poisons p).coupled.call hstart (c := c) fun _ _ _ _ ↦ trivial
  rw [trace]
  rcases hcall.ends with ⟨events, ht, hend, -⟩ | ⟨events, ht, hend⟩
  · rw [ht]
    exact hend
  · rw [ht]
    exact hend

/-! ## Refused calls -/

section Refused

variable {s : Session κ σ ω} {f : Failure}

theorem refusal_of_poisoned (h : s.engine.poisoned = some f) :
    s.engine.refusal = some { f with code := .fatal } := by
  rw [Engine.refusal, h]
  rfl

theorem run_of_poisoned (h : s.engine.poisoned = some f) :
    s.run = (⟨.fatal, 0, some { f with code := .fatal }⟩,
      ⟨s.engine, s.context.reset.fail { f with code := .fatal }, s.world⟩) := by
  have hrefusal : (s.modifyContext (·.reset)).engine.refusal = some { f with code := .fatal } :=
    refusal_of_poisoned h
  simp only [run, hrefusal]
  rfl

theorem enter_of_poisoned (h : s.engine.poisoned = some f) :
    s.enter = (some (.failed { f with code := .fatal }),
      ⟨s.engine, s.context.fail { f with code := .fatal }, s.world⟩) := by
  simp only [enter, refusal_of_poisoned h]
  rfl

theorem activateNext_of_poisoned (h : s.engine.poisoned = some f) :
    s.activateNext = (.failed { f with code := .fatal },
      ⟨s.engine, s.context.fail { f with code := .fatal }, s.world⟩) := by
  simp only [activateNext, enter_of_poisoned h]

/-- The answer comes before it is looked whether the node is known. -/
theorem activate_of_poisoned (h : s.engine.poisoned = some f) (n : NodeId) :
    s.activate n = (.failed { f with code := .fatal },
      ⟨s.engine, s.context.fail { f with code := .fatal }, s.world⟩) := by
  simp only [activate, enter_of_poisoned h]

/-- A refused call only notes its answer in the context. -/
theorem exists_modifyContext_of_poisoned (h : s.engine.poisoned = some f) (c : Call) :
    ∃ g : Context → Context, (∀ c, (g c).parked = c.parked) ∧ (s.call c).2 = s.modifyContext g := by
  cases c with
  | run =>
    refine ⟨(·.reset.fail { f with code := .fatal }), fun _ ↦ rfl, ?_⟩
    rw [call, run_of_poisoned h]
    rfl
  | activateNext =>
    refine ⟨(·.fail { f with code := .fatal }), fun _ ↦ rfl, ?_⟩
    rw [call, activateNext_of_poisoned h]
    rfl
  | activate n =>
    refine ⟨(·.fail { f with code := .fatal }), fun _ ↦ rfl, ?_⟩
    rw [call, activate_of_poisoned h]
    rfl
  | bound limit => exact ⟨(·.withLimit limit), fun _ ↦ rfl, rfl⟩

/-- Beside the context, a refused call leaves everything as it is. -/
theorem call_of_poisoned (h : s.engine.poisoned = some f) (c : Call) :
    (s.call c).2.engine = s.engine ∧ (s.call c).2.world = s.world ∧
      (s.call c).2.context.parked = s.context.parked := by
  obtain ⟨g, hparked, hcall⟩ := exists_modifyContext_of_poisoned h c
  rw [hcall]
  exact ⟨rfl, rfl, hparked s.context⟩

theorem trace_of_poisoned (h : s.engine.poisoned = some f) (c : Call) : s.trace c = [] := by
  have hworld := (call_of_poisoned (s := s.traced []) h c).2.1
  exact congrArg (·.host.2) hworld

theorem traced_call_of_poisoned (h : s.engine.poisoned = some f) (events : List Event) (c : Call) :
    (s.traced events).call c = ((s.call c).1, (s.call c).2.traced events) := by
  have h' : (s.traced events).engine.poisoned = some f := h
  cases c with
  | run =>
    rw [call, call, run_of_poisoned h, run_of_poisoned h']
    rfl
  | activateNext =>
    rw [call, call, activateNext_of_poisoned h, activateNext_of_poisoned h']
    rfl
  | activate n =>
    rw [call, call, activate_of_poisoned h, activate_of_poisoned h']
    rfl
  | bound limit => rfl

end Refused

end Session

/-! ## Histories -/

/-- What a host can do. Each call is made with a context of its own, whatever came of other contexts. -/
inductive HostAction (κ : Type) [ElementKind κ] (ω : Type) where
  | call (context : Context) (c : Call)
  | restart (context : Context)
  /-- Changes a queue. -/
  | access (id : EdgeId) (k : κ)
    (f : Fifo (ElementKind.Carrier k) → Fifo (ElementKind.Carrier k))
  /-- Stop requests, and all else that happens outside of the engine. -/
  | surroundings (f : World ω → World ω)

namespace Session

def withContext (s : Session κ σ ω) (c : Context) : Session κ σ ω := { s with context := c }

def act (s : Session κ σ ω) : HostAction κ ω → Session κ σ ω
  | .call context c => ((s.withContext context).call c).2
  | .restart context => reinitialize (s.withContext context)
  | .access id k f =>
    match s.engine.queue? id k with
    | none => s
    | some q => { s with engine := s.engine.putQueue id k (f q) }
  | .surroundings f => { s with world := f s.world }

def acts (actions : List (HostAction κ ω)) (s : Session κ σ ω) : Session κ σ ω := actions.foldl act s

/-- The events since the engine was last put back, where `events` came before the action. -/
def eventsAfter (s : Session κ σ ω) (events : List Event) : HostAction κ ω → List Event
  | .call context c => events ++ (s.withContext context).trace c
  | .restart _ => []
  | .access .. | .surroundings _ => events

/-- The events since the engine was last put back, over a whole history. -/
def recentEvents : List (HostAction κ ω) → List Event → Session κ σ ω → List Event
  | [], events, _ => events
  | action :: rest, events, s => recentEvents rest (s.eventsAfter events action) (s.act action)

theorem callNodes_induction {P : Session κ σ ω → Prop} {s : Session κ σ ω}
    {callback : Behaviour κ σ ω → Callback σ ω Unit} (h : P s)
    (hcall : ∀ t n, P t → P (t.callNode n () callback).2) : P (s.callNodes callback) := by
  unfold callNodes
  generalize List.range s.engine.nodes.length = ns
  induction ns generalizing s with
  | nil => exact h
  | cons n ns ih => exact ih (hcall s n h)

theorem plan_callNodes (s : Session κ σ ω) (callback : Behaviour κ σ ω → Callback σ ω Unit) :
    (s.callNodes callback).engine.plan = s.engine.plan :=
  callNodes_induction (P := fun t ↦ t.engine.plan = s.engine.plan) rfl fun t n h ↦
    (plan_of_frame (t.local_callNode n () callback).frame).trans h

theorem Poisons.act {p : Plan} {s : Session κ σ ω} {events : List Event} (h : s.Poisons p events)
    (action : HostAction κ ω) : (s.act action).Poisons p (s.eventsAfter events action) := by
  obtain ⟨hplan, hpoisoned⟩ := h
  cases action with
  | call context c =>
    cases hsane : s.engine.poisoned with
    | none =>
      have hnone : firstFatal events = none := Option.map_eq_none_iff.mp (hpoisoned.symm.trans hsane)
      obtain ⟨hplan', hcall⟩ := poisons_call (s := s.withContext context) hplan hsane c
      refine ⟨hplan', ?_⟩
      rw [eventsAfter, firstFatal_append, hnone, Option.none_or]
      exact hcall
    | some f =>
      have hengine : (s.act (.call context c)).engine = s.engine :=
        (call_of_poisoned (s := s.withContext context) hsane c).1
      rw [Poisons, hengine, eventsAfter, trace_of_poisoned (s := s.withContext context) hsane,
        List.append_nil]
      exact ⟨hplan, hpoisoned⟩
  | restart context => exact ⟨(plan_callNodes _ _).trans hplan, rfl⟩
  | access id k f =>
    unfold Session.act
    dsimp only
    split
    · exact ⟨hplan, hpoisoned⟩
    · exact ⟨hplan, hpoisoned⟩
  | surroundings f => exact ⟨hplan, hpoisoned⟩

theorem Poisons.acts {p : Plan} {s : Session κ σ ω} {events : List Event} (h : s.Poisons p events)
    (actions : List (HostAction κ ω)) :
    (s.acts actions).Poisons p (recentEvents actions events s) := by
  induction actions generalizing s events with
  | nil => exact h
  | cons action rest ih => exact ih (h.act action)

/-- Whatever a host does with an engine that was built, the engine is unusable exactly when there has been
a fatal error since it was built or last put back. While it is, every call, also one that names an unknown
node or comes after a stop request, answers with the code of unusable engines and with the node and the
diagnostic number of the first such error. It makes no callback and changes neither the engine nor the
surroundings nor a parked state. -/
theorem unusable_since_fatal {b : Binding κ σ ω} {w w' : World ω} {e : Engine κ σ ω}
    (h : b.build w = (.ok e, w')) (context : Context) (actions : List (HostAction κ ω)) :
    let s := (Session.mk e context w').acts actions
    let fatal := firstFatal (recentEvents actions [] (Session.mk e context w'))
    s.engine.poisoned = fatal.map b.plan.fatality ∧
      ∀ error, fatal = some error → ∀ c : Context,
        let refusal : Failure := { b.plan.fatality error with code := .fatal }
        (s.withContext c).run =
            (⟨.fatal, 0, some refusal⟩, ⟨s.engine, c.reset.fail refusal, s.world⟩) ∧
          (s.withContext c).activateNext =
            (.failed refusal, ⟨s.engine, c.fail refusal, s.world⟩) ∧
          (∀ n, (s.withContext c).activate n =
            (.failed refusal, ⟨s.engine, c.fail refusal, s.world⟩)) ∧
          (c.reset.fail refusal).parked = c.parked ∧ (c.fail refusal).parked = c.parked ∧
          ∀ call, (s.withContext c).trace call = [] := by
  intro s fatal
  obtain ⟨nodes, -, -, hplan, hpoisoned, -⟩ := Binding.exists_of_build_eq_ok h
  have hstart : (Session.mk e context w').Poisons b.plan [] := ⟨hplan.symm, hpoisoned⟩
  have hend : s.engine.poisoned = fatal.map b.plan.fatality := (hstart.acts actions).2
  refine ⟨hend, ?_⟩
  intro error hfatal c refusal
  have hunusable : (s.withContext c).engine.poisoned = some (b.plan.fatality error) := by
    rw [hfatal] at hend
    exact hend
  exact ⟨run_of_poisoned hunusable, activateNext_of_poisoned hunusable,
    activate_of_poisoned hunusable, rfl, rfl, trace_of_poisoned hunusable⟩

end Session

namespace Looped

/-- A node that breaks when it is fired. -/
def breaker : Behaviour Scalar UInt8 Unit where
  run := fun s ↦ .done (.error (.fatal (.node 7)), s)

def fragile : List (Bind Scalar UInt8 Unit) :=
  [.fifo 1 .u8, .node 1 ⟨breaker, 0⟩, .node 0 ⟨feeder, 0⟩, .fifo 0 .u8]

end Looped

namespace Session

/-- The second node breaks in the first period. A queue is emptied and a stop is requested before the next
call, which is refused all the same. -/
theorem unusable_looped :
    ∃ e w, (Binding.ofCalls (Looped.plan .static [7, 2]) 0 Looped.fragile).build Looped.world = (.ok e, w) ∧
      ∃ s : Session Scalar UInt8 Unit, s = (Session.mk e (.new none) w).acts
          [.call (.new (some 2)) .run, .access 0 .u8 Fifo.reset,
            .surroundings fun w ↦ ⟨w.stops.raise 0, ()⟩] ∧
        s.engine.poisoned = some ⟨.node 7, 1, 1, true⟩ ∧
        ∀ n, (s.activate n).1 = .failed ⟨.fatal, 1, 1, true⟩ := by
  obtain ⟨e, w, hbuild⟩ : ∃ e w,
      (Binding.ofCalls (Looped.plan .static [7, 2]) 0 Looped.fragile).build Looped.world = (.ok e, w) :=
    ⟨_, _, rfl⟩
  obtain ⟨hpoisoned, hrefused⟩ := unusable_since_fatal hbuild (.new none)
    [.call (.new (some 2)) .run, .access 0 .u8 Fifo.reset,
      .surroundings fun w ↦ ⟨w.stops.raise 0, ()⟩]
  have hfatal : firstFatal (recentEvents [.call (.new (some 2)) .run, .access 0 .u8 Fifo.reset,
      .surroundings fun w ↦ ⟨w.stops.raise 0, ()⟩] [] (Session.mk e (.new none) w)) =
      some (1, .node 7) := by
    cases hbuild
    decide +kernel
  refine ⟨e, w, hbuild, _, rfl, ?_, ?_⟩
  · rw [hpoisoned, hfatal]
    rfl
  · intro n
    exact congrArg Prod.fst ((hrefused _ hfatal _).2.2.1 n)

end Session

end Dataflow
