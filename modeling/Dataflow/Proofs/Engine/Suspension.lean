import Dataflow.Proofs.Engine.Poisoning

/-!
# States kept between firings

Without a fixed order, what a node remembers is given to the context at the end of each firing, and given
back at the start of the next. The context always holds what the node gave last.
-/

namespace Dataflow

variable {κ : Type} [ElementKind κ] {σ ω : Type}

/-- Events outside of firings. -/
def Event.isIdle : Event → Bool
  | .beforePeriod _ | .afterPeriod _ | .prepared .. => true
  | _ => false

/-- The engine has this node. -/
def Frame.Knows (f : Frame κ σ ω) (n : NodeId) : Prop :=
  n < f.behaviours.length ∧ n < f.plan.graph.nodes.length

namespace Session

/-! ## The course of a firing -/

/-- What happens when a firing of node `n` leads from `s` to `t`. A parked state is given back once. If
there was none or it is taken, the node runs once and is then asked once for its state, and what it gives is
what is parked. If it is not taken, it stays parked and no queue changes. -/
inductive Fires (n : NodeId) (s t : Session κ σ ω) : List Event → Prop where
  | fresh (result : Except NodeError RunStatus) (outcome : Outcome)
    (hnone : s.context.parked.get? n = none) :
    Fires n s t [.beforeActivation n, .ran n result, .saved n (t.context.parked.get? n),
      .afterActivation n outcome]
  | resumed (blob : Blob) (result : Except NodeError RunStatus) (outcome : Outcome)
    (hblob : s.context.parked.get? n = some blob) :
    Fires n s t [.beforeActivation n, .restored n blob (.ok ()), .ran n result,
      .saved n (t.context.parked.get? n), .afterActivation n outcome]
  | refused (blob : Blob) (e : NodeError) (hblob : s.context.parked.get? n = some blob)
    (hkept : t.context.parked.get? n = some blob)
    (hchannels : t.engine.channels = s.engine.channels) :
    Fires n s t [.beforeActivation n, .restored n blob (.error e), .afterActivation n (.failed e.code)]

variable {s t : Session κ σ ω} {n : NodeId}

theorem exists_of_knows (h : s.frame.Knows n) :
    ∃ i node, s.engine.nodes[n]? = some i ∧ s.engine.plan.graph.nodes[n]? = some node := by
  have hlt : n < s.engine.nodes.length := by simpa [frame, Engine.frame] using h.1
  exact ⟨_, _, List.getElem?_eq_getElem hlt, List.getElem?_eq_getElem h.2⟩

/-- A node that says that it is ready is known. -/
theorem knows_of_readiness (h : (s.readiness n).1 = .proceed) : s.frame.Knows n := by
  unfold readiness at h
  split at h
  · cases h
  · rename_i node hnode
    cases hi : s.engine.nodes[n]? with
    | none =>
      simp only [callNode, hi] at h
      cases h
    | some i =>
      refine ⟨?_, (List.getElem?_eq_some_iff.mp hnode).1⟩
      simpa [frame, Engine.frame] using (List.getElem?_eq_some_iff.mp hi).1

/-- A node without a parked state starts from its memory. -/
theorem restoreParked_of_none (h : s.context.parked.get? n = none) :
    s.restoreEvents n = [] ∧ s.restoreParked n = (.ok (), s) := by
  simp only [restoreEvents, restoreParked, h, and_self]

/-- The session in which node `n` has been called upon to take this state. -/
def takeBack (s : Session κ σ ω) (n : NodeId) (taken : Except NodeError Unit × σ × World ω) :
    Session κ σ ω :=
  ({ s.modifyContext (·.unpark n) with world := taken.2.2 }).putMemory n taken.2.1

theorem restoreParked_eq {i : Instance κ σ ω} (hi : s.engine.nodes[n]? = some i) {blob : Blob}
    (h : s.context.parked.get? n = some blob) {taken : Except NodeError Unit × σ × World ω}
    (htaken : i.behaviour.restore blob (i.memory, s.world) = taken) :
    s.restoreParked n = (taken.1,
      match taken.1 with
      | .ok () => s.takeBack n taken
      | .error _ => (s.takeBack n taken).modifyContext (·.park n blob)) := by
  have hi' : (s.modifyContext (·.unpark n)).engine.nodes[n]? = some i := hi
  have hworld : (s.modifyContext (·.unpark n)).world = s.world := rfl
  simp only [restoreParked, h, callNode_eq hi', hworld, htaken]
  rcases taken with ⟨e | _, memory, world⟩ <;> rfl

/-- A parked state is given back once. It is out of the context if it is taken, and else back in it. -/
theorem restoreParked_of_some (hknows : s.frame.Knows n) {blob : Blob}
    (h : s.context.parked.get? n = some blob) :
    ∃ t, (s.restoreEvents n = [.restored n blob (.ok ())] ∧ s.restoreParked n = (.ok (), t) ∧
        t.context.parked.get? n = none) ∨
      ∃ e, s.restoreEvents n = [.restored n blob (.error e)] ∧ s.restoreParked n = (.error e, t) ∧
        t.context.parked.get? n = some blob ∧ t.engine.channels = s.engine.channels := by
  obtain ⟨i, -, hi, -⟩ := exists_of_knows hknows
  simp only [restoreEvents, h, callEvents, hi]
  rcases htaken : i.behaviour.restore blob (i.memory, s.world) with ⟨e | _, memory, world⟩
  · rw [restoreParked_eq hi h htaken]
    exact ⟨_, .inr ⟨e, rfl, rfl, (Parking.get?_put _ n n blob).trans (if_pos rfl), rfl⟩⟩
  · rw [restoreParked_eq hi h htaken]
    exact ⟨_, .inl ⟨rfl, rfl, (Parking.get?_remove _ n n).trans (if_pos rfl)⟩⟩

/-- A node that runs is asked for its state afterwards, and what it gives is what is parked. -/
theorem performEvents_eq (hknows : s.frame.Knows n) (h : s.context.parked.get? n = none) :
    ∃ result after, s.performEvents n true = [.ran n result, .saved n after] ∧
      (s.perform n true).2.context.parked.get? n = after := by
  obtain ⟨i, node, hi, hnode⟩ := exists_of_knows hknows
  have hframe : (s.execute n).2.frame = s.frame := s.frame_execute n
  obtain ⟨j, -, hj, -⟩ := exists_of_knows (s := (s.execute n).2) (n := n) (hframe ▸ hknows)
  have hnone : (s.execute n).2.context.parked.get? n = none := by rwa [context_execute]
  refine ⟨(s.outcomeOf n i node).1.1, (j.behaviour.save (j.memory, (s.execute n).2.world)).1, ?_, ?_⟩
  · simp only [performEvents, executeEvents, saveEvents, callEvents, hi, hnode, hj, if_true,
      List.singleton_append]
  · simp only [perform, savePark, callNode_eq hj, if_true]
    rcases j.behaviour.save (j.memory, (s.execute n).2.world) with ⟨_ | blob, memory, world⟩
    · exact hnone
    · exact (Parking.get?_put _ n n blob).trans (if_pos rfl)

theorem parked_fire (s : Session κ σ ω) (n : NodeId) (persist : Bool) :
    (s.fire n persist).2.context.parked = (s.attempt n persist).2.context.parked := by
  rcases s.fire_cases n persist with ⟨status, -, hfire⟩ | ⟨e, -, hfire⟩
  · rw [hfire]
    rfl
  · rw [hfire]
    rfl

theorem channels_fire (s : Session κ σ ω) (n : NodeId) (persist : Bool) :
    (s.fire n persist).2.engine.channels = (s.attempt n persist).2.engine.channels := by
  rcases s.fire_cases n persist with ⟨status, -, hfire⟩ | ⟨e, -, hfire⟩
  · rw [hfire]
    rfl
  · rw [hfire]
    rfl

/-- Every firing of a known node takes this course, and leaves the states of other nodes alone. -/
theorem fires_fire (hknows : s.frame.Knows n) : Fires n s (s.fire n true).2 (s.fireEvents n true) := by
  have hafter := congrArg (·.get? n) (s.parked_fire n true)
  have hqueues := s.channels_fire n true
  rw [fireEvents, attemptEvents]
  revert hafter hqueues
  rw [attempt]
  generalize (s.fire n true).2 = t
  cases h : s.context.parked.get? n with
  | none =>
    obtain ⟨hevents, hrestore⟩ :=
      restoreParked_of_none (s := s.observe (·.beforeActivation n)) (n := n) h
    obtain ⟨result, after, hperform, hparked⟩ :=
      performEvents_eq (s := s.observe (·.beforeActivation n)) (n := n) hknows h
    simp only [resumeEvents, resume, if_true, hevents, hrestore, hperform, hparked]
    rintro rfl -
    exact .fresh result _ h
  | some blob =>
    obtain ⟨u, ⟨hevents, hrestore, hgone⟩ | ⟨e, hevents, hrestore, hback, hsame⟩⟩ :=
      restoreParked_of_some (s := s.observe (·.beforeActivation n)) (n := n) hknows h
    · have hframe : u.frame = s.frame := by
        have hlocal := local_restoreParked (s.observe (·.beforeActivation n)) n
        rw [hrestore] at hlocal
        exact hlocal.frame
      obtain ⟨result, after, hperform, hparked⟩ :=
        performEvents_eq (s := u) (n := n) (hframe ▸ hknows) hgone
      simp only [resumeEvents, resume, if_true, hevents, hrestore, hperform, hparked]
      rintro rfl -
      exact .resumed blob result _ h
    · simp only [resumeEvents, resume, if_true, hevents, hrestore, hback]
      intro hkept hqueues
      exact .refused blob e h hkept (hqueues.trans hsame)

theorem parked_fire_of_ne {m : NodeId} (hm : m ≠ n) (persist : Bool) :
    (s.fire n persist).2.context.parked.get? m = s.context.parked.get? m := by
  rw [parked_fire]
  exact (s.local_attempt n persist).parked m hm

/-! ## The course of a history -/

/-- What node `n` gave last. -/
def lastSave (n : NodeId) (events : List Event) : Option Blob :=
  noteAll (fun event last ↦
    match event with
    | .saved m blob => if m = n then blob else last
    | _ => last) events none

theorem lastSave_append (n : NodeId) (events new : List Event) :
    lastSave n (events ++ new) = noteAll (fun event last ↦
      match event with
      | .saved m blob => if m = n then blob else last
      | _ => last) new (lastSave n events) := noteAll_append _ events new none

/-- What an engine does between two firings. -/
inductive Interlude where
  /-- The context is brought up to date, apart from what is parked there. -/
  | status (f : Context → Context) (hf : ∀ c, (f c).parked = c.parked)
  | moved (cursor : Nat)
  | beforePeriod (iteration : Nat)
  | afterPeriod (iteration : Nat)
  | asked (node : NodeId)
  /-- The answer of a node ends the call. -/
  | broken (node : NodeId) (e : NodeError)

def interlude (s : Session κ σ ω) : Interlude → Session κ σ ω
  | .status f _ => s.modifyContext f
  | .moved cursor => s.putCursor cursor
  | .beforePeriod i => s.observe (·.beforePeriod i)
  | .afterPeriod i => s.observe (·.afterPeriod i)
  | .asked n => (s.readiness n).2
  | .broken n e => (s.failNode n e).2

def interludeEvents (s : Session κ σ ω) : Interlude → List Event
  | .beforePeriod i => [.beforePeriod i]
  | .afterPeriod i => [.afterPeriod i]
  | .asked n => s.readinessEvents n
  | .status .. | .moved _ | .broken .. => []

/-- From `s` on, these events have come about. Each session on the way is the one to which the engine
comes from the session before, by an interlude or by a firing. Interludes change neither the queues nor
the parked states; each firing starts from what its node gave last. -/
inductive Course (s : Session κ σ ω) : Session κ σ ω → List Event → Prop where
  | start : Course s s []
  | interlude {t : Session κ σ ω} {events : List Event} (h : Course s t events) (step : Interlude)
    (hparked : (t.interlude step).context.parked = t.context.parked)
    (hchannels : (t.interlude step).engine.channels = t.engine.channels) :
    Course s (t.interlude step) (events ++ t.interludeEvents step)
  | firing {t : Session κ σ ω} {events : List Event} (h : Course s t events) (n : NodeId)
    (hlast : t.context.parked.get? n = lastSave n events)
    (hfires : Fires n t (t.fire n true).2 (t.fireEvents n true))
    (hothers : ∀ m ≠ n, (t.fire n true).2.context.parked.get? m = t.context.parked.get? m) :
    Course s (t.fire n true).2 (events ++ t.fireEvents n true)

theorem lastSave_append_of_idle {events new : List Event} (hidle : ∀ event ∈ new, event.isIdle)
    (n : NodeId) : lastSave n (events ++ new) = lastSave n events := by
  rw [lastSave_append]
  generalize lastSave n events = last
  induction new with
  | nil => rfl
  | cons event new ih =>
    have hrest := ih fun event hevent ↦ hidle event (List.mem_cons_of_mem _ hevent)
    have hevent := hidle event List.mem_cons_self
    cases event with
    | saved m blob => cases hevent
    | _ => exact hrest

theorem Fires.lastSave_append {new : List Event} (h : Fires n s t new) (events : List Event)
    (hlast : s.context.parked.get? n = lastSave n events) (m : NodeId) :
    lastSave m (events ++ new) = if m = n then t.context.parked.get? n else lastSave m events := by
  rw [Session.lastSave_append]
  by_cases hm : m = n
  · subst hm
    cases h with
    | fresh result outcome hnone => simp [noteAll]
    | resumed blob result outcome hblob => simp [noteAll]
    | refused blob e hblob hkept hchannels =>
      rw [hkept, if_pos rfl, ← hlast, hblob]
      rfl
  · have hne : n ≠ m := Ne.symm hm
    cases h with
    | fresh result outcome hnone => simp [noteAll, hm, hne]
    | resumed blob result outcome hblob => simp [noteAll, hm, hne]
    | refused blob e hblob hkept hchannels => simp [noteAll, hm]

/-- The events so far are the course from `s` on in an engine with this frame, and what is parked is what
the nodes gave last. -/
structure Suspends (f : Frame κ σ ω) (s t : Session κ σ ω) (events : List Event) : Prop where
  frame : t.frame = f
  course : s.Course t events
  last (n : NodeId) : t.context.parked.get? n = lastSave n events

theorem context_callNode {α : Type} (s : Session κ σ ω) (n : NodeId) (absent : α)
    (callback : Behaviour κ σ ω → Callback σ ω α) :
    (s.callNode n absent callback).2.context = s.context := by
  unfold callNode
  split
  · rfl
  · rfl

theorem context_readiness (s : Session κ σ ω) (n : NodeId) :
    (s.readiness n).2.context = s.context := by
  unfold readiness
  split
  · rfl
  · exact context_callNode s n _ _

theorem channels_readiness (s : Session κ σ ω) (n : NodeId) :
    (s.readiness n).2.engine.channels = s.engine.channels := by
  unfold readiness
  split
  · rfl
  · exact channels_callNode s n _ _

theorem frame_interlude (s : Session κ σ ω) (step : Interlude) :
    (s.interlude step).frame = s.frame := by
  cases step with
  | asked n => exact (s.local_readiness n).frame
  | _ => rfl

theorem parked_interlude (s : Session κ σ ω) (step : Interlude) :
    (s.interlude step).context.parked = s.context.parked := by
  cases step with
  | status f hf => exact hf s.context
  | asked n => exact congrArg Context.parked (s.context_readiness n)
  | _ => rfl

theorem channels_interlude (s : Session κ σ ω) (step : Interlude) :
    (s.interlude step).engine.channels = s.engine.channels := by
  cases step with
  | asked n => exact s.channels_readiness n
  | _ => rfl

theorem isIdle_of_mem_interludeEvents {step : Interlude} {event : Event}
    (h : event ∈ s.interludeEvents step) : event.isIdle := by
  cases step with
  | status | moved | broken => cases h
  | beforePeriod i | afterPeriod i =>
    rw [List.mem_singleton.mp h]
    rfl
  | asked n =>
    obtain ⟨answer, rfl⟩ := exists_of_mem_readinessEvents h
    rfl

theorem Suspends.interlude {f : Frame κ σ ω} {events : List Event} (h : Suspends f s t events)
    (step : Interlude) : Suspends f s (t.interlude step) (events ++ t.interludeEvents step) where
  frame := (t.frame_interlude step).trans h.frame
  course := h.course.interlude step (t.parked_interlude step) (t.channels_interlude step)
  last n := by
    rw [parked_interlude, h.last, lastSave_append_of_idle fun _ ↦ isIdle_of_mem_interludeEvents]

/-- A step that is not seen from outside adds no event. -/
theorem Suspends.silent {f : Frame κ σ ω} {events : List Event} (h : Suspends f s t events)
    (step : Interlude) (hnone : t.interludeEvents step = []) :
    Suspends f s (t.interlude step) events := by
  have hstep : Suspends f s (t.interlude step) (events ++ t.interludeEvents step) := h.interlude step
  rwa [hnone, List.append_nil] at hstep

theorem Suspends.fire {f : Frame κ σ ω} {events : List Event} (h : Suspends f s t events)
    (hknows : f.Knows n) :
    Suspends f s (t.fire n true).2 (events ++ t.fireEvents n true) := by
  have hfires : Fires n t (t.fire n true).2 (t.fireEvents n true) := fires_fire (h.frame ▸ hknows)
  have hothers : ∀ m ≠ n,
      (t.fire n true).2.context.parked.get? m = t.context.parked.get? m :=
    fun m hm ↦ parked_fire_of_ne hm true
  refine ⟨(t.frame_fire n true).trans h.frame, h.course.firing n (h.last n) hfires hothers, ?_⟩
  intro m
  rw [hfires.lastSave_append events (h.last n)]
  split
  · rename_i hm
    rw [hm]
  · rename_i hm
    rw [hothers m hm, h.last]

theorem chronicle_suspends {f : Frame κ σ ω} (hmode : f.plan.mode = .fullyAsynchronous)
    (s : Session κ σ ω) :
    Chronicle f.plan.mode (fun n _ ↦ f.Knows n)
      (fun t events ↦ Suspends f s t events ∧ t.engine.poisoned = none) (Suspends f s) where
  mode h := congrArg (·.plan.mode) h.1.frame
  sane h := h.2
  status h f hf := ⟨h.1.silent (.status f hf) rfl, h.2⟩
  status_failed h f hf := h.silent (.status f hf) rfl
  moved h cursor := ⟨h.1.silent (.moved cursor) rfl, h.2⟩
  before h i := ⟨h.1.interlude (.beforePeriod i), h.2⟩
  after h i := ⟨h.1.interlude (.afterPeriod i), h.2⟩
  asked {t events} h n := by
    have hasked := h.1.interlude (.asked n)
    have hsane := (t.local_readiness n).poisoned.trans h.2
    split
    · exact ⟨hasked, hsane⟩
    · rename_i hproceed
      exact ⟨⟨hasked, hsane⟩, h.1.frame ▸ knows_of_readiness hproceed⟩
    · rename_i code _
      exact hasked.silent (.broken n (.fatal code)) rfl
  fired {t events} h n hknows := by
    have hpersists : t.persists = true :=
      decide_eq_true ((congrArg (·.plan.mode) h.1.frame).trans hmode)
    have hend := h.1.fire hknows
    rw [hpersists]
    exact (sane_or_failed_of_fire h.2 n true).imp (⟨hend, ·⟩) (⟨·, hend⟩)

theorem Suspends.call {f : Frame κ σ ω} (hmode : f.plan.mode = .fullyAsynchronous)
    {events : List Event} (h : Suspends f s t events) (c : Call) :
    ∃ events', (t.traced events).call c = ((t.call c).1, (t.call c).2.traced events') ∧
      Suspends f s (t.call c).2 events' := by
  cases hsane : t.engine.poisoned with
  | some failure =>
    obtain ⟨g, hparked, hcall⟩ := exists_modifyContext_of_poisoned hsane c
    refine ⟨events, traced_call_of_poisoned hsane events c, ?_⟩
    rw [hcall]
    exact h.silent (.status g hparked) rfl
  | none =>
    have hstart : Told (fun t events ↦ Suspends f s t events ∧ t.engine.poisoned = none) t
        (t.traced events) := ⟨events, rfl, h, hsane⟩
    have hcall := (chronicle_suspends hmode s).coupled.call hstart (c := c)
      fun _ hstatic ↦ absurd (hmode.symm.trans hstatic) (by decide)
    rcases hcall.ends with ⟨events', ht, hend, -⟩ | ⟨events', ht, hend⟩
    · exact ⟨events', Prod.ext hcall.1 ht, hend⟩
    · exact ⟨events', Prod.ext hcall.1 ht, hend⟩

theorem Suspends.calls {f : Frame κ σ ω} (hmode : f.plan.mode = .fullyAsynchronous)
    {events : List Event} (h : Suspends f s t events) (cs : List Call) :
    ∃ events', (t.traced events).calls cs = ((t.calls cs).1, (t.calls cs).2.traced events') ∧
      Suspends f s (t.calls cs).2 events' := by
  induction cs generalizing t events with
  | nil => exact ⟨events, rfl, h⟩
  | cons c cs ih =>
    obtain ⟨events', hcall, hnext⟩ := h.call hmode c
    obtain ⟨events'', hcalls, hend⟩ := ih hnext
    refine ⟨events'', ?_, hend⟩
    simp only [Session.calls, hcall, hcalls]

end Session

end Dataflow
