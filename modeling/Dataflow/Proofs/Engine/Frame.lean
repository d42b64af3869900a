import Dataflow.Engine.Activation
import Dataflow.Engine.Run
import Dataflow.Proofs.Engine.Activity

/-!
# What a firing does not change

No firing changes the plan of an engine, the behaviour of its nodes, its observers, its stop token, or
the kinds and capacities of its queues. Beside the elements and the surroundings, what changes is the
memory of the node that fires, and its parked state.
-/

namespace Dataflow

variable {κ : Type} [ElementKind κ] {σ ω α : Type}

/-- The parts of an engine that no call changes. -/
structure Frame (κ : Type) [ElementKind κ] (σ ω : Type) where
  plan : Plan
  behaviours : List (Behaviour κ σ ω)
  hooks : Hooks ω
  stop : StopToken
  shape : List (κ × Nat)

def Engine.frame (e : Engine κ σ ω) : Frame κ σ ω where
  plan := e.plan
  behaviours := e.nodes.map (·.behaviour)
  hooks := e.hooks
  stop := e.stop
  shape := Channel.shape e.channels

theorem Engine.exists_of_behaviours {e : Engine κ σ ω} {n : NodeId} {b : Behaviour κ σ ω}
    (h : e.frame.behaviours[n]? = some b) : ∃ i, e.nodes[n]? = some i ∧ i.behaviour = b := by
  simpa [frame] using h

theorem Engine.exists_of_mem_behaviours {e : Engine κ σ ω} {b : Behaviour κ σ ω}
    (h : b ∈ e.frame.behaviours) :
    ∃ (n : NodeId) (i : Instance κ σ ω), e.nodes[n]? = some i ∧ i.behaviour = b := by
  obtain ⟨n, hn⟩ := List.mem_iff_getElem?.mp h
  exact ⟨n, exists_of_behaviours hn⟩

namespace Session

def frame (s : Session κ σ ω) : Frame κ σ ω := s.engine.frame

theorem plan_of_frame {s t : Session κ σ ω} (h : t.frame = s.frame) : t.engine.plan = s.engine.plan :=
  congrArg Frame.plan h

theorem frame_putMemory (s : Session κ σ ω) (n : NodeId) (memory : σ) :
    (s.putMemory n memory).frame = s.frame := by
  have hbehaviours : (s.engine.nodes.modify n ({ · with memory := memory })).map (·.behaviour) =
      s.engine.nodes.map (·.behaviour) := by
    apply List.ext_getElem?
    intro i
    simp only [List.getElem?_map, List.getElem?_modify]
    cases s.engine.nodes[i]? with
    | none => simp
    | some j => by_cases hi : n = i <;> simp [hi]
  simp only [frame, Engine.frame, putMemory, hbehaviours]

/-- The session after node `n` has run: with its memory, the surroundings and the queues it left. -/
def settle (s : Session κ σ ω) (n : NodeId) (memory : σ) (world : World ω)
    (channels : List (Channel κ)) : Session κ σ ω :=
  ({ s with world := world }.putChannels channels).putMemory n memory

/-- How a run of node `n` counts that has ended with `result`. -/
def verdict (s : Session κ σ ω) (n : NodeId) (channels : List (Channel κ)) :
    Except NodeError RunStatus → Except NodeError RunStatus
  | .error e => .error e
  | .ok status =>
    if s.engine.plan.graph.ratesHonored n status s.levels (channels.map Channel.available) then
      .ok status
    else .error .rateMismatch

/-- What node `n` does in one firing. -/
def outcomeOf (s : Session κ σ ω) (n : NodeId) (i : Instance κ σ ω) (node : Node) :
    (Except NodeError RunStatus × σ × World ω) × List (Channel κ) :=
  Activity.exec node n (i.behaviour.run (i.memory, s.world)) s.engine.channels

theorem execute_eq {s : Session κ σ ω} {n : NodeId} {i : Instance κ σ ω} {node : Node}
    (hi : s.engine.nodes[n]? = some i) (hnode : s.engine.plan.graph.nodes[n]? = some node) :
    s.execute n =
      (s.verdict n (s.outcomeOf n i node).2 (s.outcomeOf n i node).1.1,
        s.settle n (s.outcomeOf n i node).1.2.1 (s.outcomeOf n i node).1.2.2
          (s.outcomeOf n i node).2) := by
  unfold execute outcomeOf verdict
  simp only [hi, hnode]
  cases hresult : (Activity.exec node n (i.behaviour.run (i.memory, s.world)) s.engine.channels).1.1 with
  | error e =>
    simp only [takeChannels, hresult]
    rfl
  | ok status =>
    simp only [takeChannels, hresult]
    by_cases honored : s.engine.plan.graph.ratesHonored n status s.levels (List.map Channel.available
        (Activity.exec node n (i.behaviour.run (i.memory, s.world)) s.engine.channels).2)
    · rw [if_pos honored]
      exact if_pos honored
    · rw [if_neg honored]
      exact if_neg honored

theorem frame_execute (s : Session κ σ ω) (n : NodeId) : (s.execute n).2.frame = s.frame := by
  cases hi : s.engine.nodes[n]? with
  | none => simp only [execute, hi]
  | some i =>
    cases hnode : s.engine.plan.graph.nodes[n]? with
    | none => simp only [execute, hi, hnode]
    | some node =>
      rw [execute_eq hi hnode]
      refine (frame_putMemory _ n _).trans ?_
      have hshape := (Activity.altered_of_exec node n (i.behaviour.run (i.memory, s.world))
        s.engine.channels).shape
      simp only [frame, Engine.frame, putChannels]
      rw [outcomeOf, hshape]

/-- What is fixed about the queues. -/
def origins (s : Session κ σ ω) : List ((k : κ) × Nat × List (ElementKind.Carrier k)) :=
  s.engine.channels.map Channel.origin

theorem origins_execute (s : Session κ σ ω) (n : NodeId) : (s.execute n).2.origins = s.origins := by
  cases hi : s.engine.nodes[n]? with
  | none => simp only [execute, hi]
  | some i =>
    cases hnode : s.engine.plan.graph.nodes[n]? with
    | none => simp only [execute, hi, hnode]
    | some node =>
      rw [execute_eq hi hnode]
      exact (Activity.altered_of_exec node n (i.behaviour.run (i.memory, s.world))
        s.engine.channels).origins

/-- The state of node `n` is brought back before it runs. -/
def resume (s : Session κ σ ω) (n : NodeId) (persist : Bool) : Except NodeError Unit × Session κ σ ω :=
  if persist then (s.observe (·.beforeActivation n)).restoreParked n
  else (.ok (), s.observe (·.beforeActivation n))

/-- Node `n` runs, and its state is put away. -/
def perform (s : Session κ σ ω) (n : NodeId) (persist : Bool) :
    Except NodeError RunStatus × Session κ σ ω :=
  ((s.execute n).1, if persist then (s.execute n).2.savePark n else (s.execute n).2)

/-- A firing up to its outcome. -/
def attempt (s : Session κ σ ω) (n : NodeId) (persist : Bool) :
    Except NodeError RunStatus × Session κ σ ω :=
  match s.resume n persist with
  | (.error e, s) => (.error e, s)
  | (.ok (), s) => s.perform n persist

/-- The outcome of a firing is counted and shown to the observers. -/
def note (s : Session κ σ ω) (n : NodeId) (outcome : Except NodeError RunStatus) : Session κ σ ω :=
  (s.modifyContext (·.recordActivation)).observe (·.afterActivation n (Outcome.of outcome))

theorem fire_eq (s : Session κ σ ω) (n : NodeId) (persist : Bool) :
    s.fire n persist =
      match s.attempt n persist with
      | (.ok status, s) => (.ok status, s.note n (.ok status))
      | (.error e, s) =>
        (.error ((s.note n (.error e)).failNode n e).1, ((s.note n (.error e)).failNode n e).2) := by
  unfold fire attempt resume perform
  cases persist with
  | false =>
    simp only [Bool.false_eq_true, if_false]
    cases houtcome : ((s.observe (·.beforeActivation n)).execute n).1 <;> rfl
  | true =>
    simp only [if_true]
    cases hrestored : (s.observe (·.beforeActivation n)).restoreParked n with
    | mk restored t =>
      cases restored with
      | error e => rfl
      | ok _ =>
        dsimp only
        cases houtcome : (t.execute n).1 <;> rfl

theorem attempt_of_resume {s : Session κ σ ω} {n : NodeId} {persist : Bool}
    (h : (s.resume n persist).1 = .ok ()) :
    s.attempt n persist = (s.resume n persist).2.perform n persist := by
  rw [attempt]
  rcases hresumed : s.resume n persist with ⟨restored, t⟩
  rw [hresumed] at h
  cases h
  rfl

/-- Without parked states, an attempt is an execution. -/
theorem attempt_false (s : Session κ σ ω) (n : NodeId) :
    s.attempt n false = (s.observe (·.beforeActivation n)).execute n := by
  rw [attempt_of_resume (rfl : (s.resume n false).1 = .ok ())]
  rfl

theorem fire_of_ok {s : Session κ σ ω} {n : NodeId} {persist : Bool} {status : RunStatus}
    (h : (s.attempt n persist).1 = .ok status) :
    s.fire n persist = (.ok status, (s.attempt n persist).2.note n (.ok status)) := by
  rw [fire_eq]
  rcases hattempt : s.attempt n persist with ⟨outcome, t⟩
  rw [hattempt] at h
  cases h
  rfl

theorem fire_of_error {s : Session κ σ ω} {n : NodeId} {persist : Bool} {e : NodeError}
    (h : (s.attempt n persist).1 = .error e) :
    ∃ failure t, s.fire n persist = (.error failure, t) := by
  rw [fire_eq]
  rcases hattempt : s.attempt n persist with ⟨outcome, t⟩
  rw [hattempt] at h
  cases h
  exact ⟨_, _, rfl⟩

/-! ## Steps of a firing -/

section Steps

variable {s : Session κ σ ω} {n : NodeId} {P : Session κ σ ω → Prop}

theorem restoreParked_induction (hsame : P s)
    (hcall : ∀ blob, P ((s.modifyContext (·.unpark n)).callNode n (.ok ()) (·.restore blob)).2)
    (hpark : ∀ t blob, P t → P (t.modifyContext (·.park n blob))) : P (s.restoreParked n).2 := by
  unfold restoreParked
  split
  · exact hsame
  · rename_i blob _
    have hblob := hcall blob
    split
    · rename_i heq
      rw [heq] at hblob
      exact hblob
    · rename_i heq
      rw [heq] at hblob
      exact hpark _ blob hblob

theorem savePark_induction (hcall : P (s.callNode n none (·.save)).2)
    (hpark : ∀ t blob, P t → P (t.modifyContext (·.park n blob))) : P (s.savePark n) := by
  unfold savePark
  split
  · rename_i heq
    rw [heq] at hcall
    exact hcall
  · rename_i blob t heq
    rw [heq] at hcall
    exact hpark t blob hcall

theorem attempt_induction {persist : Bool} (hresume : P (s.resume n persist).2)
    (hperform : ∀ t, P t → P (t.perform n persist).2) : P (s.attempt n persist).2 := by
  unfold attempt
  split
  · rename_i heq
    rw [heq] at hresume
    exact hresume
  · rename_i t heq
    rw [heq] at hresume
    exact hperform t hresume

end Steps

/-! ## What a firing touches -/

/-- Beside what is in the queues and the surroundings, nothing has changed but the memory of node `n` and
its parked state. -/
structure Local (n : NodeId) (s t : Session κ σ ω) : Prop where
  frame : t.frame = s.frame
  origins : t.origins = s.origins
  poisoned : t.engine.poisoned = s.engine.poisoned
  nodes (m : NodeId) (h : m ≠ n) : t.engine.nodes[m]? = s.engine.nodes[m]?
  context : t.context = { s.context with parked := t.context.parked }
  parked (m : NodeId) (h : m ≠ n) : t.context.parked.get? m = s.context.parked.get? m

variable {s t u : Session κ σ ω} {n : NodeId}

theorem Local.refl (n : NodeId) (s : Session κ σ ω) : s.Local n s :=
  ⟨rfl, rfl, rfl, fun _ _ ↦ rfl, rfl, fun _ _ ↦ rfl⟩

theorem Local.trans (h : s.Local n t) (h' : t.Local n u) : s.Local n u where
  frame := h'.frame.trans h.frame
  origins := h'.origins.trans h.origins
  poisoned := h'.poisoned.trans h.poisoned
  nodes m hm := (h'.nodes m hm).trans (h.nodes m hm)
  context := by rw [h'.context, h.context]
  parked m hm := (h'.parked m hm).trans (h.parked m hm)

theorem local_putMemory (s : Session κ σ ω) (n : NodeId) (memory : σ) :
    s.Local n (s.putMemory n memory) where
  frame := frame_putMemory s n memory
  origins := rfl
  poisoned := rfl
  nodes _ hm := List.getElem?_modify_ne _ _ (Ne.symm hm)
  context := rfl
  parked _ _ := rfl

theorem local_world (s : Session κ σ ω) (n : NodeId) (world : World ω) :
    s.Local n { s with world := world } := ⟨rfl, rfl, rfl, fun _ _ ↦ rfl, rfl, fun _ _ ↦ rfl⟩

theorem local_callNode (s : Session κ σ ω) (n : NodeId) (absent : α)
    (callback : Behaviour κ σ ω → Callback σ ω α) :
    s.Local n (s.callNode n absent callback).2 := by
  unfold callNode
  split
  · exact .refl n s
  · exact (local_world s n _).trans (local_putMemory _ n _)

theorem local_readiness (s : Session κ σ ω) (n : NodeId) : s.Local n (s.readiness n).2 := by
  unfold readiness
  split
  · exact .refl n s
  · exact local_callNode s n _ _

theorem local_park (s : Session κ σ ω) (n : NodeId) (blob : Blob) :
    s.Local n (s.modifyContext (·.park n blob)) where
  frame := rfl
  origins := rfl
  poisoned := rfl
  nodes _ _ := rfl
  context := rfl
  parked m hm := (Parking.get?_put s.context.parked n m blob).trans (if_neg hm)

theorem local_unpark (s : Session κ σ ω) (n : NodeId) : s.Local n (s.modifyContext (·.unpark n)) where
  frame := rfl
  origins := rfl
  poisoned := rfl
  nodes _ _ := rfl
  context := rfl
  parked m hm := (Parking.get?_remove s.context.parked n m).trans (if_neg hm)

theorem local_restoreParked (s : Session κ σ ω) (n : NodeId) : s.Local n (s.restoreParked n).2 :=
  restoreParked_induction (.refl n s)
    (fun _ ↦ (local_unpark s n).trans (local_callNode (s.modifyContext (·.unpark n)) n _ _))
    fun t blob h ↦ h.trans (local_park t n blob)

theorem local_savePark (s : Session κ σ ω) (n : NodeId) : s.Local n (s.savePark n) :=
  savePark_induction (local_callNode s n _ _) fun t blob h ↦ h.trans (local_park t n blob)

theorem local_execute (s : Session κ σ ω) (n : NodeId) : s.Local n (s.execute n).2 := by
  cases hi : s.engine.nodes[n]? with
  | none =>
    simp only [execute, hi]
    exact .refl n s
  | some i =>
    cases hnode : s.engine.plan.graph.nodes[n]? with
    | none =>
      simp only [execute, hi, hnode]
      exact .refl n s
    | some node =>
      have hframe := s.frame_execute n
      have horigins := s.origins_execute n
      rw [execute_eq hi hnode] at hframe horigins ⊢
      exact ⟨hframe, horigins, rfl, fun m hm ↦ List.getElem?_modify_ne _ _ (Ne.symm hm), rfl, fun _ _ ↦ rfl⟩

theorem local_resume (s : Session κ σ ω) (n : NodeId) (persist : Bool) :
    s.Local n (s.resume n persist).2 := by
  have hobserve : s.Local n (s.observe (·.beforeActivation n)) := local_world s n _
  unfold resume
  split
  · exact hobserve.trans (local_restoreParked _ n)
  · exact hobserve

theorem local_perform (s : Session κ σ ω) (n : NodeId) (persist : Bool) :
    s.Local n (s.perform n persist).2 := by
  unfold perform
  split
  · exact (local_execute s n).trans (local_savePark _ n)
  · exact local_execute s n

theorem local_attempt (s : Session κ σ ω) (n : NodeId) (persist : Bool) :
    s.Local n (s.attempt n persist).2 :=
  attempt_induction (s.local_resume n persist) fun t h ↦ h.trans (t.local_perform n persist)

/-! ## Whole firings -/

/-- A firing ends as what was attempted, except that it is noted and that an error is made a failure. -/
theorem fire_cases (s : Session κ σ ω) (n : NodeId) (persist : Bool) :
    (∃ status, (s.attempt n persist).1 = .ok status ∧
      s.fire n persist = (.ok status, (s.attempt n persist).2.note n (.ok status))) ∨
    ∃ e, (s.attempt n persist).1 = .error e ∧ s.fire n persist =
      (.error (((s.attempt n persist).2.note n (.error e)).failNode n e).1,
        (((s.attempt n persist).2.note n (.error e)).failNode n e).2) := by
  rw [fire_eq]
  rcases s.attempt n persist with ⟨e | status, t⟩
  · exact .inr ⟨e, rfl, rfl⟩
  · exact .inl ⟨status, rfl, rfl⟩

/-- Firings in two sessions stay alike if their steps do. -/
theorem attempt_alike {R : Session κ σ ω → Session κ σ ω → Prop} {persist : Bool}
    (hresume : (t.resume n persist).1 = (s.resume n persist).1 ∧
      R (s.resume n persist).2 (t.resume n persist).2)
    (hperform : (s.resume n persist).1 = .ok () →
      ((t.resume n persist).2.perform n persist).1 = ((s.resume n persist).2.perform n persist).1 ∧
        R ((s.resume n persist).2.perform n persist).2 ((t.resume n persist).2.perform n persist).2) :
    (t.attempt n persist).1 = (s.attempt n persist).1 ∧
      R (s.attempt n persist).2 (t.attempt n persist).2 := by
  unfold attempt
  rcases hs : s.resume n persist with ⟨answer, u⟩
  rcases ht : t.resume n persist with ⟨answer', v⟩
  rw [hs, ht] at hresume hperform
  obtain ⟨hsame, hend⟩ := hresume
  dsimp only at hsame hend
  subst hsame
  cases answer' with
  | error e => exact ⟨rfl, hend⟩
  | ok _ => exact hperform rfl

theorem fire_alike {R : Session κ σ ω → Session κ σ ω → Prop} {persist : Bool}
    (hattempt : (t.attempt n persist).1 = (s.attempt n persist).1)
    (hnote : ∀ outcome, R ((s.attempt n persist).2.note n outcome)
      ((t.attempt n persist).2.note n outcome))
    (hfail : ∀ {u v}, R u v → ∀ e, (v.failNode n e).1 = (u.failNode n e).1 ∧
      R (u.failNode n e).2 (v.failNode n e).2) :
    (t.fire n persist).1 = (s.fire n persist).1 ∧ R (s.fire n persist).2 (t.fire n persist).2 := by
  rw [fire_eq, fire_eq]
  rcases hs : s.attempt n persist with ⟨outcome, u⟩
  rcases ht : t.attempt n persist with ⟨outcome', v⟩
  rw [hs, ht] at hattempt hnote
  dsimp only at hattempt hnote
  subst hattempt
  cases outcome' with
  | ok status => exact ⟨rfl, hnote _⟩
  | error e =>
    obtain ⟨hfailure, hend⟩ := hfail (hnote (.error e)) e
    exact ⟨congrArg Except.error hfailure, hend⟩

theorem frame_fire (s : Session κ σ ω) (n : NodeId) (persist : Bool) :
    (s.fire n persist).2.frame = s.frame := by
  have hframe : (s.attempt n persist).2.frame = s.frame := (s.local_attempt n persist).frame
  rcases s.fire_cases n persist with ⟨status, -, hfire⟩ | ⟨e, -, hfire⟩
  · rw [hfire]
    exact hframe
  · rw [hfire]
    exact hframe

/-! ## Engines that go on -/

theorem refusal_of_sane {s : Session κ σ ω} (h : s.engine.poisoned = none) :
    s.engine.refusal = none := by
  rw [Engine.refusal, h]
  rfl

theorem enter_of_sane {s : Session κ σ ω} (h : s.engine.poisoned = none) :
    s.enter =
      if s.stopRequested then (some .stopped, s) else (none, s.modifyContext (·.clearError)) := by
  simp only [enter, refusal_of_sane h]

end Session

end Dataflow
