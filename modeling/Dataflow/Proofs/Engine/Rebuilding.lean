import Dataflow.Proofs.Engine.Suspension

/-!
# Memories that do not matter

A node that can be brought back from its parked state, whatever has become of its memory, behaves as if its
memory had never been touched.
-/

namespace Dataflow

variable {κ : Type} [ElementKind κ] {σ ω : Type}

/-- Brought back from this state, the node does the same whatever it remembers. -/
def Behaviour.Rebuilds (b : Behaviour κ σ ω) (blob : Blob) : Prop :=
  ∀ (memory memory' : σ) (world : World ω),
    b.restore blob (memory, world) = b.restore blob (memory', world)

/-- The node leaves the question whether it is ready to its ports, and it always gives a state from which
it can be brought back. -/
structure Behaviour.Rebuildable (b : Behaviour κ σ ω) : Prop where
  prepare (v : PortView) : b.prepare v = pure v.readiness
  save (memory : σ) (world : World ω) :
    ∃ blob, (b.save (memory, world)).1 = some blob ∧ b.Rebuilds blob

/-- The nodes differ at most in what they remember when they have given their state. -/
structure Behaviour.Resembles (b b' : Behaviour κ σ ω) : Prop where
  run : b'.run = b.run
  prepare : b'.prepare = b.prepare
  restore : b'.restore = b.restore
  given (memory : σ) (world : World ω) : (b'.save (memory, world)).1 = (b.save (memory, world)).1
  world (memory : σ) (world : World ω) : (b'.save (memory, world)).2.2 = (b.save (memory, world)).2.2

/-- Nodes that can be told apart at most while their state is parked. -/
inductive Twin (parked : Option Blob) : Option (Instance κ σ ω) → Option (Instance κ σ ω) → Prop where
  | none : Twin parked none none
  | some {i j : Instance κ σ ω} (hsame : i.behaviour.Resembles j.behaviour)
    (hkept : i.behaviour.Rebuildable) (hmemory : parked = .none → j.memory = i.memory)
    (hblob : ∀ blob, parked = .some blob → i.behaviour.Rebuilds blob) : Twin parked (.some i) (.some j)

namespace Session

variable {s t : Session κ σ ω} {n : NodeId}

/-- Two sessions with the same engine, except for memories of nodes whose state is parked. -/
structure Shadows (s t : Session κ σ ω) : Prop where
  engine : t.engine = { s.engine with nodes := t.engine.nodes }
  context : t.context = s.context
  world : t.world = s.world
  twin (n : NodeId) : Twin (s.context.parked.get? n) s.engine.nodes[n]? t.engine.nodes[n]?

theorem getElem?_putMemory {i : Instance κ σ ω} (hi : s.engine.nodes[n]? = some i) (memory : σ) :
    (s.putMemory n memory).engine.nodes[n]? = some ⟨i.behaviour, memory⟩ := by
  simp only [putMemory, List.getElem?_modify, hi, if_true]
  rfl

namespace Shadows

/-- What one node does keeps the others. -/
theorem of_local {u v : Session κ σ ω} (h : Shadows s t) (hs : s.Local n u) (ht : t.Local n v)
    (hengine : v.engine = { u.engine with nodes := v.engine.nodes }) (hcontext : v.context = u.context)
    (hworld : v.world = u.world)
    (htwin : Twin (u.context.parked.get? n) u.engine.nodes[n]? v.engine.nodes[n]?) : Shadows u v where
  engine := hengine
  context := hcontext
  world := hworld
  twin m := by
    by_cases hm : m = n
    · exact hm ▸ htwin
    · rw [hs.parked m hm, hs.nodes m hm, ht.nodes m hm]
      exact h.twin m

theorem status (h : Shadows s t) {f : Context → Context} (hf : ∀ c, (f c).parked = c.parked) :
    Shadows (s.modifyContext f) (t.modifyContext f) where
  engine := h.engine
  context := congrArg f h.context
  world := h.world
  twin n := by
    have hparked : (s.modifyContext f).context.parked = s.context.parked := hf _
    rw [hparked]
    exact h.twin n

theorem plan_eq (h : Shadows s t) : t.engine.plan = s.engine.plan := by rw [h.engine]

theorem channels_eq (h : Shadows s t) : t.engine.channels = s.engine.channels := by rw [h.engine]

theorem poisoned_eq (h : Shadows s t) : t.engine.poisoned = s.engine.poisoned := by rw [h.engine]

theorem cursor_eq (h : Shadows s t) : t.engine.cursor = s.engine.cursor := by rw [h.engine]

theorem observe (h : Shadows s t) (event : Hooks ω → World ω → World ω) :
    Shadows (s.observe event) (t.observe event) where
  engine := h.engine
  context := h.context
  world := by
    have hhooks : t.engine.hooks = s.engine.hooks := by rw [h.engine]
    simp only [Session.observe, hhooks, h.world]
  twin := h.twin

theorem failNode (h : Shadows s t) (n : NodeId) (e : NodeError) :
    (t.failNode n e).1 = (s.failNode n e).1 ∧ Shadows (s.failNode n e).2 (t.failNode n e).2 := by
  have hfailure : (t.failNode n e).1 = (s.failNode n e).1 := by
    simp only [Session.failNode, h.plan_eq]
  refine ⟨hfailure, ?_, h.context, h.world, h.twin⟩
  simp only [Session.failNode, h.plan_eq, h.poisoned_eq]
  rw [h.engine]

/-! ### One firing -/

theorem exists_twin (h : Shadows s t) (hknows : s.frame.Knows n) :
    ∃ i j, s.engine.nodes[n]? = some i ∧ t.engine.nodes[n]? = some j ∧
      i.behaviour.Resembles j.behaviour ∧ i.behaviour.Rebuildable ∧
      (s.context.parked.get? n = none → j.memory = i.memory) ∧
      ∀ blob, s.context.parked.get? n = some blob → i.behaviour.Rebuilds blob := by
  obtain ⟨i, -, hi, -⟩ := exists_of_knows hknows
  have htwin := h.twin n
  rw [hi] at htwin
  generalize hj : t.engine.nodes[n]? = there at htwin
  cases htwin with
  | some hsame hkept hmemory hblob => exact ⟨i, _, hi, rfl, hsame, hkept, hmemory, hblob⟩

theorem engine_takeBack (h : Shadows s t) (n : NodeId) (taken : Except NodeError Unit × σ × World ω) :
    (t.takeBack n taken).engine =
      { (s.takeBack n taken).engine with nodes := (t.takeBack n taken).engine.nodes } := by
  simp only [Session.takeBack, putMemory, modifyContext]
  rw [h.engine]

theorem twin_takeBack {i j : Instance κ σ ω} (hi : s.engine.nodes[n]? = some i)
    (hj : t.engine.nodes[n]? = some j) (hsame : i.behaviour.Resembles j.behaviour)
    (hkept : i.behaviour.Rebuildable) (taken : Except NodeError Unit × σ × World ω)
    {parked : Option Blob} (hparked : ∀ blob, parked = some blob → i.behaviour.Rebuilds blob) :
    Twin parked (s.takeBack n taken).engine.nodes[n]? (t.takeBack n taken).engine.nodes[n]? := by
  have hi' : (s.takeBack n taken).engine.nodes[n]? = some ⟨i.behaviour, taken.2.1⟩ :=
    getElem?_putMemory (s := { s.modifyContext (·.unpark n) with world := taken.2.2 }) hi _
  have hj' : (t.takeBack n taken).engine.nodes[n]? = some ⟨j.behaviour, taken.2.1⟩ :=
    getElem?_putMemory (s := { t.modifyContext (·.unpark n) with world := taken.2.2 }) hj _
  rw [hi', hj']
  exact .some hsame hkept (fun _ ↦ rfl) hparked

/-- A node that is brought back remembers the same in both. -/
theorem restoreParked (h : Shadows s t) (hknows : s.frame.Knows n) :
    (t.restoreParked n).1 = (s.restoreParked n).1 ∧
      Shadows (s.restoreParked n).2 (t.restoreParked n).2 ∧
      ((s.restoreParked n).1 = .ok () → (s.restoreParked n).2.context.parked.get? n = none) := by
  have hlocal := s.local_restoreParked n
  have hlocal' := t.local_restoreParked n
  obtain ⟨i, j, hi, hj, hsame, hkept, -, hblob⟩ := h.exists_twin hknows
  cases hparked : s.context.parked.get? n with
  | none =>
    have hparked' : t.context.parked.get? n = none := by rw [h.context, hparked]
    rw [(restoreParked_of_none hparked).2, (restoreParked_of_none hparked').2]
    exact ⟨rfl, h, fun _ ↦ hparked⟩
  | some blob =>
    have hparked' : t.context.parked.get? n = some blob := by rw [h.context, hparked]
    have hgone : (s.context.parked.remove n).get? n = none :=
      (Parking.get?_remove _ n n).trans (if_pos rfl)
    have hback : ((s.context.parked.remove n).put n blob).get? n = some blob :=
      (Parking.get?_put _ n n blob).trans (if_pos rfl)
    have hcontext (taken : Except NodeError Unit × σ × World ω) :
        (t.takeBack n taken).context = (s.takeBack n taken).context :=
      congrArg (·.unpark n) h.context
    have htaken' : j.behaviour.restore blob (j.memory, t.world) =
        i.behaviour.restore blob (i.memory, s.world) := by
      rw [hsame.restore, h.world]
      exact hblob blob hparked j.memory i.memory s.world
    rw [restoreParked_eq hi hparked rfl] at hlocal ⊢
    rw [restoreParked_eq hj hparked' htaken'] at hlocal' ⊢
    generalize i.behaviour.restore blob (i.memory, s.world) = taken at hlocal hlocal' ⊢
    rcases taken with ⟨e | _, memory, world⟩
    · refine ⟨rfl, h.of_local hlocal hlocal' (h.engine_takeBack n _) ?_ rfl
        (twin_takeBack hi hj hsame hkept _ ?_), fun hok ↦ by cases hok⟩
      · exact congrArg (·.park n blob) (hcontext _)
      · intro b hb
        cases Option.some.inj (hback.symm.trans hb)
        exact hblob blob hparked
    · refine ⟨rfl, h.of_local hlocal hlocal' (h.engine_takeBack n _) (hcontext _) rfl
        (twin_takeBack hi hj hsame hkept _ ?_), fun _ ↦ hgone⟩
      intro b hb
      cases hgone.symm.trans hb

/-- A node that remembers the same runs the same way in both. -/
theorem execute (h : Shadows s t) (hknows : s.frame.Knows n)
    (hnone : s.context.parked.get? n = none) :
    (t.execute n).1 = (s.execute n).1 ∧ Shadows (s.execute n).2 (t.execute n).2 := by
  have hlocal := s.local_execute n
  have hlocal' := t.local_execute n
  obtain ⟨i, j, hi, hj, hsame, hkept, hmemory, -⟩ := h.exists_twin hknows
  obtain ⟨-, node, -, hnode⟩ := exists_of_knows hknows
  have hnode' : t.engine.plan.graph.nodes[n]? = some node := by rw [h.plan_eq, hnode]
  have houtcome : t.outcomeOf n j node = s.outcomeOf n i node := by
    rw [outcomeOf, outcomeOf, hsame.run, hmemory hnone, h.world, h.channels_eq]
  have hverdict (channels : List (Channel κ)) (result : Except NodeError RunStatus) :
      t.verdict n channels result = s.verdict n channels result := by
    have hlevels : t.levels = s.levels := by rw [levels, levels, h.channels_eq]
    cases result with
    | error e => rfl
    | ok status => rw [verdict, verdict, hlevels, h.plan_eq]
  rw [execute_eq hi hnode] at hlocal ⊢
  rw [execute_eq hj hnode', houtcome, hverdict] at hlocal' ⊢
  generalize s.outcomeOf n i node = outcome at hlocal hlocal' ⊢
  have hi' : (s.settle n outcome.1.2.1 outcome.1.2.2 outcome.2).engine.nodes[n]? =
      some ⟨i.behaviour, outcome.1.2.1⟩ := getElem?_putMemory (s := putChannels ⟨_, _, _⟩ _) hi _
  have hj' : (t.settle n outcome.1.2.1 outcome.1.2.2 outcome.2).engine.nodes[n]? =
      some ⟨j.behaviour, outcome.1.2.1⟩ := getElem?_putMemory (s := putChannels ⟨_, _, _⟩ _) hj _
  refine ⟨rfl, h.of_local hlocal hlocal' ?_ h.context rfl ?_⟩
  · simp only [settle, putMemory, putChannels]
    rw [h.engine]
  · rw [hi', hj']
    refine .some hsame hkept (fun _ ↦ rfl) ?_
    intro blob hblob
    cases hnone.symm.trans hblob

/-- What is parked is the same in both, and the node can be brought back from it. -/
theorem savePark (h : Shadows s t) (hknows : s.frame.Knows n)
    (hnone : s.context.parked.get? n = none) : Shadows (s.savePark n) (t.savePark n) := by
  have hlocal := s.local_savePark n
  have hlocal' := t.local_savePark n
  obtain ⟨i, j, hi, hj, hsame, hkept, hmemory, -⟩ := h.exists_twin hknows
  obtain ⟨blob, hgiven, hrebuilds⟩ := hkept.save i.memory s.world
  have hgiven' : (j.behaviour.save (j.memory, t.world)).1 = some blob := by
    rw [hmemory hnone, h.world, hsame.given, hgiven]
  have hworld : (j.behaviour.save (j.memory, t.world)).2.2 =
      (i.behaviour.save (i.memory, s.world)).2.2 := by
    rw [hmemory hnone, h.world, hsame.world]
  unfold Session.savePark at hlocal hlocal' ⊢
  rw [callNode_eq hi, hgiven] at hlocal ⊢
  rw [callNode_eq hj, hgiven', hworld] at hlocal' ⊢
  have hback : (s.context.parked.put n blob).get? n = some blob :=
    (Parking.get?_put _ n n blob).trans (if_pos rfl)
  refine h.of_local hlocal hlocal' ?_ ?_ rfl ?_
  · simp only [modifyContext, putMemory]
    rw [h.engine]
  · exact congrArg (·.park n blob) h.context
  · have hi' := getElem?_putMemory
      (s := { s with world := (i.behaviour.save (i.memory, s.world)).2.2 }) hi
      (i.behaviour.save (i.memory, s.world)).2.1
    have hj' := getElem?_putMemory
      (s := { t with world := (i.behaviour.save (i.memory, s.world)).2.2 }) hj
      (j.behaviour.save (j.memory, t.world)).2.1
    have htwin : Twin (some blob) (some ⟨i.behaviour, (i.behaviour.save (i.memory, s.world)).2.1⟩)
        (some ⟨j.behaviour, (j.behaviour.save (j.memory, t.world)).2.1⟩) := by
      refine .some hsame hkept (fun hparked ↦ by cases hparked) ?_
      intro b hb
      cases Option.some.inj hb
      exact hrebuilds
    rwa [← hback, ← hi', ← hj'] at htwin

theorem attempt (h : Shadows s t) (hknows : s.frame.Knows n) :
    (t.attempt n true).1 = (s.attempt n true).1 ∧
      Shadows (s.attempt n true).2 (t.attempt n true).2 := by
  have hresume : (t.resume n true).1 = (s.resume n true).1 ∧
      Shadows (s.resume n true).2 (t.resume n true).2 ∧
      ((s.resume n true).1 = .ok () → (s.resume n true).2.context.parked.get? n = none) :=
    (h.observe (·.beforeActivation n)).restoreParked hknows
  obtain ⟨hsame, hshadows, hgone⟩ := hresume
  refine attempt_alike ⟨hsame, hshadows⟩ fun hok ↦ ?_
  have hknows' : (s.resume n true).2.frame.Knows n := (s.local_resume n true).frame ▸ hknows
  obtain ⟨hanswer, hran⟩ := hshadows.execute hknows' (hgone hok)
  refine ⟨hanswer, hran.savePark ?_ ?_⟩
  · rwa [(s.resume n true).2.frame_execute n]
  · rw [context_execute]
    exact hgone hok

theorem fire (h : Shadows s t) (hknows : s.frame.Knows n) :
    (t.fire n true).1 = (s.fire n true).1 ∧ Shadows (s.fire n true).2 (t.fire n true).2 := by
  obtain ⟨hsame, hend⟩ := h.attempt hknows
  have hnote (outcome : Except NodeError RunStatus) :
      Shadows ((s.attempt n true).2.note n outcome) ((t.attempt n true).2.note n outcome) :=
    (hend.status (f := (·.recordActivation)) fun _ ↦ rfl).observe _
  exact fire_alike hsame hnote fun h e ↦ h.failNode n e

/-- Asking a node does not touch its memory. -/
theorem readiness (h : Shadows s t) (n : NodeId) :
    s.readiness n = (.skip, s) ∧ t.readiness n = (.skip, t) ∨
      (s.readiness n = (.proceed, s) ∧ t.readiness n = (.proceed, t)) ∧ s.frame.Knows n := by
  have hgraph : t.engine.plan.graph.nodes[n]? = s.engine.plan.graph.nodes[n]? := by rw [h.plan_eq]
  cases hnode : s.engine.plan.graph.nodes[n]? with
  | none =>
    rw [hnode] at hgraph
    left
    simp only [Session.readiness, hnode, hgraph, and_self]
  | some node =>
    rw [hnode] at hgraph
    have htwin := h.twin n
    generalize hi : s.engine.nodes[n]? = here, hj : t.engine.nodes[n]? = there at htwin
    cases htwin with
    | none =>
      left
      simp only [Session.readiness, callNode, hnode, hgraph, hi, hj, and_self]
    | @some i j hsame hkept hmemory hblob =>
      have hasked : s.readiness n = ((node.view n s.engine.channels).readiness, s) := by
        simp only [Session.readiness, callNode, hnode, hi, hkept.prepare]
        exact congrArg _ (putMemory_self hi)
      have hasked' : t.readiness n = ((node.view n s.engine.channels).readiness, t) := by
        simp only [Session.readiness, callNode, hgraph, hj, hsame.prepare, hkept.prepare,
          h.channels_eq]
        exact congrArg _ (putMemory_self hj)
      unfold PortView.readiness at hasked hasked'
      split at hasked
      · rename_i hready
        rw [if_pos hready] at hasked'
        refine .inr ⟨⟨hasked, hasked'⟩, knows_of_readiness ?_⟩
        rw [hasked]
      · rename_i hready
        rw [if_neg hready] at hasked'
        exact .inl ⟨hasked, hasked'⟩

end Shadows

theorem coupled_shadows {f : Frame κ σ ω} (hmode : f.plan.mode = .fullyAsynchronous) :
    Coupled f.plan.mode (fun n _ ↦ f.Knows n)
      (fun s t ↦ (Shadows s t ∧ s.frame = f) ∧ s.engine.poisoned = none)
      (fun s t ↦ Shadows s t ∧ s.frame = f) where
  mode h := congrArg (·.plan.mode) h.1.2
  plan h := h.1.1.plan_eq
  cursor h := h.1.1.cursor_eq
  context h := h.1.1.context
  sane h := ⟨h.2, h.1.1.poisoned_eq.trans h.2⟩
  stopped h := by
    have hstop := congrArg Engine.stop h.1.1.engine
    simp only [stopRequested, h.1.1.world]
    exact congrArg _ hstop
  bounded h limit := ⟨⟨h.1.1.status (f := (·.withLimit limit)) fun _ ↦ rfl, h.1.2⟩, h.2⟩
  status h f hf := ⟨⟨h.1.1.status fun c ↦ (hf c).1, h.1.2⟩, h.2⟩
  status_failed h f hf := ⟨h.1.status fun c ↦ (hf c).1, h.2⟩
  moved h cursor := by
    refine ⟨⟨⟨?_, h.1.1.context, h.1.1.world, h.1.1.twin⟩, h.1.2⟩, h.2⟩
    simp only [putCursor]
    rw [h.1.1.engine]
  before h i := ⟨⟨h.1.1.observe _, h.1.2⟩, h.2⟩
  after h i := ⟨⟨h.1.1.observe _, h.1.2⟩, h.2⟩
  asked {s t} h n := by
    rcases h.1.1.readiness n with ⟨hskip, hskip'⟩ | ⟨⟨hproceed, hproceed'⟩, hknows⟩
    · rw [hskip, hskip']
      exact ⟨rfl, h⟩
    · rw [hproceed, hproceed']
      exact ⟨rfl, h, h.1.2 ▸ hknows⟩
  fired {s t} h n hknows := by
    have hpersists : s.persists = true :=
      decide_eq_true ((congrArg (·.plan.mode) h.1.2).trans hmode)
    obtain ⟨hsame, hend⟩ := h.1.1.fire (n := n) (h.1.2 ▸ hknows)
    have hframe : (s.fire n true).2.frame = f := (s.frame_fire n true).trans h.1.2
    rw [hpersists]
    exact ⟨hsame, (sane_or_failed_of_fire h.2 n true).imp (⟨⟨hend, hframe⟩, ·⟩) (⟨·, hend, hframe⟩)⟩

end Session

/-! ## Interferences -/

/-- All that a call answers. -/
inductive Answer where
  | report (r : RunReport)
  | activation (a : Activation)
  | bounded
  deriving DecidableEq, Repr

/-- What a host does next. -/
inductive Turn (σ : Type) where
  | call (c : Call)
  | overwrite (node : NodeId) (memory : σ)

def Turn.isCall : Turn σ → Bool
  | .call _ => true
  | .overwrite .. => false

namespace Session

variable {s t : Session κ σ ω} {n : NodeId}

def reply (s : Session κ σ ω) : Call → Answer
  | .run => .report s.run.1
  | .activateNext => .activation s.activateNext.1
  | .activate n => .activation (s.activate n).1
  | .bound _ => .bounded

/-- Overwrites what node `n` remembers between two of its firings, that is while its state is parked. -/
def overwrite (s : Session κ σ ω) (n : NodeId) (memory : σ) : Session κ σ ω :=
  if (s.context.parked.get? n).isSome then s.putMemory n memory else s

/-- The answers to the calls among these turns. -/
def play : List (Turn σ) → Session κ σ ω → List Answer × Session κ σ ω
  | [], s => ([], s)
  | .call c :: turns, s => (s.reply c :: (play turns (s.call c).2).1, (play turns (s.call c).2).2)
  | .overwrite n memory :: turns, s => play turns (s.overwrite n memory)

theorem report_run (s : Session κ σ ω) : s.run.1 = s.run.2.context.report := rfl

/-- A refused call answers the same whatever the session, and concerns the context only. -/
theorem exists_refused (failure : Failure) (c : Call) : ∃ (answer : Answer) (f : Context → Context),
    (∀ c, (f c).parked = c.parked) ∧ (∀ c c', c'.limit = c.limit → (f c').limit = (f c).limit) ∧
      ∀ s : Session κ σ ω, s.engine.poisoned = some failure →
        s.reply c = answer ∧ (s.call c).2 = s.modifyContext f := by
  obtain ⟨refusal, hrefusal⟩ : ∃ refusal : Failure, refusal = { failure with code := .fatal } := ⟨_, rfl⟩
  cases c with
  | run =>
    refine ⟨.report ⟨.fatal, 0, some refusal⟩, (·.reset.fail refusal), fun _ ↦ rfl, fun _ _ h ↦ h, ?_⟩
    intro s h
    rw [reply, call, run_of_poisoned h, hrefusal]
    exact ⟨rfl, rfl⟩
  | activateNext =>
    refine ⟨.activation (.failed refusal), (·.fail refusal), fun _ ↦ rfl, fun _ _ h ↦ h, ?_⟩
    intro s h
    rw [reply, call, activateNext_of_poisoned h, hrefusal]
    exact ⟨rfl, rfl⟩
  | activate n =>
    refine ⟨.activation (.failed refusal), (·.fail refusal), fun _ ↦ rfl, fun _ _ h ↦ h, ?_⟩
    intro s h
    rw [reply, call, activate_of_poisoned h, hrefusal]
    exact ⟨rfl, rfl⟩
  | bound limit =>
    exact ⟨.bounded, (·.withLimit limit), fun _ ↦ rfl, fun _ _ _ ↦ rfl, fun _ _ ↦ ⟨rfl, rfl⟩⟩

namespace Shadows

theorem overwrite (h : Shadows s t) (n : NodeId) (memory : σ) : Shadows s (t.overwrite n memory) := by
  unfold Session.overwrite
  split
  · rename_i hparked
    rw [h.context] at hparked
    refine ⟨?_, h.context, h.world, fun m ↦ ?_⟩
    · simp only [putMemory]
      rw [h.engine]
    · have htwin := h.twin m
      by_cases hm : m = n
      · subst hm
        generalize hi : s.engine.nodes[m]? = here, hj : t.engine.nodes[m]? = there at htwin
        cases htwin with
        | none =>
          have hj' : (t.putMemory m memory).engine.nodes[m]? = none := by
            simp only [putMemory, List.getElem?_modify, hj]
            rfl
          rw [hj']
          exact .none
        | some hsame hkept hmemory hblob =>
          rw [getElem?_putMemory hj]
          refine .some hsame hkept (fun hnone ↦ ?_) hblob
          rw [hnone] at hparked
          cases hparked
      · rw [(local_putMemory t n memory).nodes m hm]
        exact htwin
  · exact h

theorem call {f : Frame κ σ ω} (hmode : f.plan.mode = .fullyAsynchronous) (h : Shadows s t)
    (hframe : s.frame = f) (c : Call) :
    t.reply c = s.reply c ∧ Shadows (s.call c).2 (t.call c).2 ∧ (s.call c).2.frame = f := by
  cases hsane : s.engine.poisoned with
  | some failure =>
    obtain ⟨answer, g, hg, -, hrefused⟩ := exists_refused (κ := κ) (σ := σ) (ω := ω) failure c
    obtain ⟨hreply, hend⟩ := hrefused s hsane
    obtain ⟨hreply', hend'⟩ := hrefused t (h.poisoned_eq.trans hsane)
    rw [hreply, hreply', hend, hend']
    exact ⟨rfl, h.status hg, hframe⟩
  | none =>
    have hcoupled := coupled_shadows hmode
    have hstart : (Shadows s t ∧ s.frame = f) ∧ s.engine.poisoned = none := ⟨⟨h, hframe⟩, hsane⟩
    have hfree : f.plan.mode = .static → ∀ n (_ : List (Channel κ)), f.Knows n :=
      fun hstatic ↦ absurd (hmode.symm.trans hstatic) (by decide)
    have hcall := hcoupled.call hstart (c := c) fun _ ↦ hfree
    have hend : Shadows (s.call c).2 (t.call c).2 ∧ (s.call c).2.frame = f :=
      hcall.ends.elim And.left id
    refine ⟨?_, hend⟩
    cases c with
    | run =>
      have hreport : t.run.1 = s.run.1 := by
        rw [report_run, report_run]
        exact congrArg Context.report hend.1.context
      exact congrArg Answer.report hreport
    | activateNext => exact congrArg Answer.activation (hcoupled.activateNext hstart).1
    | activate n => exact congrArg Answer.activation (hcoupled.activate hstart n).1
    | bound limit => rfl

theorem play {f : Frame κ σ ω} (hmode : f.plan.mode = .fullyAsynchronous) (h : Shadows s t)
    (hframe : s.frame = f) (turns : List (Turn σ)) :
    (t.play turns).1 = (s.play (turns.filter Turn.isCall)).1 ∧
      Shadows (s.play (turns.filter Turn.isCall)).2 (t.play turns).2 := by
  induction turns generalizing s t with
  | nil => exact ⟨rfl, h⟩
  | cons turn turns ih =>
    cases turn with
    | call c =>
      obtain ⟨hreply, hnext, hframe'⟩ := h.call hmode hframe c
      obtain ⟨hanswers, hend⟩ := ih hnext hframe'
      exact ⟨congrArg₂ List.cons hreply hanswers, hend⟩
    | overwrite n memory => exact ih (h.overwrite n memory) hframe

/-- As long as no state is parked, nodes that resemble each other and remember the same are twins. -/
theorem of_nodes (hempty : s.context.parked = .empty) {nodes : List (Instance κ σ ω)}
    (hnodes : List.Forall₂ (fun i j ↦ i.behaviour.Rebuildable ∧
      i.behaviour.Resembles j.behaviour ∧ j.memory = i.memory) s.engine.nodes nodes) :
    Shadows s ⟨{ s.engine with nodes := nodes }, s.context, s.world⟩ where
  engine := rfl
  context := rfl
  world := rfl
  twin n := by
    rw [hempty]
    change Twin none _ nodes[n]?
    generalize s.engine.nodes = here at hnodes
    induction hnodes generalizing n with
    | nil => exact .none
    | cons hpair _ ih =>
      cases n with
      | zero => exact .some hpair.2.1 hpair.1 (fun _ ↦ hpair.2.2) fun _ hblob ↦ nomatch hblob
      | succ n => exact ih n

end Shadows

/-- Without a fixed order and from a context without states, whatever calls are made: each firing on the
way, in the session in which the engine makes it, gives its node back what the node gave last, and what the
node then gives is parked in its place; a node whose state is not taken back neither runs nor reaches the
queues, and keeps its state. If moreover the nodes are ready by their ports and can be brought back from
what they give, then it makes no difference what they remember between two of their firings: neither what
is left there when a state has been given nor what a host writes between two calls shows in any answer,
queue, context or in the surroundings. -/
theorem states_kept_between_firings {s : Session κ σ ω}
    (hmode : s.engine.plan.mode = .fullyAsynchronous) (hempty : s.context.parked = .empty) :
    (∀ cs : List Call, ∃ events,
      (s.traced []).calls cs = ((s.calls cs).1, (s.calls cs).2.traced events) ∧
        s.Course (s.calls cs).2 events ∧
        ∀ n, (s.calls cs).2.context.parked.get? n = lastSave n events) ∧
    ∀ nodes : List (Instance κ σ ω),
      List.Forall₂ (fun i j ↦ i.behaviour.Rebuildable ∧ i.behaviour.Resembles j.behaviour ∧
        j.memory = i.memory) s.engine.nodes nodes →
      ∀ turns : List (Turn σ),
        let disturbed := (Session.mk { s.engine with nodes := nodes } s.context s.world).play turns
        let alone := s.play (turns.filter Turn.isCall)
        disturbed.1 = alone.1 ∧ disturbed.2.engine.channels = alone.2.engine.channels ∧
          disturbed.2.context = alone.2.context ∧ disturbed.2.world = alone.2.world ∧
          disturbed.2.engine.poisoned = alone.2.engine.poisoned ∧
          disturbed.2.engine.cursor = alone.2.engine.cursor := by
  constructor
  · intro cs
    have hstart : Suspends s.frame s s [] := by
      refine ⟨rfl, .start, fun n ↦ ?_⟩
      rw [hempty]
      rfl
    obtain ⟨events, hcalls, hend⟩ := hstart.calls hmode cs
    exact ⟨events, hcalls, hend.course, hend.last⟩
  · intro nodes hnodes turns disturbed alone
    obtain ⟨hanswers, hend⟩ := (Shadows.of_nodes hempty hnodes).play (f := s.frame) hmode rfl turns
    exact ⟨hanswers, hend.channels_eq, hend.context, hend.world, hend.poisoned_eq, hend.cursor_eq⟩

end Session

namespace Looped

/-- Node `a`, which remembers nothing of use once it has given its state. -/
def forgetful : Behaviour Scalar UInt8 Unit :=
  { feeder with save := fun s ↦ (some [s.1], 200, s.2) }

/-- Node `b`, which does not take its state back. -/
def stubborn : Behaviour Scalar UInt8 Unit :=
  { taker with restore := fun _ s ↦ (.error (.recoverable (.node 1)), s) }

theorem rebuildable_feeder : feeder.Rebuildable where
  prepare _ := rfl
  save memory _ := ⟨[memory], rfl, fun _ _ _ ↦ rfl⟩

theorem rebuildable_taker : taker.Rebuildable where
  prepare _ := rfl
  save memory _ := ⟨[memory], rfl, fun _ _ _ ↦ rfl⟩

theorem resembles_forgetful : feeder.Resembles forgetful :=
  ⟨rfl, rfl, rfl, fun _ _ ↦ rfl, fun _ _ ↦ rfl⟩

end Looped

namespace Session

/-- Two passes. A second node that does not take its state back ends the second, and keeps its state. With
nodes that do, it does not matter that what the first node remembers is lost after each firing, and that the
memory of the second is overwritten before it is fired again. -/
theorem looped_memories_do_not_matter :
    ∃ e w, (Binding.ofCalls (Looped.plan .fullyAsynchronous [7, 3]) 0 Looped.calls).build Looped.world =
        (.ok e, w) ∧
      (∃ events, .restored 0 [1] (.ok ()) ∈ events ∧
        .restored 1 [0] (.error (.recoverable (.node 1))) ∈ events ∧ lastSave 1 events = some [0] ∧
        (Session.mk { e with nodes := [⟨Looped.feeder, 0⟩, ⟨Looped.stubborn, 0⟩] } (.new (some 2)) w).Course
          ((Session.mk { e with nodes := [⟨Looped.feeder, 0⟩, ⟨Looped.stubborn, 0⟩] }
            (.new (some 2)) w).calls [.run]).2 events) ∧
      ((Session.mk { e with nodes := [⟨Looped.forgetful, 0⟩, ⟨Looped.taker, 0⟩] } (.new (some 2)) w).play
          [.call .run, .overwrite 1 99, .call .activateNext, .call (.activate 1)]).2.engine.channels =
        ((Session.mk e (.new (some 2)) w).play
          [.call .run, .call .activateNext, .call (.activate 1)]).2.engine.channels := by
  obtain ⟨e, w, hbuild⟩ : ∃ e w,
      (Binding.ofCalls (Looped.plan .fullyAsynchronous [7, 3]) 0 Looped.calls).build Looped.world =
        (.ok e, w) := ⟨_, _, rfl⟩
  have hmode : e.plan.mode = .fullyAsynchronous := by
    cases hbuild
    rfl
  have hnodes : e.nodes = [⟨Looped.feeder, 0⟩, ⟨Looped.taker, 0⟩] := by
    cases hbuild
    rfl
  refine ⟨e, w, hbuild, ?_, ?_⟩
  · obtain ⟨hcourse, -⟩ := states_kept_between_firings (s := Session.mk
      { e with nodes := [⟨Looped.feeder, 0⟩, ⟨Looped.stubborn, 0⟩] } (.new (some 2)) w) hmode rfl
    obtain ⟨events, hcalls, hend, hlast⟩ := hcourse [.run]
    have htrace : events = ((Session.mk { e with nodes := [⟨Looped.feeder, 0⟩, ⟨Looped.stubborn, 0⟩] }
        (.new (some 2)) w).traced [] |>.calls [.run]).2.world.host.2 := by
      rw [hcalls]
      rfl
    refine ⟨events, ?_, ?_, (hlast 1).symm.trans ?_, hend⟩
    · rw [htrace]
      cases hbuild
      decide +kernel
    · rw [htrace]
      cases hbuild
      decide +kernel
    · cases hbuild
      decide +kernel
  · obtain ⟨-, hdisturbed⟩ := states_kept_between_firings (s := Session.mk e (.new (some 2)) w) hmode rfl
    have htwins : List.Forall₂ (fun i j : Instance Scalar UInt8 Unit ↦ i.behaviour.Rebuildable ∧
        i.behaviour.Resembles j.behaviour ∧ j.memory = i.memory) e.nodes
        [⟨Looped.forgetful, 0⟩, ⟨Looped.taker, 0⟩] := by
      rw [hnodes]
      refine .cons ⟨Looped.rebuildable_feeder, Looped.resembles_forgetful, rfl⟩ (.cons ?_ .nil)
      exact ⟨Looped.rebuildable_taker, ⟨rfl, rfl, rfl, fun _ _ ↦ rfl, fun _ _ ↦ rfl⟩, rfl⟩
    exact (hdisturbed _ htwins
      [.call .run, .overwrite 1 99, .call .activateNext, .call (.activate 1)]).2.1

end Session

end Dataflow
