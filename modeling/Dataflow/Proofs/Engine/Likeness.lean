import Dataflow.Proofs.Engine.Calls
import Dataflow.Proofs.Engine.Parking

/-!
# Sessions that are alike

Two sessions of one engine may differ in what their nodes do not depend on: cells of the queues that hold no
element, counters of the context, parts of the surroundings. Nodes that answer alike where these are alike,
and leave them alike, take the same steps in both.
-/

namespace Dataflow

variable {κ : Type} [ElementKind κ] {σ ω α : Type}

/-- What is seen of the queues: how much can be read from each, and how much can be written. -/
def Channel.gauges (channels : List (Channel κ)) : List (Nat × Nat) :=
  channels.map fun c ↦ (c.available, c.free)

section Gauges

variable {channels channels' : List (Channel κ)}

theorem Channel.levels_congr (h : gauges channels' = gauges channels) :
    channels'.map available = channels.map available := by
  have hgauges := congrArg (List.map Prod.fst) h
  rwa [gauges, gauges, List.map_map, List.map_map] at hgauges

theorem Node.view_congr (h : Channel.gauges channels' = Channel.gauges channels) (node : Node)
    (n : NodeId) : node.view n channels' = node.view n channels := by
  have hgauge (id : EdgeId) : channels'[id]?.map (fun c ↦ (c.available, c.free)) =
      channels[id]?.map fun c ↦ (c.available, c.free) := by
    rw [← List.getElem?_map, ← List.getElem?_map]
    exact congrArg (·[id]?) h
  have havailable (id : EdgeId) :
      channels'[id]?.map Channel.available = channels[id]?.map Channel.available := by
    have hfirst := congrArg (Option.map Prod.fst) (hgauge id)
    rwa [Option.map_map, Option.map_map] at hfirst
  have hfree (id : EdgeId) : channels'[id]?.map Channel.free = channels[id]?.map Channel.free := by
    have hsecond := congrArg (Option.map Prod.snd) (hgauge id)
    rwa [Option.map_map, Option.map_map] at hsecond
  simp only [Node.view, havailable, hfree]

end Gauges

/-- How far the queues, contexts and surroundings of two sessions agree. The levels of the queues and the
parked states always do. -/
structure Likeness (κ : Type) [ElementKind κ] (ω : Type) where
  queues : List (Channel κ) → List (Channel κ) → Prop
  contexts : Context → Context → Prop
  worlds : World ω → World ω → Prop
  gauges_eq {channels channels' : List (Channel κ)} (h : queues channels channels') :
    Channel.gauges channels' = Channel.gauges channels
  parked {c c' : Context} (h : contexts c c') : c'.parked = c.parked
  park {c c' : Context} (h : contexts c c') (n : NodeId) (blob : Blob) :
    contexts (c.park n blob) (c'.park n blob)
  unpark {c c' : Context} (h : contexts c c') (n : NodeId) : contexts (c.unpark n) (c'.unpark n)
  recordActivation {c c' : Context} (h : contexts c c') :
    contexts c.recordActivation c'.recordActivation

/-- The callback answers and remembers alike, and leaves the surroundings alike. -/
def Callback.Keeps (worlds : World ω → World ω → Prop) (c : Callback σ ω α) : Prop :=
  ∀ (memory : σ) (w w' : World ω), worlds w w' →
    (c (memory, w')).1 = (c (memory, w)).1 ∧ (c (memory, w')).2.1 = (c (memory, w)).2.1 ∧
      worlds (c (memory, w)).2.2 (c (memory, w')).2.2

/-- The firings of the node and its callbacks in between depend on no more than is alike. -/
structure Behaviour.Heeds (L : Likeness κ ω) (b : Behaviour κ σ ω) : Prop where
  run (memory : σ) (w w' : World ω) (h : L.worlds w w') (node : Node) (n : NodeId)
    (channels channels' : List (Channel κ)) (hqueues : L.queues channels channels') :
    let ran := (b.run (memory, w)).exec node n channels
    let ran' := (b.run (memory, w')).exec node n channels'
    ran'.1.1 = ran.1.1 ∧ ran'.1.2.1 = ran.1.2.1 ∧ L.worlds ran.1.2.2 ran'.1.2.2 ∧ L.queues ran.2 ran'.2
  prepare (v : PortView) : Callback.Keeps L.worlds (b.prepare v)
  save : Callback.Keeps L.worlds b.save
  restore (blob : Blob) : Callback.Keeps L.worlds (b.restore blob)

/-- So do the observers when they are told of firings. -/
structure Frame.Heeds (L : Likeness κ ω) (f : Frame κ σ ω) : Prop where
  nodes : ∀ b ∈ f.behaviours, b.Heeds L
  beforeActivation (n : NodeId) {w w' : World ω} (h : L.worlds w w') :
    L.worlds (f.hooks.beforeActivation n w) (f.hooks.beforeActivation n w')
  afterActivation (n : NodeId) (outcome : Outcome) {w w' : World ω} (h : L.worlds w w') :
    L.worlds (f.hooks.afterActivation n outcome w) (f.hooks.afterActivation n outcome w')

/-- The observers also see rounds begin and end alike, and a stop request is seen from both. -/
structure Frame.Follows (L : Likeness κ ω) (f : Frame κ σ ω) : Prop extends f.Heeds L where
  beforePeriod (i : Nat) {w w' : World ω} (h : L.worlds w w') :
    L.worlds (f.hooks.beforePeriod i w) (f.hooks.beforePeriod i w')
  afterPeriod (i : Nat) {w w' : World ω} (h : L.worlds w w') :
    L.worlds (f.hooks.afterPeriod i w) (f.hooks.afterPeriod i w')
  stopped {w w' : World ω} (h : L.worlds w w') :
    w'.stops.isRaised f.stop = w.stops.isRaised f.stop

namespace Session

variable {L : Likeness κ ω} {s t : Session κ σ ω} {n : NodeId}

/-- The same engine but for the queues, which are alike as the rest is. -/
structure Alike (L : Likeness κ ω) (s t : Session κ σ ω) : Prop where
  engine : t.engine = { s.engine with channels := t.engine.channels }
  queues : L.queues s.engine.channels t.engine.channels
  context : L.contexts s.context t.context
  world : L.worlds s.world t.world

namespace Alike

theorem plan_eq (h : Alike L s t) : t.engine.plan = s.engine.plan := by rw [h.engine]

theorem nodes_eq (h : Alike L s t) : t.engine.nodes = s.engine.nodes := by rw [h.engine]

theorem hooks_eq (h : Alike L s t) : t.engine.hooks = s.engine.hooks := by rw [h.engine]

theorem poisoned_eq (h : Alike L s t) : t.engine.poisoned = s.engine.poisoned := by rw [h.engine]

theorem cursor_eq (h : Alike L s t) : t.engine.cursor = s.engine.cursor := by rw [h.engine]

theorem status (h : Alike L s t) {f : Context → Context}
    (hf : L.contexts (f s.context) (f t.context)) :
    Alike L (s.modifyContext f) (t.modifyContext f) := ⟨h.engine, h.queues, hf, h.world⟩

theorem observe (h : Alike L s t) {event : Hooks ω → World ω → World ω}
    (hevent : L.worlds (event s.engine.hooks s.world) (event s.engine.hooks t.world)) :
    Alike L (s.observe event) (t.observe event) := by
  refine ⟨h.engine, h.queues, h.context, ?_⟩
  simp only [Session.observe]
  rw [h.hooks_eq]
  exact hevent

theorem callNode (h : Alike L s t) (n : NodeId) (absent : α)
    (callback : Behaviour κ σ ω → Callback σ ω α)
    (hkeeps : ∀ b ∈ s.frame.behaviours, Callback.Keeps L.worlds (callback b)) :
    (t.callNode n absent callback).1 = (s.callNode n absent callback).1 ∧
      Alike L (s.callNode n absent callback).2 (t.callNode n absent callback).2 := by
  cases hi : s.engine.nodes[n]? with
  | none =>
    have hi' : t.engine.nodes[n]? = none := by rw [h.nodes_eq, hi]
    simp only [Session.callNode, hi, hi']
    exact ⟨trivial, h⟩
  | some i =>
    have hi' : t.engine.nodes[n]? = some i := by rw [h.nodes_eq, hi]
    obtain ⟨hanswer, hmemory, hworld⟩ :=
      hkeeps i.behaviour (List.mem_of_getElem? (behaviours_of_getElem? hi)) i.memory s.world t.world
        h.world
    rw [callNode_eq hi, callNode_eq hi', hanswer, hmemory]
    refine ⟨rfl, ?_, h.queues, h.context, hworld⟩
    simp only [putMemory]
    rw [h.engine]

theorem readiness (h : Alike L s t) (hf : s.frame.Heeds L) (n : NodeId) :
    (t.readiness n).1 = (s.readiness n).1 ∧ Alike L (s.readiness n).2 (t.readiness n).2 := by
  unfold Session.readiness
  rw [h.plan_eq]
  cases s.engine.plan.graph.nodes[n]? with
  | none => exact ⟨rfl, h⟩
  | some node =>
    dsimp only
    rw [Node.view_congr (L.gauges_eq h.queues)]
    exact h.callNode n _ _ fun b hb ↦ (hf.nodes b hb).prepare _

theorem restoreParked (h : Alike L s t) (hf : s.frame.Heeds L) (n : NodeId) :
    (t.restoreParked n).1 = (s.restoreParked n).1 ∧
      Alike L (s.restoreParked n).2 (t.restoreParked n).2 := by
  unfold Session.restoreParked
  rw [L.parked h.context]
  split
  · exact ⟨rfl, h⟩
  · rename_i blob _
    have hunpark : Alike L (s.modifyContext (·.unpark n)) (t.modifyContext (·.unpark n)) :=
      h.status (f := (·.unpark n)) (L.unpark h.context n)
    obtain ⟨hanswer, hend⟩ := hunpark.callNode n (.ok () : Except NodeError Unit)
      (·.restore blob) fun b hb ↦ (hf.nodes b hb).restore blob
    rcases hs : (s.modifyContext (·.unpark n)).callNode n (.ok () : Except NodeError Unit)
      (·.restore blob) with ⟨answer, u⟩
    rcases ht : (t.modifyContext (·.unpark n)).callNode n (.ok () : Except NodeError Unit)
      (·.restore blob) with ⟨answer', v⟩
    rw [hs, ht] at hanswer hend
    dsimp only at hanswer hend
    subst hanswer
    cases answer' with
    | ok _ => exact ⟨rfl, hend⟩
    | error e => exact ⟨rfl, hend.status (f := (·.park n blob)) (L.park hend.context n blob)⟩

theorem savePark (h : Alike L s t) (hf : s.frame.Heeds L) (n : NodeId) :
    Alike L (s.savePark n) (t.savePark n) := by
  obtain ⟨hanswer, hend⟩ := h.callNode n (none : Option Blob) (·.save)
    fun b hb ↦ (hf.nodes b hb).save
  unfold Session.savePark
  rcases hs : s.callNode n none (·.save) with ⟨answer, u⟩
  rcases ht : t.callNode n none (·.save) with ⟨answer', v⟩
  rw [hs, ht] at hanswer hend
  dsimp only at hanswer hend
  subst hanswer
  cases answer' with
  | none => exact hend
  | some blob => exact hend.status (f := (·.park n blob)) (L.park hend.context n blob)

theorem execute (h : Alike L s t) (hf : s.frame.Heeds L) (n : NodeId) :
    (t.execute n).1 = (s.execute n).1 ∧ Alike L (s.execute n).2 (t.execute n).2 := by
  cases hi : s.engine.nodes[n]? with
  | none =>
    have hi' : t.engine.nodes[n]? = none := by rw [h.nodes_eq, hi]
    simp only [Session.execute, hi, hi']
    exact ⟨trivial, h⟩
  | some i =>
    have hi' : t.engine.nodes[n]? = some i := by rw [h.nodes_eq, hi]
    cases hnode : s.engine.plan.graph.nodes[n]? with
    | none =>
      have hnode' : t.engine.plan.graph.nodes[n]? = none := by rw [h.plan_eq, hnode]
      simp only [Session.execute, hi, hi', hnode, hnode']
      exact ⟨trivial, h⟩
    | some node =>
      have hnode' : t.engine.plan.graph.nodes[n]? = some node := by rw [h.plan_eq, hnode]
      have hb := List.mem_of_getElem? (behaviours_of_getElem? hi)
      obtain ⟨hresult, hmemory, hworld, hqueues⟩ := (hf.nodes _ hb).run i.memory s.world t.world
        h.world node n s.engine.channels t.engine.channels h.queues
      have hverdict (result : Except NodeError RunStatus) :
          t.verdict n (t.outcomeOf n i node).2 result = s.verdict n (s.outcomeOf n i node).2 result := by
        have hlevels : (t.outcomeOf n i node).2.map Channel.available =
            (s.outcomeOf n i node).2.map Channel.available := Channel.levels_congr (L.gauges_eq hqueues)
        unfold verdict levels
        rw [h.plan_eq, Channel.levels_congr (L.gauges_eq h.queues), hlevels]
      rw [execute_eq hi hnode, execute_eq hi' hnode']
      refine ⟨?_, ?_, hqueues, h.context, hworld⟩
      · change t.verdict n _ (t.outcomeOf n i node).1.1 = s.verdict n _ (s.outcomeOf n i node).1.1
        rw [hverdict]
        exact congrArg _ hresult
      · simp only [settle, putMemory, putChannels]
        change (t.outcomeOf n i node).1.2.1 = (s.outcomeOf n i node).1.2.1 at hmemory
        rw [h.engine, hmemory]

theorem attempt (h : Alike L s t) (hf : s.frame.Heeds L) (n : NodeId) (persist : Bool) :
    (t.attempt n persist).1 = (s.attempt n persist).1 ∧
      Alike L (s.attempt n persist).2 (t.attempt n persist).2 := by
  have hbegin : Alike L (s.observe (·.beforeActivation n)) (t.observe (·.beforeActivation n)) :=
    h.observe (hf.beforeActivation n h.world)
  have hresume : (t.resume n persist).1 = (s.resume n persist).1 ∧
      Alike L (s.resume n persist).2 (t.resume n persist).2 := by
    unfold resume
    cases persist with
    | false => exact ⟨rfl, hbegin⟩
    | true => exact hbegin.restoreParked hf n
  refine attempt_alike hresume fun _ ↦ ?_
  have hf' : (s.resume n persist).2.frame.Heeds L := (s.local_resume n persist).frame.symm ▸ hf
  obtain ⟨hanswer, hran⟩ := hresume.2.execute hf' n
  refine ⟨hanswer, ?_⟩
  unfold perform
  cases persist with
  | false => exact hran
  | true => exact hran.savePark (((s.resume n true).2.frame_execute n).symm ▸ hf') n

theorem failNode (h : Alike L s t) (n : NodeId) (e : NodeError) :
    (t.failNode n e).1 = (s.failNode n e).1 ∧ Alike L (s.failNode n e).2 (t.failNode n e).2 := by
  unfold Session.failNode
  rw [h.plan_eq, h.poisoned_eq]
  refine ⟨rfl, ?_, h.queues, h.context, h.world⟩
  dsimp only
  rw [h.engine]

theorem fire (h : Alike L s t) (hf : s.frame.Heeds L) (n : NodeId) (persist : Bool) :
    (t.fire n persist).1 = (s.fire n persist).1 ∧
      Alike L (s.fire n persist).2 (t.fire n persist).2 := by
  obtain ⟨hsame, hend⟩ := h.attempt hf n persist
  have hf' : (s.attempt n persist).2.frame.Heeds L := (s.local_attempt n persist).frame.symm ▸ hf
  have hnote (outcome : Except NodeError RunStatus) :
      Alike L ((s.attempt n persist).2.note n outcome) ((t.attempt n persist).2.note n outcome) :=
    (hend.status (f := (·.recordActivation)) (L.recordActivation hend.context)).observe
      (hf'.afterActivation n _ hend.world)
  exact fire_alike hsame hnote fun h e ↦ h.failNode n e

end Alike

/-! ## Whole calls -/

/-- Where contexts stay alike whatever the status and the counters, alike sessions take the same steps. -/
theorem paced_alike {f : Frame κ σ ω} (hf : f.Follows L)
    (hcontexts : ∀ {c c' : Context}, L.contexts c c' → ∀ g : Context → Context,
      (∀ c, (g c).parked = c.parked ∧ (g c).limit = c.limit) → L.contexts (g c) (g c')) :
    Paced f.plan.mode (fun _ _ ↦ True)
      (fun s t ↦ (Alike L s t ∧ s.frame = f) ∧ s.engine.poisoned = none)
      (fun s t ↦ Alike L s t ∧ s.frame = f) where
  mode h := congrArg (·.plan.mode) h.1.2
  plan h := h.1.1.plan_eq
  cursor h := h.1.1.cursor_eq
  sane h := ⟨h.2, h.1.1.poisoned_eq.trans h.2⟩
  stopped {s t} h := by
    obtain ⟨⟨halike, rfl⟩, -⟩ := h
    have hstop : t.engine.stop = s.engine.stop := by rw [halike.engine]
    rw [stopRequested, stopRequested, hstop]
    exact hf.stopped halike.world
  status h g hg := ⟨⟨h.1.1.status (hcontexts h.1.1.context g hg), h.1.2⟩, h.2⟩
  status_failed h g hg := ⟨h.1.status (hcontexts h.1.context g hg), h.2⟩
  moved {s t} h cursor := by
    refine ⟨⟨⟨?_, h.1.1.queues, h.1.1.context, h.1.1.world⟩, h.1.2⟩, h.2⟩
    simp only [putCursor]
    rw [h.1.1.engine]
  before := by
    rintro s t ⟨⟨halike, rfl⟩, hsane⟩ i
    exact ⟨⟨halike.observe (hf.beforePeriod i halike.world), rfl⟩, hsane⟩
  after := by
    rintro s t ⟨⟨halike, rfl⟩, hsane⟩ i
    exact ⟨⟨halike.observe (hf.afterPeriod i halike.world), rfl⟩, hsane⟩
  asked := by
    rintro s t ⟨⟨halike, rfl⟩, hsane⟩ n
    obtain ⟨hanswer, hend⟩ := halike.readiness hf.toHeeds n
    have hlocal := s.local_readiness n
    have hnext : (Alike L (s.readiness n).2 (t.readiness n).2 ∧ (s.readiness n).2.frame = s.frame) ∧
        (s.readiness n).2.engine.poisoned = none :=
      ⟨⟨hend, hlocal.frame⟩, hlocal.poisoned.trans hsane⟩
    refine ⟨hanswer, ?_⟩
    split
    · exact hnext
    · exact ⟨hnext, trivial⟩
    · exact ⟨(hend.failNode n _).2, hlocal.frame⟩
  fired := by
    rintro s t ⟨⟨halike, rfl⟩, hsane⟩ n -
    obtain ⟨hanswer, hend⟩ := halike.fire hf.toHeeds n s.persists
    have hframe : (s.fire n s.persists).2.frame = s.frame := s.frame_fire n s.persists
    refine ⟨hanswer, ?_⟩
    exact (sane_or_failed_of_fire hsane n s.persists).imp (⟨⟨hend, hframe⟩, ·⟩) (⟨·, hend, hframe⟩)

end Session

/-- The likeness of sessions whose contexts are the same. -/
def Likeness.strict (L : Likeness κ ω) : Likeness κ ω where
  queues := L.queues
  contexts c c' := c' = c
  worlds := L.worlds
  gauges_eq := L.gauges_eq
  parked := congrArg _
  park h n blob := congrArg (·.park n blob) h
  unpark h n := congrArg (·.unpark n) h
  recordActivation := congrArg _

theorem Frame.Follows.strict {L : Likeness κ ω} {f : Frame κ σ ω} (h : f.Follows L) :
    f.Follows L.strict where
  nodes b hb := ⟨(h.nodes b hb).run, (h.nodes b hb).prepare, (h.nodes b hb).save,
    (h.nodes b hb).restore⟩
  beforeActivation := h.beforeActivation
  afterActivation := h.afterActivation
  beforePeriod := h.beforePeriod
  afterPeriod := h.afterPeriod
  stopped := h.stopped

theorem Session.coupled_alike {L : Likeness κ ω} {f : Frame κ σ ω} (hf : f.Follows L) :
    Coupled f.plan.mode (fun _ _ ↦ True)
      (fun s t ↦ (Alike L.strict s t ∧ s.frame = f) ∧ s.engine.poisoned = none)
      (fun s t ↦ Alike L.strict s t ∧ s.frame = f) where
  toPaced := paced_alike hf.strict fun h g _ ↦ congrArg g h
  context h := h.1.1.context
  bounded {s t} h limit := by
    have hcontext : t.context.withLimit limit = s.context.withLimit limit :=
      congrArg (·.withLimit limit) h.1.1.context
    exact ⟨⟨h.1.1.status hcontext, h.1.2⟩, h.2⟩

end Dataflow
