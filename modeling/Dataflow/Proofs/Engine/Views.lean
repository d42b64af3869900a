import Dataflow.Proofs.Engine.Events
import Dataflow.Proofs.Engine.Likeness

/-!
# Views of the surroundings

Observers may keep whatever they like beside what the nodes see of the surroundings. If the nodes see only a
part of them, which is the view, and the observers do not change it, then sessions that agree on the view take
the same steps.
-/

namespace Dataflow

variable {κ : Type} [ElementKind κ] {σ ω ν α : Type}

/-- The same stop flags and the same view of the host's data. -/
def World.Same (view : ω → ν) (w w' : World ω) : Prop := w'.stops = w.stops ∧ view w'.host = view w.host

/-- The callback depends on the view and changes it in the same way wherever it is the same. -/
def Callback.Sees (view : ω → ν) (c : Callback σ ω α) : Prop :=
  ∀ (memory : σ) (w w' : World ω), w.Same view w' →
    (c (memory, w')).1 = (c (memory, w)).1 ∧ (c (memory, w')).2.1 = (c (memory, w)).2.1 ∧
      (c (memory, w)).2.2.Same view (c (memory, w')).2.2

/-- The firings of the node and its callbacks in between see only the view. -/
structure Behaviour.Sees (view : ω → ν) (b : Behaviour κ σ ω) : Prop where
  run (memory : σ) (w w' : World ω) (h : w.Same view w') (node : Node) (n : NodeId)
    (channels : List (Channel κ)) :
    let ran := (b.run (memory, w)).exec node n channels
    let ran' := (b.run (memory, w')).exec node n channels
    ran'.1.1 = ran.1.1 ∧ ran'.1.2.1 = ran.1.2.1 ∧ ran.1.2.2.Same view ran'.1.2.2 ∧ ran'.2 = ran.2
  prepare (v : PortView) : Callback.Sees view (b.prepare v)
  save : Callback.Sees view b.save
  restore (blob : Blob) : Callback.Sees view (b.restore blob)

/-- The observers leave the view alone. -/
structure Hooks.Observe (view : ω → ν) (h : Hooks ω) : Prop where
  beforePeriod (i : Nat) (w : World ω) : w.Same view (h.beforePeriod i w)
  afterPeriod (i : Nat) (w : World ω) : w.Same view (h.afterPeriod i w)
  beforeActivation (n : NodeId) (w : World ω) : w.Same view (h.beforeActivation n w)
  afterActivation (n : NodeId) (outcome : Outcome) (w : World ω) :
    w.Same view (h.afterActivation n outcome w)

/-- The view does not change with the periods, and with the firings it changes in the same way wherever it
is the same. -/
structure Hooks.Steady (view : ω → ν) (h : Hooks ω) : Prop where
  beforePeriod (i : Nat) (w : World ω) : w.Same view (h.beforePeriod i w)
  afterPeriod (i : Nat) (w : World ω) : w.Same view (h.afterPeriod i w)
  beforeActivation (n : NodeId) {w w' : World ω} (hw : w.Same view w') :
    (h.beforeActivation n w).Same view (h.beforeActivation n w')
  afterActivation (n : NodeId) (outcome : Outcome) {w w' : World ω} (hw : w.Same view w') :
    (h.afterActivation n outcome w).Same view (h.afterActivation n outcome w')

namespace World.Same

variable {view : ω → ν} {w w' w'' : World ω}

theorem refl (w : World ω) : w.Same view w := ⟨rfl, rfl⟩

theorem symm (h : w.Same view w') : w'.Same view w := ⟨h.1.symm, h.2.symm⟩

theorem trans (h : w.Same view w') (h' : w'.Same view w'') : w.Same view w'' :=
  ⟨h'.1.trans h.1, h'.2.trans h.2⟩

end World.Same

theorem World.Same.eq {w w' : World ω} (h : w.Same id w') : w' = w := by
  obtain ⟨stops, host⟩ := w
  obtain ⟨rfl, rfl⟩ := h
  rfl

/-- Nodes may see everything, and then observers change nothing. -/
theorem Behaviour.sees_id (b : Behaviour κ σ ω) : b.Sees id where
  run memory w w' h node n channels := by
    rw [h.eq]
    exact ⟨rfl, rfl, .refl _, rfl⟩
  prepare v memory w w' h := by
    rw [h.eq]
    exact ⟨rfl, rfl, .refl _⟩
  save memory w w' h := by
    rw [h.eq]
    exact ⟨rfl, rfl, .refl _⟩
  restore blob memory w w' h := by
    rw [h.eq]
    exact ⟨rfl, rfl, .refl _⟩

theorem Hooks.observe_none (view : ω → ν) : (Hooks.none : Hooks ω).Observe view :=
  ⟨fun _ _ ↦ .refl _, fun _ _ ↦ .refl _, fun _ _ ↦ .refl _, fun _ _ _ ↦ .refl _⟩

theorem Hooks.Observe.steady {view : ω → ν} {h : Hooks ω} (ho : h.Observe view) : h.Steady view where
  beforePeriod := ho.beforePeriod
  afterPeriod := ho.afterPeriod
  beforeActivation n _ _ hw :=
    ((ho.beforeActivation n _).symm.trans hw).trans (ho.beforeActivation n _)
  afterActivation n outcome _ _ hw :=
    ((ho.afterActivation n outcome _).symm.trans hw).trans (ho.afterActivation n outcome _)

/-! ## Firings beside the view -/

def Event.isActivation : Event → Bool
  | .beforeActivation _ | .afterActivation .. => true
  | _ => false

/-- What observers are told of firings. -/
def activationEvents (events : List Event) : List Event := events.filter Event.isActivation

theorem activationEvents_append (events events' : List Event) :
    activationEvents (events ++ events') = activationEvents events ++ activationEvents events' :=
  List.filter_append events events'

/-- The view together with the firings that the observers have been told of. -/
def viewActivations (view : ω → ν) (host : ω × List Event) : ν × List Event :=
  (view host.1, activationEvents host.2)

section Traced

variable {view : ω → ν} {w w' : World ω} {events events' : List Event}

theorem World.Same.withNotes (h : w.Same view w')
    (hevents : activationEvents events' = activationEvents events) (event : Event) :
    (w.withNotes (events ++ [event])).Same (viewActivations view)
      (w'.withNotes (events' ++ [event])) := by
  refine ⟨h.1, ?_⟩
  simp only [World.withNotes, viewActivations, activationEvents_append, h.2, hevents]

theorem World.Same.withoutNotes {w w' : World (ω × List Event)} (h : w.Same (viewActivations view) w') :
    w.withoutNotes.Same view w'.withoutNotes ∧
      activationEvents w'.host.2 = activationEvents w.host.2 :=
  ⟨⟨h.1, congrArg Prod.fst h.2⟩, congrArg Prod.snd h.2⟩

theorem Callback.Sees.traced {c : Callback σ ω α} (h : Callback.Sees view c) (event : α → Event) :
    Callback.Sees (viewActivations view)
      (Callback.watched (fun event events ↦ events ++ [event]) event c) := by
  intro memory w w' hw
  obtain ⟨hsame, hevents⟩ := hw.withoutNotes
  obtain ⟨hanswer, hmemory, hworld⟩ := h memory w.withoutNotes w'.withoutNotes hsame
  refine ⟨hanswer, hmemory, ?_⟩
  change ((c (memory, w.withoutNotes)).2.2.withNotes _).Same _
    ((c (memory, w'.withoutNotes)).2.2.withNotes
      (w'.host.2 ++ [event (c (memory, w'.withoutNotes)).1]))
  rw [hanswer]
  exact hworld.withNotes hevents _

theorem Behaviour.Sees.traced {b : Behaviour κ σ ω} (h : b.Sees view) (n : NodeId) :
    (b.watched (fun event events ↦ events ++ [event]) n).Sees (viewActivations view) where
  run memory w w' hw node m channels := by
    obtain ⟨hsame, hevents⟩ := hw.withoutNotes
    obtain ⟨hresult, hmemory, hworld, hchannels⟩ :=
      h.run memory w.withoutNotes w'.withoutNotes hsame node m channels
    simp only [Behaviour.watched, Activity.exec_bind_done, hresult]
    exact ⟨trivial, hmemory, hworld.withNotes hevents _, hchannels⟩
  prepare v := (h.prepare v).traced _
  save := h.save.traced _
  restore blob := (h.restore blob).traced _

/-- Observers that do not change the view tell of the firings alike wherever the view is the same. -/
theorem Hooks.Observe.traced {h : Hooks ω} (ho : h.Observe view) :
    (h.watched fun event events ↦ events ++ [event]).Steady (viewActivations view) where
  beforePeriod i w := by
    have hkept := ho.beforePeriod i w.withoutNotes
    refine ⟨hkept.1, ?_⟩
    simp only [Hooks.watched, World.withNotes, viewActivations, activationEvents_append]
    exact Prod.ext hkept.2 (List.append_nil _)
  afterPeriod i w := by
    have hkept := ho.afterPeriod i w.withoutNotes
    refine ⟨hkept.1, ?_⟩
    simp only [Hooks.watched, World.withNotes, viewActivations, activationEvents_append]
    exact Prod.ext hkept.2 (List.append_nil _)
  beforeActivation n w w' hw :=
    (ho.steady.beforeActivation n hw.withoutNotes.1).withNotes hw.withoutNotes.2 _
  afterActivation n outcome w w' hw :=
    (ho.steady.afterActivation n outcome hw.withoutNotes.1).withNotes hw.withoutNotes.2 _

end Traced

/-! ## Steps of sessions that agree on the view -/

/-- What counts of a context for what is done with it: the parked states and the counters of a whole
call. -/
def Context.tally (c : Context) : Parking × Nat × Nat := (c.parked, c.activations, c.totalSkips)

/-- The nodes see only the view and the observers are steady. -/
structure Frame.Sees (view : ω → ν) (f : Frame κ σ ω) : Prop where
  nodes : ∀ b ∈ f.behaviours, b.Sees view
  hooks : f.hooks.Steady view

/-- The same queues, parked states, counters and view. -/
def Likeness.ofView (view : ω → ν) : Likeness κ ω where
  queues := Eq
  contexts c c' := c'.tally = c.tally
  worlds := World.Same view
  gauges_eq h := by rw [h]
  parked h := congrArg Prod.fst h
  park h n blob := congrArg (fun x ↦ (x.1.put n blob, x.2)) h
  unpark h n := congrArg (fun x ↦ (x.1.remove n, x.2)) h
  recordActivation h := congrArg (fun x ↦ (x.1, x.2.1 + 1, x.2.2)) h

theorem Behaviour.Sees.heeds {view : ω → ν} {b : Behaviour κ σ ω} (h : b.Sees view) :
    b.Heeds (.ofView view) where
  run memory w w' hw node n channels channels' hqueues := by
    obtain rfl : channels = channels' := hqueues
    obtain ⟨hresult, hmemory, hworld, hchannels⟩ := h.run memory w w' hw node n channels
    exact ⟨hresult, hmemory, hworld, hchannels.symm⟩
  prepare := h.prepare
  save := h.save
  restore := h.restore

theorem Frame.Sees.heeds {view : ω → ν} {f : Frame κ σ ω} (h : f.Sees view) : f.Heeds (.ofView view) where
  nodes b hb := (h.nodes b hb).heeds
  beforeActivation n _ _ hw := h.hooks.beforeActivation n hw
  afterActivation n outcome _ _ hw := h.hooks.afterActivation n outcome hw

namespace Session

theorem sees_traced {view : ω → ν} {s : Session κ σ ω} (hnodes : ∀ b ∈ s.frame.behaviours, b.Sees view)
    (hhooks : s.frame.hooks.Observe view) (events : List Event) :
    (s.traced events).frame.Sees (viewActivations view) where
  nodes b hb := by
    obtain ⟨n, i, hi, rfl⟩ := Engine.exists_of_mem_behaviours hb
    rw [traced, getElem?_nodes_watched] at hi
    obtain ⟨j, hj, rfl⟩ := Option.map_eq_some_iff.mp hi
    exact (hnodes _ (List.mem_of_getElem? (behaviours_of_getElem? hj))).traced n
  hooks := hhooks.traced

variable {view : ω → ν} {s t : Session κ σ ω} {n : NodeId}

/-- The same engine, parked states, counters and view. -/
structure Matches (view : ω → ν) (s t : Session κ σ ω) : Prop where
  engine : t.engine = s.engine
  tally : t.context.tally = s.context.tally
  world : s.world.Same view t.world

namespace Matches

theorem status (h : Matches view s t) {f g : Context → Context}
    (hfg : ∀ c c', c'.tally = c.tally → (g c').tally = (f c).tally) :
    Matches view (s.modifyContext f) (t.modifyContext g) := ⟨h.engine, hfg _ _ h.tally, h.world⟩

/-- Nothing counts of what the status of a context says. -/
theorem status_right (h : Matches view s t) {f : Context → Context}
    (hf : ∀ c, (f c).tally = c.tally) : Matches view s (t.modifyContext f) :=
  ⟨h.engine, (hf _).trans h.tally, h.world⟩

theorem status_left (h : Matches view s t) {f : Context → Context}
    (hf : ∀ c, (f c).tally = c.tally) : Matches view (s.modifyContext f) t :=
  ⟨h.engine, h.tally.trans (hf _).symm, h.world⟩

/-- To match is to be alike as far as the view goes. -/
theorem alike (h : Matches view s t) : Alike (.ofView view) s t :=
  ⟨by rw [h.engine], congrArg Engine.channels h.engine.symm, h.tally, h.world⟩

theorem of_alike (h : Alike (.ofView view) s t) : Matches view s t := by
  have hqueues : s.engine.channels = t.engine.channels := h.queues
  refine ⟨?_, h.context, h.world⟩
  rw [h.engine, ← hqueues]

theorem parked (h : Matches view s t) : t.context.parked = s.context.parked := congrArg Prod.fst h.tally

theorem beforePeriod (h : Matches view s t) (hf : s.frame.Sees view) (i : Nat) :
    Matches view (s.observe (·.beforePeriod i)) t :=
  ⟨h.engine, h.tally, (hf.hooks.beforePeriod i _).symm.trans h.world⟩

theorem afterPeriod (h : Matches view s t) (hf : s.frame.Sees view) (i : Nat) :
    Matches view (s.observe (·.afterPeriod i)) t :=
  ⟨h.engine, h.tally, (hf.hooks.afterPeriod i _).symm.trans h.world⟩

theorem readiness (h : Matches view s t) (hf : s.frame.Sees view) (n : NodeId) :
    (t.readiness n).1 = (s.readiness n).1 ∧
      Matches view (s.readiness n).2 (t.readiness n).2 :=
  (h.alike.readiness hf.heeds n).imp_right of_alike

theorem failNode (h : Matches view s t) (n : NodeId) (e : NodeError) :
    (t.failNode n e).1 = (s.failNode n e).1 ∧ Matches view (s.failNode n e).2 (t.failNode n e).2 :=
  (h.alike.failNode n e).imp_right of_alike

theorem fire (h : Matches view s t) (hf : s.frame.Sees view) (n : NodeId) (persist : Bool) :
    (t.fire n persist).1 = (s.fire n persist).1 ∧
      Matches view (s.fire n persist).2 (t.fire n persist).2 :=
  (h.alike.fire hf.heeds n persist).imp_right of_alike

end Matches

end Session

end Dataflow
