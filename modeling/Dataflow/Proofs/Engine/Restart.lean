import Dataflow.Proofs.Engine.Overwriting
import Dataflow.Proofs.Engine.Rebuilding

/-!
# Engines that are put back

An engine that is put back to its beginning, whatever has become of it, cannot be told from one that is
built anew: its queues hold their initial tokens again, and what else is still in their cells shows to no
node that writes cells before it reads them.
-/

namespace Dataflow

variable {κ : Type} [ElementKind κ] {σ ω : Type}

open ElementKind (Carrier)

/-! ## Queues at rest -/

theorem Fifo.AtRest.alike {α : Type} {f g : Fifo α} (hf : f.AtRest) (hg : g.AtRest)
    (h : g.toListQueue.fixed = f.toListQueue.fixed) : f.Alike g := by
  have hcapacity : g.capacity = f.capacity := congrArg Prod.fst h
  have hinitial : g.initial = f.initial := congrArg Prod.snd h
  have hcontents : g.contents = f.contents := by rw [hg.contents, hf.contents, hinitial]
  refine ⟨?_, hg.read.trans hf.read.symm⟩
  calc
    g.toListQueue = ⟨g.capacity, g.initial, g.contents⟩ := rfl
    _ = ⟨f.capacity, f.initial, f.contents⟩ := by rw [hcapacity, hinitial, hcontents]

namespace Channel

variable {channels channels' : List (Channel κ)}

@[simp]
theorem origin_reset (c : Channel κ) : c.reset.origin = c.origin := by
  have hfixed : c.queue.reset.toListQueue.fixed = c.queue.toListQueue.fixed := by
    rw [Fifo.toListQueue_reset]
    rfl
  exact congrArg (Sigma.mk c.kind) hfixed

theorem alike_of_origin {c c' : Channel κ} (h : c'.origin = c.origin) (hc : c.queue.AtRest)
    (hc' : c'.queue.AtRest) : Alike c c' := by
  obtain ⟨k, q⟩ := c
  obtain ⟨k', q'⟩ := c'
  obtain ⟨hk, hfixed⟩ := Sigma.mk.inj h
  subst hk
  exact ⟨hc.alike hc' (eq_of_heq hfixed)⟩

/-- Queues that started the same and are at rest have the same elements. -/
theorem AllAlike.of_origins (h : channels'.map origin = channels.map origin)
    (hrest : ∀ c ∈ channels, c.queue.AtRest) (hrest' : ∀ c ∈ channels', c.queue.AtRest) :
    AllAlike channels channels' := by
  intro id
  have hid : channels'[id]?.map origin = channels[id]?.map origin := by
    rw [← List.getElem?_map, ← List.getElem?_map, h]
  cases hc : channels[id]? with
  | none =>
    have hnone : channels'[id]? = none := by
      rw [hc] at hid
      exact Option.map_eq_none_iff.mp hid
    rw [hnone]
    exact .none
  | some c =>
    rw [hc] at hid
    obtain ⟨c', hc', horigin⟩ := Option.map_eq_some_iff.mp hid
    rw [hc']
    exact .some (alike_of_origin horigin (hrest c (List.mem_of_getElem? hc))
      (hrest' c' (List.mem_of_getElem? hc')))

theorem AllAlike.contents_eq (h : AllAlike channels channels') : contents channels' = contents channels := by
  funext id k
  have hid := h id
  unfold contents
  generalize channels[id]? = here, channels'[id]? = there at hid
  cases hid with
  | none => rfl
  | some hc =>
    obtain ⟨hq⟩ := hc
    rename_i k' q q'
    by_cases hk : k' = k
    · subst hk
      simp only [Option.bind_some, queue?_mk, Option.map_some, hq.contents_eq]
    · have hnone := (queue?_eq_none_iff (⟨k', q⟩ : Channel κ) k).mpr hk
      have hnone' := (queue?_eq_none_iff (⟨k', q'⟩ : Channel κ) k).mpr hk
      simp only [Option.bind_some, hnone, hnone']

end Channel

/-! ## Engines of one make -/

namespace Session

/-- The sessions have the same engine but for what changes with its use. -/
structure OfOneMake (s t : Session κ σ ω) : Prop where
  frame : t.frame = s.frame
  origins : t.origins = s.origins

variable {s t u : Session κ σ ω}

namespace OfOneMake

theorem refl (s : Session κ σ ω) : OfOneMake s s := ⟨rfl, rfl⟩

theorem trans (h : OfOneMake s t) (h' : OfOneMake t u) : OfOneMake s u :=
  ⟨h'.frame.trans h.frame, h'.origins.trans h.origins⟩

theorem of_local {n : NodeId} (h : s.Local n t) : OfOneMake s t := ⟨h.frame, h.origins⟩

theorem of_engine (h : t.engine = s.engine) : OfOneMake s t :=
  ⟨congrArg Engine.frame h, congrArg (·.channels.map Channel.origin) h⟩

theorem fire (s : Session κ σ ω) (n : NodeId) (persist : Bool) : OfOneMake s (s.fire n persist).2 := by
  have hattempt := of_local (s.local_attempt n persist)
  rcases s.fire_cases n persist with ⟨status, -, hfire⟩ | ⟨e, -, hfire⟩
  · rw [hfire]
    exact ⟨hattempt.frame, hattempt.origins⟩
  · rw [hfire]
    exact ⟨hattempt.frame, hattempt.origins⟩

end OfOneMake

theorem coupled_ofOneMake (s : Session κ σ ω) :
    Coupled s.engine.plan.mode (fun _ _ ↦ True)
      (fun t t' ↦ t = t' ∧ OfOneMake s t ∧ t.engine.poisoned = none)
      (fun t t' ↦ t = t' ∧ OfOneMake s t) where
  mode h := congrArg (·.plan.mode) h.2.1.frame
  plan h := by rw [h.1]
  cursor h := by rw [h.1]
  context h := by rw [h.1]
  sane h := ⟨h.2.2, h.1 ▸ h.2.2⟩
  stopped h := by rw [h.1]
  status h f _ := ⟨congrArg (·.modifyContext f) h.1, h.2.1.trans (.of_engine rfl), h.2.2⟩
  status_failed h f _ := ⟨congrArg (·.modifyContext f) h.1, h.2.trans (.of_engine rfl)⟩
  bounded h limit :=
    ⟨congrArg (·.modifyContext (·.withLimit limit)) h.1, h.2.1.trans (.of_engine rfl), h.2.2⟩
  moved h cursor := ⟨congrArg (·.putCursor cursor) h.1, h.2.1.trans ⟨rfl, rfl⟩, h.2.2⟩
  before h i :=
    ⟨congrArg (·.observe (·.beforePeriod i)) h.1, h.2.1.trans (.of_engine rfl), h.2.2⟩
  after h i :=
    ⟨congrArg (·.observe (·.afterPeriod i)) h.1, h.2.1.trans (.of_engine rfl), h.2.2⟩
  asked := by
    rintro t _ ⟨rfl, hmake, hsane⟩ n
    have hlocal := t.local_readiness n
    have hasked := hmake.trans (.of_local hlocal)
    have hsane' := hlocal.poisoned.trans hsane
    refine ⟨rfl, ?_⟩
    split
    · exact ⟨rfl, hasked, hsane'⟩
    · exact ⟨⟨rfl, hasked, hsane'⟩, trivial⟩
    · exact ⟨rfl, hasked.trans ⟨rfl, rfl⟩⟩
  fired := by
    rintro t _ ⟨rfl, hmake, hsane⟩ n -
    have hfired := hmake.trans (.fire t n t.persists)
    exact ⟨rfl, (sane_or_failed_of_fire hsane n t.persists).imp (⟨rfl, hfired, ·⟩) (⟨·, rfl, hfired⟩)⟩

namespace OfOneMake

theorem call (s : Session κ σ ω) (c : Call) : OfOneMake s (s.call c).2 := by
  cases hsane : s.engine.poisoned with
  | some failure => exact .of_engine (call_of_poisoned hsane c).1
  | none =>
    have hcall := (coupled_ofOneMake s).call ⟨rfl, .refl s, hsane⟩ (c := c) fun _ _ _ _ ↦ trivial
    exact hcall.ends.elim (·.2.1) And.right

theorem callNodes (s : Session κ σ ω) (callback : Behaviour κ σ ω → Callback σ ω Unit) :
    OfOneMake s (s.callNodes callback) :=
  callNodes_induction (.refl s) fun t n h ↦ h.trans (.of_local (t.local_callNode n () callback))

theorem putBack (s : Session κ σ ω) : OfOneMake s s.reinitialize := by
  have hreset : (s.engine.channels.map Channel.reset).map Channel.origin =
      s.engine.channels.map Channel.origin := by simp
  refine .trans (t := s.putChannels (s.engine.channels.map Channel.reset)) ⟨?_, hreset⟩ ?_
  · simp only [Session.frame, Engine.frame, putChannels, Channel.shape_of_origins hreset]
  · obtain ⟨hframe, horigins⟩ := callNodes
      ((s.modifyContext (·.clearStates.clearError)).putChannels
        (s.engine.channels.map Channel.reset)) (·.reset)
    exact ⟨hframe, horigins⟩

end OfOneMake

end Session

/-- The host changes no queue otherwise than by putting elements in and taking elements out. -/
def HostAction.Tame : HostAction κ ω → Prop
  | .access _ _ f => ∀ q, (f q).toListQueue.fixed = q.toListQueue.fixed
  | _ => True

theorem HostAction.tame_applyAll (id : EdgeId) (k : κ) (ops : List (QueueOp (Carrier k))) :
    (.access id k fun q ↦ (QueueOp.applyAll Fifo.apply ops q).2 : HostAction κ ω).Tame :=
  Fifo.fixed_applyAll ops

/-- Put back, the node has this memory, whatever it remembered before. -/
def Behaviour.ResetsTo (b : Behaviour κ σ ω) (memory : σ) : Prop :=
  ∀ (before : σ) (world : World ω), (b.reset (before, world)).2.1 = memory

namespace Session

theorem OfOneMake.act (s : Session κ σ ω) {action : HostAction κ ω} (h : action.Tame) :
    OfOneMake s (s.act action) := by
  have hcontext (context : Context) : OfOneMake s (s.withContext context) := .of_engine rfl
  cases action with
  | call context c => exact (hcontext context).trans (.call (s.withContext context) c)
  | restart context => exact (hcontext context).trans (.putBack (s.withContext context))
  | surroundings f => exact .of_engine rfl
  | access id k f =>
    unfold Session.act
    dsimp only
    cases hq : s.engine.queue? id k with
    | none => exact .refl s
    | some q =>
      have hc : s.engine.channels[id]? = some ⟨k, q⟩ :=
        Channel.eq_ok_of_typed (by rw [Channel.typed, show s.engine.channels[id]?.bind _ = _ from hq])
      have horigins : (Channel.put s.engine.channels k id (f q)).map Channel.origin =
          s.engine.channels.map Channel.origin :=
        Channel.origins_set hc (congrArg (Sigma.mk k) (h q))
      refine ⟨?_, horigins⟩
      simp only [Session.frame, Engine.frame, Engine.putQueue, Channel.shape_of_origins horigins]

theorem OfOneMake.acts (s : Session κ σ ω) {actions : List (HostAction κ ω)}
    (h : ∀ action ∈ actions, action.Tame) : OfOneMake s (s.acts actions) := by
  induction actions generalizing s with
  | nil => exact .refl s
  | cons action rest ih =>
    have hact := OfOneMake.act s (h action List.mem_cons_self)
    exact hact.trans (ih (s.act action) fun a ha ↦ h a (List.mem_cons_of_mem _ ha))

/-! ## Putting back -/

theorem kept_callNodes (s : Session κ σ ω) (callback : Behaviour κ σ ω → Callback σ ω Unit) :
    (s.callNodes callback).engine.channels = s.engine.channels ∧
      (s.callNodes callback).context = s.context :=
  callNodes_induction
    (P := fun t ↦ t.engine.channels = s.engine.channels ∧ t.context = s.context) ⟨rfl, rfl⟩
    fun t n h ↦ ⟨(channels_callNode t n () callback).trans h.1, (context_callNode t n () callback).trans h.2⟩

theorem getElem?_callNode {α : Type} {s : Session κ σ ω} {n : NodeId} {i : Instance κ σ ω}
    (hi : s.engine.nodes[n]? = some i) (absent : α) (callback : Behaviour κ σ ω → Callback σ ω α) :
    (s.callNode n absent callback).2.engine.nodes[n]? =
      some ⟨i.behaviour, (callback i.behaviour (i.memory, s.world)).2.1⟩ := by
  rw [callNode_eq hi]
  exact getElem?_putMemory
    (s := { s with world := (callback i.behaviour (i.memory, s.world)).2.2 }) hi _

section Resets

variable {s : Session κ σ ω} {nodes : List (Instance κ σ ω)} {callback : Behaviour κ σ ω → Callback σ ω Unit}

theorem getElem?_callNode_of_forall (hbehaviours : s.frame.behaviours = nodes.map (·.behaviour))
    (h : ∀ i ∈ nodes, ∀ memory w, (callback i.behaviour (memory, w)).2.1 = i.memory) (n : NodeId) :
    (s.callNode n () callback).2.engine.nodes[n]? = nodes[n]? := by
  have hbehaviour : s.engine.nodes[n]?.map (·.behaviour) = nodes[n]?.map (·.behaviour) := by
    rw [← List.getElem?_map, ← List.getElem?_map, ← hbehaviours]
    rfl
  cases hi : nodes[n]? with
  | none =>
    rw [hi] at hbehaviour
    have hnone : s.engine.nodes[n]? = none := Option.map_eq_none_iff.mp hbehaviour
    simp only [callNode, hnone]
  | some i =>
    rw [hi] at hbehaviour
    obtain ⟨j, hj, hsame⟩ := Option.map_eq_some_iff.mp hbehaviour
    have hbehaves : j.behaviour = i.behaviour := hsame
    rw [getElem?_callNode hj, hbehaves, h i (List.mem_of_getElem? hi)]

/-- When a callback leaves the same memory behind whatever was there before, all nodes end up with it. -/
theorem nodes_callNodes (hbehaviours : s.frame.behaviours = nodes.map (·.behaviour))
    (h : ∀ i ∈ nodes, ∀ memory w, (callback i.behaviour (memory, w)).2.1 = i.memory) :
    (s.callNodes callback).engine.nodes = nodes := by
  have hlength {t : Session κ σ ω} (ht : t.frame.behaviours = nodes.map (·.behaviour)) :
      t.engine.nodes.length = nodes.length := by
    simpa [frame, Engine.frame] using congrArg List.length ht
  have hfold : (s.callNodes callback).frame.behaviours = nodes.map (·.behaviour) ∧
      ∀ n ∈ List.range s.engine.nodes.length,
        (s.callNodes callback).engine.nodes[n]? = nodes[n]? := by
    refine Fold.foldl_done_induction (P := fun done (t : Session κ σ ω) ↦
      t.frame.behaviours = nodes.map (·.behaviour) ∧ ∀ n ∈ done, t.engine.nodes[n]? = nodes[n]?)
      ⟨hbehaviours, List.forall_mem_nil _⟩ ?_
    rintro done n t - ⟨hkept, hdone⟩
    have hlocal := t.local_callNode n () callback
    refine ⟨(congrArg Frame.behaviours hlocal.frame).trans hkept, fun m hm ↦ ?_⟩
    by_cases hmn : m = n
    · rw [hmn]
      exact getElem?_callNode_of_forall hkept h n
    · rw [hlocal.nodes m hmn]
      exact hdone m ((List.mem_append.mp hm).resolve_right fun hlast ↦ hmn (List.mem_singleton.mp hlast))
  obtain ⟨hkept, hdone⟩ := hfold
  apply List.ext_getElem?
  intro n
  by_cases hn : n < s.engine.nodes.length
  · exact hdone n (List.mem_range.mpr hn)
  · rw [hlength hbehaviours, Nat.not_lt] at hn
    rw [List.getElem?_eq_none ((hlength hkept).trans_le hn), List.getElem?_eq_none hn]

end Resets

theorem reinitialize_channels (s : Session κ σ ω) :
    s.reinitialize.engine.channels = s.engine.channels.map Channel.reset :=
  (kept_callNodes _ _).1

/-- Queues that are put back hold what queues hold that started the same and have not been used. -/
theorem reinitialize_allAlike {s : Session κ σ ω} {channels : List (Channel κ)}
    (horigins : s.origins = channels.map Channel.origin) (hrest : ∀ c ∈ channels, c.queue.AtRest) :
    Channel.AllAlike s.reinitialize.engine.channels channels := by
  apply Channel.AllAlike.of_origins
  · calc
      channels.map Channel.origin = s.origins := horigins.symm
      _ = s.reinitialize.origins := (OfOneMake.putBack s).origins.symm
  · intro c hc
    rw [reinitialize_channels] at hc
    obtain ⟨c, -, rfl⟩ := List.mem_map.mp hc
    exact c.queue.atRest_reset
  · exact hrest

theorem reinitialize_context (s : Session κ σ ω) :
    s.reinitialize.context = s.context.clearStates.clearError :=
  (kept_callNodes _ _).2

theorem reinitialize_nodes {s : Session κ σ ω} {nodes : List (Instance κ σ ω)}
    (hbehaviours : s.frame.behaviours = nodes.map (·.behaviour))
    (hreset : ∀ i ∈ nodes, i.behaviour.ResetsTo i.memory) : s.reinitialize.engine.nodes = nodes :=
  nodes_callNodes (s := (s.modifyContext (·.clearStates.clearError)).putChannels
    (s.engine.channels.map Channel.reset)) hbehaviours hreset

end Session

/-! ## Building anew -/

/-- What the nodes remember. -/
def Engine.memories (e : Engine κ σ ω) : List σ := e.nodes.map (·.memory)

theorem Engine.nodes_eq {e e' : Engine κ σ ω} (hframe : e'.frame = e.frame)
    (hmemories : e'.memories = e.memories) : e'.nodes = e.nodes := by
  have hbehaviours : e'.nodes.map (·.behaviour) = e.nodes.map (·.behaviour) :=
    congrArg Frame.behaviours hframe
  apply List.ext_getElem?
  intro n
  have hbehaviour := congrArg (·[n]?) hbehaviours
  have hmemory := congrArg (·[n]?) hmemories
  simp only [memories, List.getElem?_map] at hbehaviour hmemory
  generalize e'.nodes[n]? = there, e.nodes[n]? = here at hbehaviour hmemory
  cases there with
  | none =>
    cases here with
    | none => rfl
    | some i => cases hbehaviour
  | some i' =>
    cases here with
    | none => cases hbehaviour
    | some i =>
      obtain ⟨behaviour, memory⟩ := i
      cases Option.some.inj hbehaviour
      cases Option.some.inj hmemory
      rfl

/-- Engines with the same fixed parts that remember the same differ at most in what their queues hold. -/
theorem Engine.eq_of_frame {e e' : Engine κ σ ω} (hframe : e'.frame = e.frame)
    (hmemories : e'.memories = e.memories) (hpoisoned : e'.poisoned = e.poisoned)
    (hcursor : e'.cursor = e.cursor) : e' = { e with channels := e'.channels } := by
  calc
    e' = ⟨e'.frame.plan, e'.nodes, e'.channels, e'.frame.hooks, e'.frame.stop, e'.poisoned, e'.cursor⟩ := rfl
    _ = { e with channels := e'.channels } := by
      rw [hframe, nodes_eq hframe hmemories, hpoisoned, hcursor]
      rfl

/-- Engines from the same bindings have the same fixed parts and the same queues. -/
theorem Binding.same_of_build {b : Binding κ σ ω} {e e' : Engine κ σ ω} {w w' v v' : World ω}
    (h : b.build w = (.ok e, w')) (h' : b.build v = (.ok e', v')) :
    e'.frame = e.frame ∧ e'.channels = e.channels := by
  obtain ⟨nodes, hnodes, hchannels, hplan, -, hbehaviours, hhooks, hstop, -⟩ := exists_of_build_eq_ok h
  obtain ⟨nodes', hnodes', hchannels', hplan', -, hbehaviours', hhooks', hstop', -⟩ :=
    exists_of_build_eq_ok h'
  have hsome {α : Type} : Function.Injective (List.map (some : α → Option α)) :=
    List.map_injective_iff.mpr (Option.some_injective α)
  have hqueues : e'.channels = e.channels := hsome (hchannels'.symm.trans hchannels)
  have hsame : nodes' = nodes := hsome (hnodes'.symm.trans hnodes)
  refine ⟨?_, hqueues⟩
  calc
    e'.frame = ⟨e'.plan, e'.nodes.map (·.behaviour), e'.hooks, e'.stop, Channel.shape e'.channels⟩ := rfl
    _ = ⟨e.plan, e.nodes.map (·.behaviour), e.hooks, e.stop, Channel.shape e.channels⟩ := by
      rw [← hplan', hplan, hbehaviours', hsame, ← hbehaviours, ← hhooks', hhooks, ← hstop', hstop, hqueues]

theorem Binding.atRest_of_build {p : Plan} {stop : StopToken} {calls : List (Bind κ σ ω)}
    {e : Engine κ σ ω} {w w' : World ω} (h : (ofCalls p stop calls).build w = (.ok e, w')) :
    ∀ c ∈ e.channels, c.queue.AtRest := by
  intro c hc
  obtain ⟨nodes, -, hchannels, -⟩ := exists_of_build_eq_ok h
  obtain ⟨id, hid⟩ := List.mem_iff_getElem?.mp hc
  have hbound : (ofCalls p stop calls).channels[id]? = some (some c) := by
    rw [hchannels, List.getElem?_map, hid]
    rfl
  exact ((sane_ofCalls p stop calls).queued hbound).2.2.2

/-! ## Calls afterwards -/

/-- The observers make no difference between surroundings that are related, and leave them so. -/
structure Hooks.Keep (worlds : World ω → World ω → Prop) (hooks : Hooks ω) : Prop where
  beforePeriod (i : Nat) {w w' : World ω} (h : worlds w w') :
    worlds (hooks.beforePeriod i w) (hooks.beforePeriod i w')
  afterPeriod (i : Nat) {w w' : World ω} (h : worlds w w') :
    worlds (hooks.afterPeriod i w) (hooks.afterPeriod i w')
  beforeActivation (n : NodeId) {w w' : World ω} (h : worlds w w') :
    worlds (hooks.beforeActivation n w) (hooks.beforeActivation n w')
  afterActivation (n : NodeId) (outcome : Outcome) {w w' : World ω} (h : worlds w w') :
    worlds (hooks.afterActivation n outcome w) (hooks.afterActivation n outcome w')

namespace Session

variable {worlds : World ω → World ω → Prop} {f : Frame κ σ ω} {s t : Session κ σ ω}

/-- Counters and the status of earlier calls show in no answer. -/
theorem Alike.call (hf : f.Follows (.ofWorlds worlds)) (h : Alike (.ofWorlds worlds) s t)
    (hframe : s.frame = f) (c : Call) :
    t.reply c = s.reply c ∧ Alike (.ofWorlds worlds) (s.call c).2 (t.call c).2 ∧
      (s.call c).2.frame = f := by
  cases hsane : s.engine.poisoned with
  | some failure =>
    obtain ⟨answer, g, hparked, hlimit, hrefused⟩ := exists_refused (κ := κ) (σ := σ) (ω := ω) failure c
    obtain ⟨hreply, hend⟩ := hrefused s hsane
    obtain ⟨hreply', hend'⟩ := hrefused t (h.poisoned_eq.trans hsane)
    rw [hreply, hreply', hend, hend']
    refine ⟨rfl, h.status ⟨?_, hlimit _ _ h.context.2⟩, hframe⟩
    rw [hparked, hparked, h.context.1]
  | none =>
    have hpaced := paced_alike hf fun {c c'} hc g hg ↦
      show (g c').parked = (g c).parked ∧ (g c').limit = (g c).limit by
        rw [(hg c').1, (hg c').2, (hg c).1, (hg c).2]
        exact hc
    have hstart : (Alike (.ofWorlds worlds) s t ∧ s.frame = f) ∧ s.engine.poisoned = none :=
      ⟨⟨h, hframe⟩, hsane⟩
    cases c with
    | run =>
      -- A run resets its context first, so both go on with the same one.
      have hreset : t.context.reset = s.context.reset := by
        rw [Context.reset, Context.reset, h.context.1, h.context.2]
      have hrun := (coupled_alike hf).run (s := s.modifyContext (·.reset))
        (t := t.modifyContext (·.reset)) (fun _ _ _ ↦ trivial)
        ⟨⟨⟨h.engine, h.queues, hreset, h.world⟩, hframe⟩, hsane⟩
      have hend : Alike (Likeness.ofWorlds worlds).strict s.run.2 t.run.2 ∧ s.run.2.frame = f :=
        hrun.ends.elim And.left id
      have hsame : t.run.2.context = s.run.2.context := hend.1.context
      refine ⟨?_, ⟨hend.1.engine, hend.1.queues, ?_, hend.1.world⟩, hend.2⟩
      · rw [reply, reply, report_run, report_run, hsame]
      · exact ⟨congrArg Context.parked hsame, congrArg Context.limit hsame⟩
    | activateNext =>
      have hnext := hpaced.activateNext hstart
      exact ⟨congrArg Answer.activation hnext.1, hnext.ends.elim And.left id⟩
    | activate n =>
      have hactivation := hpaced.activate hstart n
      exact ⟨congrArg Answer.activation hactivation.1, hactivation.ends.elim And.left id⟩
    | bound limit => exact ⟨rfl, h.status (f := (·.withLimit limit)) ⟨h.context.1, rfl⟩, hframe⟩

theorem Alike.play (hf : f.Follows (.ofWorlds worlds)) (h : Alike (.ofWorlds worlds) s t)
    (hframe : s.frame = f) (cs : List Call) :
    (t.play (cs.map .call)).1 = (s.play (cs.map .call)).1 ∧
      Alike (.ofWorlds worlds) (s.play (cs.map .call)).2 (t.play (cs.map .call)).2 := by
  induction cs generalizing s t with
  | nil => exact ⟨rfl, h⟩
  | cons c cs ih =>
    obtain ⟨hreply, hnext, hframe'⟩ := h.call hf hframe c
    obtain ⟨hanswers, hend⟩ := ih hnext hframe'
    exact ⟨congrArg₂ List.cons hreply hanswers, hend⟩

end Session

/-- Neither the nodes nor the observers make a difference between related surroundings or between contents
of cells that are to be overwritten. A stop is requested in both surroundings or in none. -/
structure Frame.Indifferent (worlds : World ω → World ω → Prop) (f : Frame κ σ ω) : Prop where
  nodes : ∀ b ∈ f.behaviours, b.Overwrites worlds
  hooks : f.hooks.Keep worlds
  stopped {w w' : World ω} (h : worlds w w') : w'.stops.isRaised f.stop = w.stops.isRaised f.stop

theorem Frame.Indifferent.follows {worlds : World ω → World ω → Prop} {f : Frame κ σ ω}
    (h : f.Indifferent worlds) : f.Follows (.ofWorlds worlds) where
  nodes b hb := (h.nodes b hb).heeds
  beforeActivation n := h.hooks.beforeActivation n
  afterActivation n outcome := h.hooks.afterActivation n outcome
  beforePeriod i := h.hooks.beforePeriod i
  afterPeriod i := h.hooks.afterPeriod i
  stopped := h.stopped

namespace Session

/-- An engine is put back, whatever calls a host has made of it and whatever the host has put into its
queues and taken out. The queues hold the same elements and have the same room as those of an engine that is
built anew from the same bindings. The engine is usable, its search starts at the first node, and the context
holds neither states nor an error. Nodes that are put back to the memory which they have in the new engine,
after they were started there, remember the same as in it. If the nodes do, and are indifferent to what is
left in the cells and to how the surroundings differ, then all calls from here on get the same answers as in
the new engine with a new context of the same bound, and they leave the same in the queues. -/
theorem reinitialize_as_rebuilt {p : Plan} {stop : StopToken} {calls : List (Bind κ σ ω)}
    {e fresh : Engine κ σ ω} {w w' v v' : World ω}
    (hbuild : (Binding.ofCalls p stop calls).build w = (.ok e, w'))
    (hfresh : (Binding.ofCalls p stop calls).build v = (.ok fresh, v')) (start context : Context)
    {actions : List (HostAction κ ω)} (htame : ∀ action ∈ actions, action.Tame) :
    let s := reinitialize (((Session.mk e start w').acts actions).withContext context)
    Channel.contents s.engine.channels = Channel.contents fresh.channels ∧
      Channel.gauges s.engine.channels = Channel.gauges fresh.channels ∧
      s.engine.poisoned = fresh.poisoned ∧ s.engine.cursor = fresh.cursor ∧
      s.context.parked = .empty ∧ s.context.code = .success ∧ s.context.failure = none ∧
      ((∀ i ∈ fresh.nodes, i.behaviour.ResetsTo i.memory) → s.engine.memories = fresh.memories) ∧
      ∀ (worlds : World ω → World ω → Prop) (world : World ω), s.engine.memories = fresh.memories →
        fresh.frame.Indifferent worlds → worlds s.world world → ∀ cs : List Call,
          let again := s.play (cs.map .call)
          let anew := (Session.mk fresh (.new context.limit) world).play (cs.map .call)
          again.1 = anew.1 ∧
            Channel.contents again.2.engine.channels = Channel.contents anew.2.engine.channels ∧
            Channel.gauges again.2.engine.channels = Channel.gauges anew.2.engine.channels := by
  intro s
  obtain ⟨hframe, hqueues⟩ := Binding.same_of_build hbuild hfresh
  obtain ⟨-, -, -, -, hpoisoned, -, -, -, hcursor⟩ := Binding.exists_of_build_eq_ok hfresh
  have hused : OfOneMake (Session.mk e start w')
      (((Session.mk e start w').acts actions).withContext context) :=
    (OfOneMake.acts _ htame).trans (.of_engine rfl)
  have hcontext : s.context = context.clearStates.clearError := reinitialize_context _
  have hall : Channel.AllAlike s.engine.channels fresh.channels := by
    apply reinitialize_allAlike
    · rw [hused.origins, hqueues]
      rfl
    · exact Binding.atRest_of_build hfresh
  refine ⟨hall.contents_eq.symm, hall.gauges_eq.symm, hpoisoned.symm, hcursor.symm, ?_, ?_, ?_, ?_, ?_⟩
  · rw [hcontext]
    rfl
  · rw [hcontext]
    rfl
  · rw [hcontext]
    rfl
  · intro hreset
    have hbehaviours := congrArg Frame.behaviours (hused.frame.trans hframe.symm)
    exact congrArg (List.map Instance.memory) (reinitialize_nodes hbehaviours hreset)
  intro worlds world hmemories hindifferent hworld cs again anew
  have hsame : s.frame = fresh.frame := (hused.trans (.putBack _)).frame.trans hframe.symm
  have halike : Alike (.ofWorlds worlds) s (Session.mk fresh (.new context.limit) world) := by
    refine ⟨?_, hall, ?_, hworld⟩
    · exact Engine.eq_of_frame hsame.symm hmemories.symm hpoisoned hcursor
    · rw [hcontext]
      exact ⟨rfl, rfl⟩
  obtain ⟨hanswers, hend⟩ := halike.play hindifferent.follows hsame cs
  have hleft : Channel.AllAlike again.2.engine.channels anew.2.engine.channels := hend.queues
  exact ⟨hanswers.symm, hleft.contents_eq.symm, hleft.gauges_eq.symm⟩

end Session

namespace Looped

/-- Node `a`, which begins to count anew when its engine is put back. -/
def rewinder : Behaviour Scalar UInt8 Unit := { feeder with reset := fun s ↦ ((), 0, s.2) }

/-- Node `b`, which breaks in its third run. -/
def weary : Behaviour Scalar UInt8 Unit where
  run := fun s ↦
    if s.1 = 2 then .done (.error (.fatal (.node 7)), s)
    else .call (.pop .u8 0 2) fun _ ↦ .done (.ok .success, s.1 + 1, s.2)
  reset := fun s ↦ ((), 0, s.2)

def wearing : List (Bind Scalar UInt8 Unit) :=
  [.fifo 1 .u8, .node 1 ⟨weary, 0⟩, .node 0 ⟨rewinder, 0⟩, .fifo 0 .u8]

/-- Node `b` breaks in the middle of the first period. Elements are taken and added, another stop token is
raised, and a call is refused. -/
def misuse : List (HostAction Scalar Unit) :=
  [.call (.new none) .run,
    .access 0 .u8 fun q ↦ (QueueOp.applyAll Fifo.apply [.pop 1, .push [(9 : UInt8)]] q).2,
    .surroundings fun w ↦ ⟨w.stops.raise 5, ()⟩, .call (.new none) .activateNext]

theorem tame_misuse : ∀ action ∈ misuse, action.Tame := by
  simp only [misuse, List.forall_mem_cons]
  exact ⟨trivial, HostAction.tame_applyAll 0 Scalar.u8 _, trivial, trivial, fun _ h ↦ nomatch h⟩

variable {worlds : World Unit → World Unit → Prop}

theorem overwrites_rewinder : rewinder.Overwrites worlds where
  run memory w w' h := by
    refine .call_same (.pop _ _ _) fun taken ↦ ?_
    refine .call_same (.push _ _ _) fun _ ↦ ?_
    exact .call_same (.push _ _ _) fun _ ↦ .done ⟨rfl, rfl, h⟩
  prepare _ _ _ _ h := ⟨rfl, rfl, h⟩
  save _ _ _ h := ⟨rfl, rfl, h⟩
  restore _ _ _ _ h := ⟨rfl, rfl, h⟩

theorem overwrites_weary : weary.Overwrites worlds where
  run memory w w' h := by
    by_cases hlast : memory = 2
    · simp only [weary, hlast, if_true]
      exact .done ⟨rfl, rfl, h⟩
    · simp only [weary, hlast, if_false]
      exact .call_same (.pop _ _ _) fun _ ↦ .done ⟨rfl, rfl, h⟩
  prepare _ _ _ _ h := ⟨rfl, rfl, h⟩
  save _ _ _ h := ⟨rfl, rfl, h⟩
  restore _ _ _ _ h := ⟨rfl, rfl, h⟩

/-- Their engine is indifferent to all but its own stop token. -/
theorem indifferent_of_wearing {e : Engine Scalar UInt8 Unit}
    (hnodes : e.nodes = [⟨rewinder, 0⟩, ⟨weary, 0⟩]) (hhooks : e.hooks = .none) :
    e.frame.Indifferent fun w w' ↦ w'.stops.isRaised e.stop = w.stops.isRaised e.stop where
  nodes b hb := by
    have hbehaviours : e.frame.behaviours = [rewinder, weary] := by
      simp only [Engine.frame, hnodes, List.map_cons, List.map_nil]
    rw [hbehaviours] at hb
    rcases List.mem_cons.mp hb with rfl | hb
    · exact overwrites_rewinder
    · rw [List.mem_singleton.mp hb]
      exact overwrites_weary
  hooks := by
    have hhooks' : e.frame.hooks = .none := hhooks
    rw [hhooks']
    exact ⟨fun _ _ _ h ↦ h, fun _ _ _ h ↦ h, fun _ _ _ h ↦ h, fun _ _ _ _ h ↦ h⟩
  stopped h := h

end Looped

namespace Session

/-- Put back after its misuse and run again, the engine breaks where a new one does. -/
theorem looped_put_back :
    ∃ e w, (Binding.ofCalls (Looped.plan .static [7, 2]) 0 Looped.wearing).build Looped.world = (.ok e, w) ∧
      ∃ used back : Session Scalar UInt8 Unit,
        used = (Session.mk e (.new none) w).acts Looped.misuse ∧
        used.engine.poisoned = some ⟨.node 7, 1, 1, true⟩ ∧
        Channel.gauges used.engine.channels = [(3, 4), (1, 1)] ∧
        back = reinitialize (used.withContext (.new (some 1))) ∧
        Channel.gauges back.engine.channels = Channel.gauges e.channels ∧
        (back.play [.call .run, .call .activateNext]).1 =
          ((Session.mk e (.new (some 1)) w).play [.call .run, .call .activateNext]).1 := by
  obtain ⟨e, w, hbuild⟩ : ∃ e w,
      (Binding.ofCalls (Looped.plan .static [7, 2]) 0 Looped.wearing).build Looped.world = (.ok e, w) :=
    ⟨_, _, rfl⟩
  obtain ⟨hnodes, hhooks⟩ : e.nodes = [⟨Looped.rewinder, 0⟩, ⟨Looped.weary, 0⟩] ∧ e.hooks = .none := by
    cases hbuild
    exact ⟨rfl, rfl⟩
  obtain ⟨-, hgauges, -, -, -, -, -, hback, hafter⟩ :=
    reinitialize_as_rebuilt hbuild hbuild (.new none) (.new (some 1)) Looped.tame_misuse
  refine ⟨e, w, hbuild, _, _, rfl, ?_, ?_, rfl, hgauges, ?_⟩
  · cases hbuild
    decide +kernel
  · cases hbuild
    decide +kernel
  · have hreset : ∀ i ∈ e.nodes, i.behaviour.ResetsTo i.memory := by
      rw [hnodes, List.forall_mem_cons, List.forall_mem_singleton]
      exact ⟨fun _ _ ↦ rfl, fun _ _ ↦ rfl⟩
    refine (hafter _ w (hback hreset) (Looped.indifferent_of_wearing hnodes hhooks) ?_
      [.run, .activateNext]).1
    cases hbuild
    decide +kernel

end Session

end Dataflow
