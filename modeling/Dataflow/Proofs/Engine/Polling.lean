import Dataflow.Proofs.Engine.Skips
import Dataflow.Proofs.Engine.Turns

/-!
# Polling

Where a host fires single nodes, no period begins. Its context counts on from the last reset, each time that a
node was asked and was not ready. The total is exact. The count of a node is a smaller word, which is exact as
long as it can be and then begins anew. A host that polls an idle engine comes to that point, since nothing
keeps it from asking again.
-/

namespace Dataflow

variable {κ : Type} [ElementKind κ] {σ ω : Type}

/-! ## Skips among events -/

/-- The node that was asked and is not ready. -/
def Event.skipped? : Event → Option NodeId
  | .prepared n .skip => some n
  | _ => none

/-- The nodes that were not ready when they were asked, one after another. -/
def skipsIn (events : List Event) : List NodeId := events.filterMap Event.skipped?

theorem skipsIn_append (events new : List Event) : skipsIn (events ++ new) = skipsIn events ++ skipsIn new :=
  List.filterMap_append

theorem Event.skipped?_eq_none_of_isWork {event : Event} (h : event.isWork) : event.skipped? = none := by
  cases event <;> first | rfl | cases h

namespace Session

/-- No node is asked in a firing. -/
theorem skipsIn_fireEvents (s : Session κ σ ω) (n : NodeId) (persist : Bool) :
    skipsIn (s.fireEvents n persist) = [] := by
  obtain ⟨work, hmoments, hwork⟩ := s.exists_attemptMoments_eq n persist
  have hattempt : skipsIn (s.attemptEvents n persist) = [] := by
    rw [← events_attemptMoments, hmoments, List.map_cons]
    refine List.filterMap_eq_nil_iff.mpr (List.forall_mem_cons.mpr ⟨rfl, fun event hevent ↦ ?_⟩)
    obtain ⟨moment, hmoment, rfl⟩ := List.mem_map.mp hevent
    exact Event.skipped?_eq_none_of_isWork (hwork moment hmoment)
  rw [fireEvents, skipsIn_append, hattempt]
  rfl

/-! ## Single calls -/

/-- On the way from `s` to `t`, with these events, the context counts the nodes that are not ready. There are
at most `bound` of them, all of them known. -/
structure Tallies (s t : Session κ σ ω) (events : List Event) (bound : Nat) : Prop where
  counts : s.PassesOver t (skipsIn events)
  few : (skipsIn events).length ≤ bound
  known : ∀ n ∈ skipsIn events, s.frame.Knows n

section Tallies

variable {s t u : Session κ σ ω} {n : NodeId} {events : List Event} {bound : Nat}

theorem PassesOver.fireOnce (h : s.PassesOver t []) (n : NodeId) : s.PassesOver (t.fireOnce n).2 [] := by
  have hfire := h.trans (t.passesOver_fire n t.persists)
  rw [fireOnce_eq]
  rcases ht : t.fire n t.persists with ⟨failure | _ | _, u⟩ <;> rw [ht] at hfire <;>
    exact ⟨hfire.total, hfire.period⟩

theorem Tallies.of_none (h : s.PassesOver t []) (hnone : skipsIn events = []) :
    s.Tallies t events bound := by
  constructor <;> rw [hnone]
  · exact h
  · exact Nat.zero_le bound
  · exact fun n hn ↦ absurd hn List.not_mem_nil

/-- A node is fired when it is ready. -/
theorem Tallies.of_fireOnce (h : s.PassesOver t []) {persist : Bool} :
    s.Tallies (t.fireOnce n).2 (.prepared n .proceed :: t.fireEvents n persist) bound :=
  .of_none (h.fireOnce n) (skipsIn_fireEvents t n persist)

/-- A node is asked in vain, and more is done then. -/
theorem Tallies.after_skip (hknows : s.frame.Knows n) (hready : s.readiness n = (.skip, t))
    (h : (t.modifyContext (·.recordSkip n)).Tallies u events bound) :
    s.Tallies u (.prepared n .skip :: events) (bound + 1) := by
  have hasked : s.PassesOver t [] := .of_context (by rw [← s.context_readiness n, hready])
  have hframe : t.frame = s.frame := by rw [← (s.local_readiness n).frame, hready]
  refine ⟨hasked.trans ((t.passesOver_recordSkip n).trans h.counts), Nat.succ_le_succ h.few, ?_⟩
  exact List.forall_mem_cons.mpr ⟨hknows, fun m hm ↦ hframe ▸ h.known m hm⟩

/-- A search counts the nodes that it passes by. -/
theorem exists_tallies_search {order : List NodeId} (hknows : ∀ n ∈ order, s.frame.Knows n)
    (steps position : Nat) (events : List Event) :
    ∃ new, (search order steps position (s.traced events)).2 =
        (search order steps position s).2.traced (events ++ new) ∧
      s.Tallies (search order steps position s).2 new steps := by
  induction steps generalizing s position events with
  | zero => exact ⟨[], by rw [List.append_nil]; rfl, .of_none ⟨rfl, rfl⟩ rfl⟩
  | succ steps ih =>
    cases hn : order[position % order.length]? with
    | none =>
      simp only [search, hn]
      exact ⟨[], by rw [List.append_nil]; rfl, .of_none ⟨rfl, rfl⟩ rfl⟩
    | some n =>
      have hknown := hknows n (List.mem_of_getElem? hn)
      have hframe := (s.local_readiness n).frame
      have hquestion : s.PassesOver (s.readiness n).2 [] := .of_context (s.context_readiness n)
      have hasked := s.traced_readiness n events
      rw [readinessEvents_of_knows hknown] at hasked
      simp only [search, hn, hasked]
      rcases hready : s.readiness n with ⟨_ | _ | code, t⟩ <;> rw [hready] at hframe hquestion <;>
        dsimp only at hframe ⊢
      · have hfired := (t.putCursor ((position % order.length + 1) % order.length)).traced_fireOnce
          (events ++ [.prepared n .proceed]) n
        rw [List.append_assoc] at hfired
        have hmoved : s.PassesOver (t.putCursor ((position % order.length + 1) % order.length)) [] :=
          ⟨hquestion.total, hquestion.period⟩
        exact ⟨_, congrArg Prod.snd hfired, .of_fireOnce hmoved⟩
      · obtain ⟨new, hsame, hrest⟩ := ih (s := t.modifyContext (·.recordSkip n))
          (fun m hm ↦ hframe ▸ hknows m hm) (position % order.length + 1) (events ++ [.prepared n .skip])
        rw [List.append_assoc] at hsame
        exact ⟨_, hsame, hrest.after_skip hknown hready⟩
      · exact ⟨[.prepared n (.fatal code)], rfl, .of_none ⟨hquestion.total, hquestion.period⟩ rfl⟩

/-- The answer to a call for node `n` after what it says. -/
def answerTo (n : NodeId) : Readiness × Session κ σ ω → Activation × Session κ σ ω
  | (.proceed, s) => s.fireOnce n
  | (.skip, s) => (.notReady n, (s.modifyContext (·.recordSkip n)).modifyContext (·.noteSkip))
  | (.fatal code, s) => (s.failNode n (.fatal code)).2.reject (s.failNode n (.fatal code)).1

theorem activate_of_stopped (hsane : s.engine.poisoned = none) (hstop : s.stopRequested = true)
    (n : NodeId) : s.activate n = (.stopped, s) := by
  simp only [activate, enter_of_sane hsane, hstop, if_true]

theorem activate_of_unknown (hsane : s.engine.poisoned = none) (hstop : s.stopRequested = false)
    (hn : s.engine.plan.graph.nodes.length ≤ n) :
    s.activate n = (s.modifyContext (·.clearError)).reject ⟨.invalidPort, n, 0, false⟩ := by
  have hplan : (s.modifyContext (·.clearError)).engine.plan = s.engine.plan := rfl
  simp only [activate, enter_of_sane hsane, hstop, Bool.false_eq_true, if_false, hplan, hn, if_true]

theorem activate_of_running (hsane : s.engine.poisoned = none) (hstop : s.stopRequested = false)
    (hn : n < s.engine.plan.graph.nodes.length) :
    s.activate n = answerTo n ((s.modifyContext (·.clearError)).readiness n) := by
  have hplan : (s.modifyContext (·.clearError)).engine.plan = s.engine.plan := rfl
  rcases hready : (s.modifyContext (·.clearError)).readiness n with ⟨_ | _ | code, t⟩ <;>
    simp only [activate, enter_of_sane hsane, hstop, Bool.false_eq_true, if_false, hplan,
      Nat.not_le.mpr hn, hready, answerTo]

theorem activateNext_of_running (hsane : s.engine.poisoned = none) (hstop : s.stopRequested = false) :
    s.activateNext = search s.engine.plan.firingOrder s.engine.plan.firingOrder.length s.engine.cursor
      (s.modifyContext (·.clearError)) := by
  rw [activateNext_of_sane hsane, hstop, if_neg Bool.false_ne_true]

theorem exists_tallies_answerTo (hknows : s.frame.Knows n) (events : List Event) :
    ∃ new, (answerTo n ((s.traced events).readiness n)).2 =
        (answerTo n (s.readiness n)).2.traced (events ++ new) ∧
      s.Tallies (answerTo n (s.readiness n)).2 new 1 := by
  have hquestion : s.PassesOver (s.readiness n).2 [] := .of_context (s.context_readiness n)
  have hasked := s.traced_readiness n events
  rw [readinessEvents_of_knows hknows] at hasked
  rw [hasked]
  rcases hready : s.readiness n with ⟨_ | _ | code, t⟩ <;> rw [hready] at hquestion
  · have hfired := t.traced_fireOnce (events ++ [.prepared n .proceed]) n
    rw [List.append_assoc] at hfired
    exact ⟨_, congrArg Prod.snd hfired, .of_fireOnce hquestion⟩
  · exact ⟨[.prepared n .skip], rfl, .after_skip hknows hready (.of_none ⟨rfl, rfl⟩ rfl)⟩
  · exact ⟨[.prepared n (.fatal code)], rfl, .of_none ⟨hquestion.total, hquestion.period⟩ rfl⟩

/-- The events of a call are those that its tracing adds. The status of the context does not count. -/
theorem Tallies.of_call {c : Call} (new : List Event)
    (htraced : ((s.traced []).call c).2 = (s.call c).2.traced new)
    (h : (s.modifyContext (·.clearError)).Tallies (s.call c).2 new bound) :
    s.Tallies (s.call c).2 (s.trace c) bound := by
  have htrace : s.trace c = new := by
    rw [trace, htraced]
    rfl
  rw [htrace]
  exact ⟨⟨h.counts.total, h.counts.period⟩, h.few, h.known⟩

theorem Tallies.of_poisoned {failure : Failure} (h : s.engine.poisoned = some failure) {c : Call}
    (hcounts : s.PassesOver (s.call c).2 []) : s.Tallies (s.call c).2 (s.trace c) bound :=
  .of_none hcounts (by rw [trace_of_poisoned h]; rfl)

theorem tallies_activateNext (hknows : ∀ n ∈ s.engine.plan.firingOrder, s.frame.Knows n) :
    s.Tallies (s.call .activateNext).2 (s.trace .activateNext) s.engine.plan.firingOrder.length := by
  cases hsane : s.engine.poisoned with
  | some failure =>
    refine .of_poisoned hsane ?_
    rw [call, activateNext_of_poisoned hsane]
    exact ⟨rfl, rfl⟩
  | none =>
    cases hstop : s.stopRequested with
    | true =>
      rw [call, activateNext_of_stopped hsane hstop, trace_of_stopped hsane hstop]
      exact .of_none (.of_context rfl) rfl
    | false =>
      obtain ⟨new, hsame, hcounts⟩ := exists_tallies_search (s := s.modifyContext (·.clearError)) hknows
        s.engine.plan.firingOrder.length s.engine.cursor []
      refine .of_call new ?_ ?_ <;>
        simp only [call, activateNext_of_running hsane hstop,
          activateNext_of_running (s := s.traced []) hsane hstop]
      · exact hsame
      · exact hcounts

theorem tallies_activate (n : NodeId) (hknows : n < s.engine.plan.graph.nodes.length → s.frame.Knows n) :
    s.Tallies (s.call (.activate n)).2 (s.trace (.activate n)) 1 := by
  cases hsane : s.engine.poisoned with
  | some failure =>
    refine .of_poisoned hsane ?_
    rw [call, activate_of_poisoned hsane]
    exact ⟨rfl, rfl⟩
  | none =>
    cases hstop : s.stopRequested with
    | true =>
      have htraced := activate_of_stopped (s := s.traced []) hsane hstop n
      refine .of_none ?_ (congrArg (skipsIn ·.2.world.host.2) htraced)
      rw [call, activate_of_stopped hsane hstop]
      exact .of_context rfl
    | false =>
      by_cases hn : s.engine.plan.graph.nodes.length ≤ n
      · refine .of_call [] ?_ ?_ <;>
          simp only [call, activate_of_unknown hsane hstop hn,
            activate_of_unknown (s := s.traced []) hsane hstop hn]
        · rfl
        · exact .of_none ⟨rfl, rfl⟩ rfl
      · have hlt : n < s.engine.plan.graph.nodes.length := Nat.lt_of_not_le hn
        obtain ⟨new, hsame, hcounts⟩ :=
          exists_tallies_answerTo (s := s.modifyContext (·.clearError)) (hknows hlt) []
        refine .of_call new ?_ ?_ <;>
          simp only [call, activate_of_running hsane hstop hlt,
            activate_of_running (s := s.traced []) hsane hstop hlt]
        · exact hsame
        · exact hcounts

end Tallies

/-! ## Engines with all their nodes -/

/-- An engine for this plan that has all its nodes. -/
structure Staffed (p : Plan) (s : Session κ σ ω) : Prop where
  plan : s.engine.plan = p
  behaviours : s.frame.behaviours.length = p.graph.nodes.length

section Staffed

variable {p : Plan} {s t : Session κ σ ω}

theorem Staffed.of_frame (h : Staffed p s) (hframe : t.frame = s.frame) : Staffed p t :=
  ⟨(plan_of_frame hframe).trans h.plan, hframe ▸ h.behaviours⟩

theorem Staffed.act (h : Staffed p s) (action : HostAction κ ω) : Staffed p (s.act action) := by
  cases action with
  | call context c => exact h.of_frame (OfOneMake.call (s.withContext context) c).frame
  | restart context => exact h.of_frame (OfOneMake.putBack (s.withContext context)).frame
  | access id k f =>
    unfold Session.act
    dsimp only
    split <;> exact ⟨h.plan, h.behaviours⟩
  | surroundings f => exact ⟨h.plan, h.behaviours⟩

theorem Staffed.acts (h : Staffed p s) (actions : List (HostAction κ ω)) : Staffed p (s.acts actions) := by
  induction actions generalizing s with
  | nil => exact h
  | cons action rest ih => exact ih (h.act action)

theorem staffed_of_build {stop : StopToken} {calls : List (Bind κ σ ω)} {w w' : World ω}
    {e : Engine κ σ ω} (h : (Binding.ofCalls p stop calls).build w = (.ok e, w')) (context : Context) :
    Staffed p (Session.mk e context w') := by
  have hbuilt := rotates_of_build h context
  exact ⟨hbuilt.plan, hbuilt.behaviours⟩

theorem Staffed.knows (h : Staffed p s) {n : NodeId} (hn : n < p.graph.nodes.length) : s.frame.Knows n :=
  ⟨h.behaviours ▸ hn, congrArg (·.graph.nodes.length) h.plan ▸ hn⟩

end Staffed

end Session

/-! ## Many calls -/

/-- What a host does that counts with one context. -/
inductive Poll (κ : Type) [ElementKind κ] (ω : Type) where
  | next
  | named (n : NodeId)
  /-- Sets the bound of the context. -/
  | limit (bound : Option Nat)
  /-- Drops the parked states of the context. -/
  | clearStates
  /-- Puts the engine back. -/
  | restart
  /-- All that happens without this context. -/
  | aside (action : HostAction κ ω)

/-- The call for a single node. -/
def Poll.call? : Poll κ ω → Option Call
  | .next => some .activateNext
  | .named n => some (.activate n)
  | _ => none

namespace Session

def poll (s : Session κ σ ω) : Poll κ ω → Session κ σ ω
  | .next => (s.call .activateNext).2
  | .named n => (s.call (.activate n)).2
  | .limit bound => s.modifyContext (·.withLimit bound)
  | .clearStates => s.modifyContext (·.clearStates)
  | .restart => s.reinitialize
  | .aside action => (s.act action).withContext s.context

def polls (polls : List (Poll κ ω)) (s : Session κ σ ω) : Session κ σ ω := polls.foldl poll s

/-- The events of the calls for single nodes. -/
def pollEvents (s : Session κ σ ω) (poll : Poll κ ω) : List Event := poll.call?.elim [] s.trace

/-- The nodes that were not ready when these calls asked them. -/
def skipsOf : List (Poll κ ω) → Session κ σ ω → List NodeId
  | [], _ => []
  | poll :: rest, s => skipsIn (s.pollEvents poll) ++ skipsOf rest (s.poll poll)

section Polls

variable {p : Plan} {s : Session κ σ ω}

theorem Staffed.poll (h : Staffed p s) (poll : Poll κ ω) : Staffed p (s.poll poll) := by
  cases poll with
  | next => exact h.of_frame (OfOneMake.call s .activateNext).frame
  | named n => exact h.of_frame (OfOneMake.call s (.activate n)).frame
  | limit bound => exact ⟨h.plan, h.behaviours⟩
  | clearStates => exact ⟨h.plan, h.behaviours⟩
  | restart => exact h.of_frame (OfOneMake.putBack s).frame
  | aside action =>
    have hact := h.act action
    exact ⟨hact.plan, hact.behaviours⟩

/-- The most nodes that one call asks. -/
def reach (p : Plan) : Nat := max 1 p.firingOrder.length

theorem Staffed.tallies_poll (h : Staffed p s) (hp : p.Sound) (poll : Poll κ ω) :
    s.Tallies (s.poll poll) (s.pollEvents poll) (reach p) := by
  cases poll with
  | next =>
    have hcall := tallies_activateNext (s := s) fun n hn ↦
      h.knows (hp.lt_of_mem_firingOrder (h.plan ▸ hn))
    rw [h.plan] at hcall
    exact ⟨hcall.counts, hcall.few.trans (le_max_right ..), hcall.known⟩
  | named n =>
    have hcall := tallies_activate (s := s) n fun hn ↦ h.knows (h.plan ▸ hn)
    exact ⟨hcall.counts, hcall.few.trans (le_max_left ..), hcall.known⟩
  | restart =>
    refine .of_none ?_ rfl
    constructor <;> rw [Session.poll, reinitialize_context] <;> rfl
  | limit bound => exact .of_none ⟨rfl, rfl⟩ rfl
  | clearStates => exact .of_none ⟨rfl, rfl⟩ rfl
  | aside action => exact .of_none (.of_context rfl) rfl

/-- What the context counts over many calls, and how much that can be. -/
theorem Staffed.passesOver_polls (h : Staffed p s) (hp : p.Sound) (polls : List (Poll κ ω)) :
    s.PassesOver (s.polls polls) (skipsOf polls s) ∧
      (skipsOf polls s).length ≤ polls.length * reach p ∧
      ∀ n ∈ skipsOf polls s, n < p.graph.nodes.length := by
  induction polls generalizing s with
  | nil => exact ⟨.of_context rfl, Nat.zero_le _, fun n hn ↦ absurd hn List.not_mem_nil⟩
  | cons poll rest ih =>
    have hpoll := h.tallies_poll hp poll
    obtain ⟨hcounts, hfew, hknown⟩ := ih (h.poll poll)
    refine ⟨hpoll.counts.trans hcounts, ?_, ?_⟩
    · rw [skipsOf, List.length_append, List.length_cons, Nat.succ_mul, Nat.add_comm]
      exact Nat.add_le_add hfew hpoll.few
    · intro n hn
      rcases List.mem_append.mp hn with hfirst | hrest
      · have hplan : s.frame.plan = p := h.plan
        exact hplan ▸ (hpoll.known n hfirst).2
      · exact hknown n hrest

/-- Whatever has happened to an engine that was built, a context counts from its reset on, in the calls for
single nodes, each node that was asked and is not ready. The total is exact, and fits its word if the calls
are not too many for the length of the firing order. The count of a node is cut to its word. If that can hold
the true counts of all nodes, then they are exact and add up to the total. -/
theorem polls_count_skips {g : Graph} (hg : g.Built) {o : CompileOptions} (hcompile : g.compile o = .ok p)
    {stop : StopToken} {calls : List (Bind κ σ ω)} {w w' : World ω} {e : Engine κ σ ω}
    (h : (Binding.ofCalls p stop calls).build w = (.ok e, w')) (context : Context)
    (before : List (HostAction κ ω)) (c : Context) (polls : List (Poll κ ω)) :
    let s := ((Session.mk e context w').acts before).withContext c.reset
    let skipped := skipsOf polls s
    let last := (s.polls polls).context
    (∀ n, (last.periodSkips.get n).toNat = skipped.count n % UInt32.size) ∧
      last.totalSkips = ∑ n ∈ Finset.range p.graph.nodes.length, skipped.count n ∧
      last.totalSkips ≤ polls.length * max 1 p.firingOrder.length ∧
      (polls.length ≤ 2 ^ 40 → p.firingOrder.length < 2 ^ 24 → last.totalSkips < Word.modulus) ∧
      ((∀ n, skipped.count n < UInt32.size) →
        (∀ n, (last.periodSkips.get n).toNat = skipped.count n) ∧
          last.totalSkips = ∑ n ∈ Finset.range p.graph.nodes.length, (last.periodSkips.get n).toNat) := by
  intro s skipped last
  have hp : p.Sound := (Graph.sound_of_compile hg.coherent hcompile).1
  have hs : Staffed p s := by
    have hacts := (staffed_of_build h context).acts before
    exact ⟨hacts.plan, hacts.behaviours⟩
  obtain ⟨hcounts, hfew, hknown⟩ := hs.passesOver_polls hp polls
  have hperiod (n : NodeId) : last.periodSkips.get n = UInt32.ofNat (skipped.count n) := by
    have hget := SkipCounts.get_foldl_bump [] skipped n
    rw [show last.periodSkips = skipped.foldl SkipCounts.bump [] from hcounts.period, hget]
    exact UInt32.zero_add _
  have hlength : last.totalSkips = skipped.length := hcounts.total.trans (Nat.zero_add _)
  have htotal : last.totalSkips = ∑ n ∈ Finset.range p.graph.nodes.length, skipped.count n :=
    hlength.trans (Repetitions.length_eq_sum_range_count hknown)
  have hbound : last.totalSkips ≤ polls.length * max 1 p.firingOrder.length := hlength.trans_le hfew
  have hmod (n : NodeId) : (last.periodSkips.get n).toNat = skipped.count n % UInt32.size := by
    rw [hperiod n]
    exact UInt32.toNat_ofNat
  refine ⟨hmod, htotal, hbound, fun hcalls horder ↦ ?_, fun hfits ↦ ?_⟩
  · have hreach : max 1 p.firingOrder.length < 2 ^ 24 := max_lt (by norm_num) horder
    calc last.totalSkips ≤ polls.length * max 1 p.firingOrder.length := hbound
      _ ≤ 2 ^ 40 * max 1 p.firingOrder.length := Nat.mul_le_mul_right _ hcalls
      _ < 2 ^ 40 * 2 ^ 24 := Nat.mul_lt_mul_of_pos_left hreach (by norm_num)
      _ = Word.modulus := rfl
  · have hexact (n : NodeId) : (last.periodSkips.get n).toNat = skipped.count n := by
      rw [hmod n, Nat.mod_eq_of_lt (hfits n)]
    exact ⟨hexact, htotal.trans (Finset.sum_congr rfl fun n _ ↦ (hexact n).symm)⟩

/-- Node `b` is not ready before node `a` has fired, nor when it has taken what there was. What happens in
between with another context is not counted. -/
theorem looped_polls :
    ∃ e w, (Binding.ofCalls (Looped.plan .fullyAsynchronous [7, 3]) 0 Looped.calls).build Looped.world =
        (.ok e, w) ∧
      ∃ s : Session Scalar UInt8 Unit, s = ((Session.mk e (.new none) w).acts
          [.call (.new none) (.activate 1)]).withContext Looped.worn.reset ∧
        skipsOf [.named 1, .aside (.call (.new none) (.activate 1)), .next, .named 1, .named 1, .next] s =
          [1, 1] ∧
        let last := (s.polls [.named 1, .aside (.call (.new none) (.activate 1)), .next, .named 1, .named 1,
          .next]).context
        (last.periodSkips.get 1).toNat = 2 ∧ last.totalSkips = 2 := by
  have hcompile : Looped.graph.compile ⟨.fullyAsynchronous, 0, some 7, 100⟩ =
      .ok (Looped.plan .fullyAsynchronous [7, 3]) := by decide +kernel
  obtain ⟨e, w, hbuild⟩ : ∃ e w,
      (Binding.ofCalls (Looped.plan .fullyAsynchronous [7, 3]) 0 Looped.calls).build Looped.world =
        (.ok e, w) := ⟨_, _, rfl⟩
  obtain ⟨hmod, htotal, -⟩ := polls_count_skips Looped.built_graph hcompile hbuild (.new none)
    [.call (.new none) (.activate 1)] Looped.worn
    [.named 1, .aside (.call (.new none) (.activate 1)), .next, .named 1, .named 1, .next]
  have hskips : skipsOf [.named 1, .aside (.call (.new none) (.activate 1)), .next, .named 1, .named 1, .next]
      (((Session.mk e (.new none) w).acts [.call (.new none) (.activate 1)]).withContext Looped.worn.reset) =
        [1, 1] := by
    cases hbuild
    decide +kernel
  rw [hskips] at hmod htotal
  exact ⟨e, w, hbuild, _, rfl, hskips, hmod 1, htotal⟩

/-! ## Polling without end -/

/-- A node that is not ready, and no readier for being asked. -/
structure Declines (n : NodeId) (s : Session κ σ ω) : Prop where
  sane : s.engine.poisoned = none
  running : s.stopRequested = false
  knows : s.frame.Knows n
  skips (c : Context) : (s.withContext c).readiness n = (.skip, s.withContext c)

theorem Declines.poll {n : NodeId} (h : Declines n s) (c : Context) :
    (s.withContext c).poll (.named n) = s.withContext ((c.clearError.recordSkip n).noteSkip) ∧
      skipsIn ((s.withContext c).pollEvents (.named n)) = [n] := by
  have hready := h.skips c.clearError
  constructor
  · have hnamed := activate_of_running (s := s.withContext c) h.sane h.running h.knows.2
    exact congrArg Prod.snd (hnamed.trans (congrArg (answerTo n) hready))
  · have hasked := (s.withContext c.clearError).traced_readiness n []
    rw [readinessEvents_of_knows (s := s.withContext c.clearError) h.knows, hready] at hasked
    have hnamed := activate_of_running (s := (s.withContext c).traced []) h.sane h.running h.knows.2
    exact congrArg (skipsIn ·.2.world.host.2) (hnamed.trans (congrArg (answerTo n) hasked))

theorem Declines.skipsOf_replicate {n : NodeId} (h : Declines n s) (k : Nat) (c : Context) :
    skipsOf (List.replicate k (.named n)) (s.withContext c) = List.replicate k n := by
  induction k generalizing c with
  | zero => rfl
  | succ k ih =>
    obtain ⟨hend, hskip⟩ := h.poll c
    rw [List.replicate_succ, skipsOf, hend, hskip, ih, List.replicate_succ]
    rfl

/-- The count of a node is not the number of its skips in every history of so many calls: a host that goes on
asking node `b`, which waits for node `a`, comes to the end of the word. -/
theorem polls_outlast_counts :
    ¬ ∀ (g : Graph) (o : CompileOptions) (p : Plan) (stop : StopToken)
      (calls : List (Bind Scalar UInt8 Unit)) (w w' : World Unit) (e : Engine Scalar UInt8 Unit)
      (context c : Context) (before : List (HostAction Scalar Unit)) (polls : List (Poll Scalar Unit)),
      g.Built → g.compile o = .ok p → (Binding.ofCalls p stop calls).build w = (.ok e, w') →
      g.nodes.length ≤ 2 ^ 20 → polls.length ≤ 2 ^ 40 →
      (∀ poll ∈ polls, poll = .next ∨ ∃ n, poll = .named n) →
        let s := ((Session.mk e context w').acts before).withContext c.reset
        ∀ n, ((s.polls polls).context.periodSkips.get n).toNat = (skipsOf polls s).count n := by
  intro h
  have hcompile : Looped.graph.compile ⟨.fullyAsynchronous, 0, some 7, 100⟩ =
      .ok (Looped.plan .fullyAsynchronous [7, 3]) := by decide +kernel
  obtain ⟨e, w, hbuild⟩ : ∃ e w,
      (Binding.ofCalls (Looped.plan .fullyAsynchronous [7, 3]) 0 Looped.calls).build Looped.world =
        (.ok e, w) := ⟨_, _, rfl⟩
  have hdeclines : Declines 1 (Session.mk e (.new none) w) := by
    cases hbuild
    exact ⟨rfl, rfl, by decide +kernel, fun c ↦ rfl⟩
  -- The number of calls stays a variable, so that no list of that length is ever made.
  obtain ⟨many, hmany⟩ : ∃ many : Nat, many = 2 ^ 32 := ⟨_, rfl⟩
  have hexact := h _ _ _ _ _ _ w e (.new none) (.new none) [] (List.replicate many (.named 1))
    Looped.built_graph hcompile hbuild (by decide) (by rw [List.length_replicate]; omega)
    (fun poll hpoll ↦ .inr ⟨1, List.eq_of_mem_replicate hpoll⟩) 1
  have hskips := hdeclines.skipsOf_replicate many (Context.new none).reset
  have hcount := hexact.trans ((congrArg (List.count 1) hskips).trans List.count_replicate_self)
  have hlt := UInt32.toNat_lt (((Session.mk e (Context.new none).reset w).polls
    (List.replicate many (.named 1))).context.periodSkips.get 1)
  exact hlt.ne (hcount.trans hmany)

end Polls

end Session

end Dataflow
