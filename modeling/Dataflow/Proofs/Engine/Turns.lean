import Dataflow.Proofs.Engine.Passes
import Dataflow.Proofs.Engine.Restart
import Dataflow.Proofs.Engine.Suspension

/-!
# Turns

A host that fires single nodes can leave the choice to the engine. The engine asks the nodes one after
another, from behind the one that it chose last and round the end of the firing order, and fires the first
that is ready. Only its own choices count: after a node that the host named, or that fired in a run, the
engine still starts behind the one that it chose. Each choice brings it nearer to every node that it has
not chosen, so a node that is ready whenever it is asked has its turn within as many choices as there are
nodes.
-/

namespace Dataflow

variable {κ : Type} [ElementKind κ] {σ ω : Type}

namespace Session

/-! ## What nothing but a choice moves -/

/-- `P` is kept by all that calls are made up of, except for a choice. -/
structure Steady (P : Session κ σ ω → Prop) : Prop where
  status {s} (h : P s) (f : Context → Context) : P (s.modifyContext f)
  observed {s} (h : P s) (event : Hooks ω → World ω → World ω) : P (s.observe event)
  asked {s} (h : P s) (n : NodeId) : P (s.readiness n).2
  broken {s} (h : P s) (n : NodeId) (e : NodeError) : P (s.failNode n e).2
  fired {s} (h : P s) (n : NodeId) (persist : Bool) : P (s.fire n persist).2

section Steady

variable {P : Session κ σ ω → Prop} {s : Session κ σ ω}

theorem Steady.visitPeriod (hP : Steady P) (check : Bool) (order : List NodeId) (h : P s) :
    P (visitPeriod check order s).2 := by
  induction order generalizing s with
  | nil => exact h
  | cons n rest ih =>
    have hasked : P (if check then s.readiness n else (.proceed, s)).2 := by
      cases check with
      | false => exact h
      | true => exact hP.asked h n
    unfold Session.visitPeriod
    rcases hask : (if check then s.readiness n else (.proceed, s)) with ⟨_ | _ | code, t⟩ <;>
      rw [hask] at hasked
    · have hfired := hP.fired hasked n false
      dsimp only
      rcases hfire : t.fire n false with ⟨failure | status, u⟩ <;> rw [hfire] at hfired
      · exact hfired
      · exact ih hfired
    · exact ih (hP.status hasked _)
    · exact hP.broken hasked n (.fatal code)

theorem Steady.closeRound (hP : Steady P) (h : P s) (i : Nat) : P (s.closeRound i) :=
  hP.observed (hP.status h _) _

theorem Steady.runPeriods (hP : Steady P) (check : Bool) (bound : Nat) (h : P s) :
    P (runPeriods check bound s).2 := by
  induction bound generalizing s with
  | zero => exact h
  | succ bound ih =>
    cases hstop : s.stopRequested with
    | true =>
      rw [runPeriods_of_stopRequested hstop]
      exact h
    | false =>
      have hvisited := hP.visitPeriod check s.engine.plan.order (hP.observed
        (hP.status h (·.beginPeriod)) (·.beforePeriod s.context.iterations))
      rcases hvisit : Session.visitPeriod check s.engine.plan.order
        ((s.modifyContext (·.beginPeriod)).observe (·.beforePeriod s.context.iterations))
        with ⟨_ | failure, t⟩ <;> rw [hvisit] at hvisited
      · rw [runPeriods_succ hstop hvisit]
        exact ih (hP.closeRound hvisited _)
      · rw [runPeriods_succ_of_failure hstop hvisit]
        exact hvisited

theorem Steady.visitPass (hP : Steady P) (i : Nat) (order : List NodeId) (begun : Bool) (h : P s) :
    P (visitPass i order begun s).2 := by
  induction order generalizing s begun with
  | nil => exact h
  | cons n rest ih =>
    unfold Session.visitPass
    split
    · exact h
    · have hasked := hP.asked h n
      rcases hask : s.readiness n with ⟨_ | _ | code, t⟩ <;> rw [hask] at hasked
      · have hbegun : P (if begun then t else t.observe (·.beforePeriod i)) := by
          cases begun with
          | false => exact hP.observed hasked (·.beforePeriod i)
          | true => exact hasked
        have hfired := hP.fired hbegun n true
        dsimp only
        rcases hfire : fire _ n true with ⟨failure | status, u⟩ <;> rw [hfire] at hfired
        · exact hfired
        · exact ih true hfired
      · exact ih begun (hP.status hasked _)
      · exact hP.broken hasked n (.fatal code)

theorem Steady.runPasses (hP : Steady P) (bound : Nat) (h : P s) : P (runPasses bound s).2 := by
  induction bound generalizing s with
  | zero => exact h
  | succ bound ih =>
    unfold Session.runPasses
    split
    · exact h
    · have hvisited := hP.visitPass s.context.iterations s.engine.plan.firingOrder false
        (hP.status h (·.beginPeriod))
      have hplan : (s.modifyContext (·.beginPeriod)).engine.plan = s.engine.plan := rfl
      dsimp only
      rw [hplan]
      rcases hround : Session.visitPass _ _ _ _ with ⟨failure | pass, t⟩ <;> rw [hround] at hvisited
      · exact hvisited
      · dsimp only
        split
        · exact hvisited
        · split
          · exact hP.closeRound hvisited _
          · exact ih (hP.closeRound hvisited _)

theorem Steady.run (hP : Steady P) (h : P s) : P s.run.2 := by
  have hreset := hP.status h (·.reset)
  have hrounds : P (s.modifyContext (·.reset)).runRounds.2 := by
    unfold runRounds
    dsimp only
    split
    · exact hP.runPasses _ hreset
    · exact hP.runPeriods true _ hreset
    · exact hP.runPeriods false _ hreset
  unfold Session.run
  dsimp only
  cases hrefusal : (s.modifyContext (·.reset)).engine.refusal with
  | some failure => exact hP.status hreset _
  | none =>
    dsimp only
    rcases hend : (s.modifyContext (·.reset)).runRounds with ⟨_ | failure, t⟩ <;> rw [hend] at hrounds
    · exact hrounds
    · exact hP.status hrounds _

theorem Steady.reject (hP : Steady P) (h : P s) (f : Failure) : P (s.reject f).2 :=
  hP.status h (·.fail f)

theorem Steady.enter (hP : Steady P) (h : P s) : P s.enter.2 := by
  unfold Session.enter
  cases s.engine.refusal with
  | some failure => exact hP.reject h failure
  | none =>
    dsimp only
    split
    · exact h
    · exact hP.status h (·.clearError)

theorem Steady.fireOnce (hP : Steady P) (h : P s) (n : NodeId) : P (s.fireOnce n).2 := by
  have hfired := hP.fired h n (s.engine.plan.mode = .fullyAsynchronous)
  unfold Session.fireOnce
  rcases hfire : s.fire n _ with ⟨failure | _ | _, t⟩ <;> rw [hfire] at hfired
  · exact hP.reject hfired failure
  · exact hfired
  · exact hP.status hfired (·.noteSkip)

theorem Steady.activate (hP : Steady P) (h : P s) (n : NodeId) : P (s.activate n).2 := by
  have hentered := hP.enter h
  unfold Session.activate
  rcases henter : s.enter with ⟨_ | answer, t⟩ <;> rw [henter] at hentered
  · dsimp only
    split
    · exact hP.reject hentered _
    · have hasked := hP.asked hentered n
      rcases hask : t.readiness n with ⟨_ | _ | code, u⟩ <;> rw [hask] at hasked
      · exact hP.fireOnce hasked n
      · exact hP.status (hP.status hasked (·.recordSkip n)) (·.noteSkip)
      · exact hP.reject (hP.broken hasked n (.fatal code)) _
  · exact hentered

/-- Calls that leave no choice to the engine. -/
theorem Steady.call (hP : Steady P) (h : P s) {c : Call} (hc : c ≠ .activateNext) :
    P (s.call c).2 := by
  cases c with
  | run => exact hP.run h
  | activateNext => exact absurd rfl hc
  | activate n => exact hP.activate h n
  | bound limit => exact hP.status h (·.withLimit limit)

end Steady

section Cursor

variable (s : Session κ σ ω) (n : NodeId)

theorem cursor_callNode {α : Type} (absent : α) (callback : Behaviour κ σ ω → Callback σ ω α) :
    (s.callNode n absent callback).2.engine.cursor = s.engine.cursor := by
  unfold callNode
  split <;> rfl

theorem cursor_readiness : (s.readiness n).2.engine.cursor = s.engine.cursor := by
  unfold readiness
  split
  · rfl
  · exact s.cursor_callNode n _ _

theorem cursor_execute : (s.execute n).2.engine.cursor = s.engine.cursor := by
  cases hi : s.engine.nodes[n]? with
  | none => simp only [execute, hi]
  | some i =>
    cases hnode : s.engine.plan.graph.nodes[n]? with
    | none => simp only [execute, hi, hnode]
    | some node =>
      rw [execute_eq hi hnode]
      rfl

theorem cursor_attempt (persist : Bool) :
    (s.attempt n persist).2.engine.cursor = s.engine.cursor := by
  refine attempt_induction (P := fun t ↦ t.engine.cursor = s.engine.cursor) ?_ fun t ht ↦ ?_
  · unfold resume
    split
    · exact restoreParked_induction (P := fun t ↦ t.engine.cursor = s.engine.cursor) rfl
        (fun _ ↦ cursor_callNode _ n _ _) fun _ _ h ↦ h
    · rfl
  · have hexecuted := (t.cursor_execute n).trans ht
    unfold perform
    split
    · exact savePark_induction (P := fun t ↦ t.engine.cursor = s.engine.cursor)
        ((cursor_callNode _ n _ _).trans hexecuted) fun _ _ h ↦ h
    · exact hexecuted

theorem cursor_fire (persist : Bool) : (s.fire n persist).2.engine.cursor = s.engine.cursor := by
  have hattempt := s.cursor_attempt n persist
  rcases s.fire_cases n persist with ⟨status, -, hfire⟩ | ⟨e, -, hfire⟩ <;> rw [hfire] <;> exact hattempt

theorem steady_cursor (cursor : Nat) :
    Steady fun s : Session κ σ ω ↦ s.engine.cursor = cursor where
  status h _ := h
  observed h _ := h
  asked {s} h n := (s.cursor_readiness n).trans h
  broken h _ _ := h
  fired {s} h n persist := (s.cursor_fire n persist).trans h

end Cursor

/-! ## One search -/

/-- The first `passed` positions from `start` on, round the end of `size` nodes, are asked, and no node
there is ready. -/
def passes (size start passed : Nat) : List Event :=
  (List.range passed).map fun k ↦ .prepared ((start + k) % size) .skip

theorem mod_succ_add (size start k : Nat) :
    (start % size + 1 + k) % size = (start + (k + 1)) % size := by
  rw [Nat.add_assoc, Nat.mod_add_mod, Nat.add_comm 1 k]

theorem passes_succ (size start passed : Nat) : passes size start (passed + 1) =
    .prepared (start % size) .skip :: passes size (start % size + 1) passed := by
  rw [passes, List.range_succ_eq_map, List.map_cons, List.map_map]
  refine congrArg _ (List.map_congr_left fun k _ ↦ ?_)
  rw [mod_succ_add]
  rfl

/-- What a search does in an engine like that of `s` when it looks at `steps` positions from `start` on:
the answer, the events, and the node that is chosen. -/
inductive Scan (s : Session κ σ ω) (size start steps : Nat) :
    Activation → List Event → Option NodeId → Prop where
  | idle : Scan s size start steps .idle (passes size start steps) none
  | broken (passed : Nat) {failure : Failure} (hpassed : passed < steps)
    (hnode : failure.node = (start + passed) % size) (hfatal : failure.fatal) :
    Scan s size start steps (.failed failure)
      (passes size start passed ++ [.prepared ((start + passed) % size) (.fatal failure.code)]) none
  /-- `u` is what the questions have left. -/
  | chosen (passed : Nat) (hpassed : passed < steps) (u : Session κ σ ω) (hframe : u.frame = s.frame) :
    Scan s size start steps (u.fireOnce ((start + passed) % size)).1
      (passes size start passed ++ .prepared ((start + passed) % size) .proceed ::
        u.fireEvents ((start + passed) % size) true) (some ((start + passed) % size))

/-- Where the next search starts: behind the node that was chosen last. -/
def follow (size : Nat) : Option NodeId → Nat
  | none => 0
  | some n => (n + 1) % size

section Scan

variable {s t : Session κ σ ω} {size start steps : Nat} {answer : Activation} {events : List Event}
  {found : Option NodeId}

theorem Scan.of_frame (h : s.Scan size start steps answer events found) (hframe : s.frame = t.frame) :
    t.Scan size start steps answer events found := by
  cases h with
  | idle => exact .idle
  | broken passed hpassed hnode hfatal => exact .broken passed hpassed hnode hfatal
  | chosen passed hpassed u hu => exact .chosen passed hpassed u (hu.trans hframe)

/-- One position more, at which the node is not ready. -/
theorem Scan.pass (h : s.Scan size (start % size + 1) steps answer events found) :
    s.Scan size start (steps + 1) answer (.prepared (start % size) .skip :: events) found := by
  cases h with
  | idle => exact passes_succ size start steps ▸ .idle
  | @broken passed failure hpassed hnode hfatal =>
    rw [mod_succ_add] at hnode ⊢
    rw [← List.cons_append, ← passes_succ]
    exact .broken (passed + 1) (Nat.succ_lt_succ hpassed) hnode hfatal
  | chosen passed hpassed u hframe =>
    rw [mod_succ_add, ← List.cons_append, ← passes_succ]
    exact .chosen (passed + 1) (Nat.succ_lt_succ hpassed) u hframe

theorem readinessEvents_of_knows {n : NodeId} (h : s.frame.Knows n) :
    s.readinessEvents n = [.prepared n (s.readiness n).1] := by
  obtain ⟨i, node, hi, hnode⟩ := exists_of_knows h
  simp only [readinessEvents, readiness, hnode, callEvents, callNode_eq hi, hi]

/-- The answer to a call after a firing of node `n`. -/
def conclude (n : NodeId) : Except Failure RunStatus × Session κ σ ω → Activation × Session κ σ ω
  | (.ok .success, s) => (.fired n, s)
  | (.ok .skip, s) => (.skipped n, s.modifyContext (·.noteSkip))
  | (.error f, s) => s.reject f

theorem fireOnce_eq (s : Session κ σ ω) (n : NodeId) :
    s.fireOnce n = conclude n (s.fire n s.persists) := rfl

theorem traced_fireOnce (s : Session κ σ ω) (events : List Event) (n : NodeId) :
    (s.traced events).fireOnce n =
      ((s.fireOnce n).1, (s.fireOnce n).2.traced (events ++ s.fireEvents n s.persists)) := by
  have hpersists : (s.traced events).persists = s.persists := rfl
  rw [fireOnce_eq, fireOnce_eq, hpersists, traced_fire]
  rcases s.fire n s.persists with ⟨failure | _ | _, t⟩ <;> rfl

/-- A search asks from its position on and fires the first node that is ready. Only then does it move the
position from which the next one starts. -/
theorem scan_search (start : Nat) (hpersists : s.persists = true)
    (hknows : ∀ n < size, s.frame.Knows n) (hsteps : steps ≤ size) (events : List Event) :
    ∃ new found, s.Scan size start steps (search (List.range size) steps start s).1 new found ∧
      search (List.range size) steps start (s.traced events) =
        ((search (List.range size) steps start s).1,
          (search (List.range size) steps start s).2.traced (events ++ new)) ∧
      (search (List.range size) steps start s).2.engine.cursor =
        found.elim s.engine.cursor fun n ↦ (n + 1) % size := by
  induction steps generalizing start s events with
  | zero => exact ⟨[], none, .idle, by rw [List.append_nil]; rfl, rfl⟩
  | succ steps ih =>
    have hlt : start % size < size := Nat.mod_lt _ (by omega)
    have hasked := s.traced_readiness (start % size) events
    rw [readinessEvents_of_knows (hknows _ hlt)] at hasked
    have hframe : (s.readiness (start % size)).2.frame = s.frame := (s.local_readiness _).frame
    have hcursor := s.cursor_readiness (start % size)
    simp only [search, List.length_range, List.getElem?_range hlt, hasked]
    rcases hready : s.readiness (start % size) with ⟨_ | _ | code, t⟩ <;>
      rw [hready] at hframe hcursor <;> dsimp only at hframe hcursor ⊢
    · have hpersists' : (t.putCursor ((start % size + 1) % size)).persists = true :=
        (persists_of_frame hframe).trans hpersists
      have hmoved := (steady_cursor ((start % size + 1) % size)).fireOnce
        (s := t.putCursor ((start % size + 1) % size)) rfl (start % size)
      have hfired := (t.putCursor ((start % size + 1) % size)).traced_fireOnce
        (events ++ [.prepared (start % size) .proceed]) (start % size)
      rw [hpersists', List.append_assoc] at hfired
      exact ⟨_, some (start % size), .chosen 0 (Nat.succ_pos steps) _ hframe, hfired,
        hmoved⟩
    · obtain ⟨new, found, hscan, hsame, hmoved⟩ := ih
        (s := t.modifyContext (·.recordSkip (start % size))) (start % size + 1)
        ((persists_of_frame hframe).trans hpersists)
        (fun n hn ↦ hframe ▸ hknows n hn) (by omega) (events ++ [.prepared (start % size) .skip])
      rw [List.append_assoc] at hsame
      exact ⟨_, found, (hscan.of_frame hframe).pass, hsame,
        hmoved.trans (congrArg (found.elim · fun n ↦ (n + 1) % size) hcursor)⟩
    · exact ⟨_, none, .broken 0 (Nat.succ_pos steps) rfl rfl, rfl, hcursor⟩

end Scan

/-! ## Choices over a history -/

end Session

def Event.asked? : Event → Option NodeId
  | .prepared n _ => some n
  | _ => none

def Event.activated? : Event → Option NodeId
  | .beforeActivation n => some n
  | _ => none

/-- The node whose firing began last. -/
def lastActivated (events : List Event) : Option NodeId := events.reverse.findSome? Event.activated?

theorem lastActivated_append (events new : List Event) :
    lastActivated (events ++ new) = (lastActivated new).or (lastActivated events) := by
  rw [lastActivated, List.reverse_append, List.findSome?_append]
  rfl

namespace Session

/-- The node that fired last in a call that counts, after an action that `last` was true before. -/
def lastAfter (counts : Call → Bool) (s : Session κ σ ω) (last : Option NodeId) :
    HostAction κ ω → Option NodeId
  | .call context c =>
    if counts c then (lastActivated ((s.withContext context).trace c)).or last else last
  | .restart _ => none
  | .access .. | .surroundings _ => last

/-- The node that fired last in a call that counts, since the engine was put back, or else `last`. -/
def lastFired (counts : Call → Bool) :
    List (HostAction κ ω) → Option NodeId → Session κ σ ω → Option NodeId
  | [], last, _ => last
  | action :: rest, last, s => lastFired counts rest (s.lastAfter counts last action) (s.act action)

/-- Calls that leave the choice to the engine. -/
def chooses (c : Call) : Bool := c = .activateNext

variable {s t : Session κ σ ω} {size start steps : Nat} {answer : Activation} {events : List Event}
  {found : Option NodeId}

/-- The first question of a search goes to the node at its start. -/
theorem Scan.asks_first (h : s.Scan size start steps answer events found) (hsteps : 0 < steps) :
    events.head?.bind Event.asked? = some (start % size) := by
  cases h with
  | idle =>
    obtain ⟨steps, rfl⟩ := Nat.exists_eq_succ_of_ne_zero hsteps.ne'
    rw [passes_succ]
    rfl
  | @broken passed failure hpassed hnode hfatal =>
    cases passed with
    | zero => rfl
    | succ passed =>
      rw [passes_succ]
      rfl
  | chosen passed hpassed u hframe =>
    cases passed with
    | zero => rfl
    | succ passed =>
      rw [passes_succ]
      rfl

theorem lastActivated_passes (size start passed : Nat) : lastActivated (passes size start passed) = none := by
  simp [lastActivated, passes, Event.activated?]

theorem lastActivated_fireEvents {n : NodeId} (h : s.frame.Knows n) :
    lastActivated (s.fireEvents n true) = some n := by
  have hfires := fires_fire h
  generalize s.fireEvents n true = events at hfires
  cases hfires <;> rfl

theorem Scan.lastActivated_eq (h : s.Scan size start steps answer events found)
    (hknows : ∀ n < size, s.frame.Knows n) (hsteps : steps ≤ size) : lastActivated events = found := by
  cases h with
  | idle => exact lastActivated_passes size start steps
  | broken passed hpassed hnode hfatal =>
    rw [lastActivated_append, lastActivated_passes]
    rfl
  | chosen passed hpassed u hframe =>
    have hlt : (start + passed) % size < size := Nat.mod_lt _ (by omega)
    have hfires := lastActivated_fireEvents (hframe ▸ hknows _ hlt : u.frame.Knows _)
    rw [List.append_cons, lastActivated_append, hfires]
    rfl

theorem firingOrder_of_mode {p : Plan} (h : p.mode = .fullyAsynchronous) :
    p.firingOrder = List.range p.graph.nodes.length := by
  rw [Plan.firingOrder, Plan.schedule, h]
  rfl

/-- An engine for this plan that has all its nodes, and that starts its searches behind the node that it
chose last. -/
structure Rotates (p : Plan) (s : Session κ σ ω) (last : Option NodeId) : Prop where
  poisons : ∃ events, s.Poisons p events
  behaviours : s.frame.behaviours.length = p.graph.nodes.length
  cursor : s.engine.cursor = follow p.graph.nodes.length last

section Rotates

variable {p : Plan} {last : Option NodeId}

theorem Rotates.withContext (h : Rotates p s last) (c : Context) : Rotates p (s.withContext c) last :=
  ⟨h.poisons, h.behaviours, h.cursor⟩

theorem Rotates.plan (h : Rotates p s last) : s.engine.plan = p := by
  obtain ⟨events, hplan, -⟩ := h.poisons
  exact hplan

theorem Rotates.knows (h : Rotates p s last) {n : NodeId} (hn : n < p.graph.nodes.length) :
    s.frame.Knows n := ⟨h.behaviours ▸ hn, congrArg (·.graph.nodes.length) h.plan ▸ hn⟩

/-- A failure that has made an engine unusable is a fatal one. -/
theorem Rotates.fatal (h : Rotates p s last) {failure : Failure}
    (hfailure : s.engine.poisoned = some failure) : failure.fatal := by
  obtain ⟨events, -, hpoisoned⟩ := h.poisons
  rw [hpoisoned] at hfailure
  obtain ⟨error, -, rfl⟩ := Option.map_eq_some_iff.mp hfailure
  rfl

theorem activateNext_of_sane (h : s.engine.poisoned = none) : s.activateNext =
    if s.stopRequested then (.stopped, s)
    else search s.engine.plan.firingOrder s.engine.plan.firingOrder.length s.engine.cursor
      (s.modifyContext (·.clearError)) := by
  unfold activateNext
  rw [enter_of_sane h]
  cases s.stopRequested <;> rfl

/-- An engine that is asked to stop does nothing. -/
theorem activateNext_of_stopped (hsane : s.engine.poisoned = none) (hstop : s.stopRequested = true) :
    s.activateNext = (.stopped, s) := by
  rw [activateNext_of_sane hsane, if_pos hstop]

theorem trace_of_stopped (hsane : s.engine.poisoned = none) (hstop : s.stopRequested = true) :
    s.trace .activateNext = [] :=
  congrArg (·.2.world.host.2) (activateNext_of_stopped (s := s.traced []) hsane hstop)

/-- A usable engine scans its nodes. -/
theorem Rotates.scan (h : Rotates p s last) (hmode : p.mode = .fullyAsynchronous)
    (hsane : s.engine.poisoned = none) (hstop : s.stopRequested = false) :
    ∃ found, s.Scan p.graph.nodes.length (follow p.graph.nodes.length last) p.graph.nodes.length
        s.activateNext.1 (s.trace .activateNext) found ∧
      s.activateNext.2.engine.cursor =
        follow p.graph.nodes.length ((lastActivated (s.trace .activateNext)).or last) := by
  have horder : s.engine.plan.firingOrder = List.range p.graph.nodes.length := by
    rw [h.plan]
    exact firingOrder_of_mode hmode
  have hnext : s.activateNext = search (List.range p.graph.nodes.length)
      p.graph.nodes.length s.engine.cursor (s.modifyContext (·.clearError)) := by
    rw [activateNext_of_sane hsane, hstop, horder, List.length_range]
    rfl
  have htraced : (s.traced []).activateNext = search (List.range p.graph.nodes.length)
      p.graph.nodes.length s.engine.cursor ((s.modifyContext (·.clearError)).traced []) := by
    have hstop' : (s.traced []).stopRequested = false := hstop
    have horder' : (s.traced []).engine.plan.firingOrder = List.range p.graph.nodes.length := horder
    rw [activateNext_of_sane (s := s.traced []) hsane, hstop', horder', List.length_range]
    rfl
  have hpersists : (s.modifyContext (·.clearError)).persists = true :=
    decide_eq_true ((congrArg Plan.mode h.plan).trans hmode)
  have hknows : ∀ n < p.graph.nodes.length, (s.modifyContext (·.clearError)).frame.Knows n :=
    fun _ ↦ h.knows
  obtain ⟨new, found, hscan, hsame, hcursor⟩ :=
    scan_search s.engine.cursor hpersists hknows le_rfl []
  have htrace : s.trace .activateNext = new := by
    change (s.traced []).activateNext.2.world.host.2 = new
    rw [htraced, hsame]
    rfl
  rw [htrace, hnext, hscan.lastActivated_eq hknows le_rfl, ← h.cursor]
  refine ⟨found, hscan.of_frame rfl, hcursor.trans ?_⟩
  cases found with
  | none => exact h.cursor
  | some n => rfl

/-- A choice moves the start of the next search behind the node chosen. -/
theorem Rotates.cursor_activateNext (h : Rotates p s last) (hmode : p.mode = .fullyAsynchronous) :
    s.activateNext.2.engine.cursor =
      follow p.graph.nodes.length ((lastActivated (s.trace .activateNext)).or last) := by
  cases hsane : s.engine.poisoned with
  | some failure =>
    rw [trace_of_poisoned hsane, activateNext_of_poisoned hsane]
    exact h.cursor
  | none =>
    cases hstop : s.stopRequested with
    | true =>
      rw [trace_of_stopped hsane hstop, activateNext_of_stopped hsane hstop]
      exact h.cursor
    | false =>
      obtain ⟨-, -, hcursor⟩ := h.scan hmode hsane hstop
      exact hcursor

/-- Each action of the host moves the start of the next search as the choices among them do. -/
theorem Rotates.act (h : Rotates p s last) (hmode : p.mode = .fullyAsynchronous)
    (action : HostAction κ ω) : Rotates p (s.act action) (s.lastAfter chooses last action) := by
  have hpoisons : ∃ events, (s.act action).Poisons p events := by
    obtain ⟨events, hpoisons⟩ := h.poisons
    exact ⟨_, hpoisons.act action⟩
  refine ⟨hpoisons, ?_, ?_⟩
  · have hcalled (t : Session κ σ ω) (ht : t.frame = s.frame) :
        t.frame.behaviours.length = p.graph.nodes.length := ht ▸ h.behaviours
    cases action with
    | call context c => exact hcalled _ (OfOneMake.call (s.withContext context) c).frame
    | restart context => exact hcalled _ (OfOneMake.putBack (s.withContext context)).frame
    | access id k f =>
      unfold Session.act
      dsimp only
      split <;> exact h.behaviours
    | surroundings f => exact h.behaviours
  · cases action with
    | call context c =>
      by_cases hc : c = .activateNext
      · subst hc
        exact (h.withContext context).cursor_activateNext hmode
      · have hlast : s.lastAfter chooses last (.call context c) = last :=
          if_neg (by simpa [chooses] using hc)
        rw [hlast]
        exact (steady_cursor _).call (s := s.withContext context) h.cursor hc
    | restart context => rfl
    | access id k f =>
      unfold Session.act
      dsimp only
      split <;> exact h.cursor
    | surroundings f => exact h.cursor

theorem Rotates.acts (h : Rotates p s last) (hmode : p.mode = .fullyAsynchronous)
    (actions : List (HostAction κ ω)) :
    Rotates p (s.acts actions) (lastFired chooses actions last s) := by
  induction actions generalizing s last with
  | nil => exact h
  | cons action rest ih => exact ih (h.act hmode action)

/-- An engine that was built has its first search at the first node. -/
theorem rotates_of_build {stop : StopToken} {calls : List (Bind κ σ ω)} {w w' : World ω}
    {e : Engine κ σ ω} (h : (Binding.ofCalls p stop calls).build w = (.ok e, w')) (context : Context) :
    Rotates p (Session.mk e context w') none := by
  obtain ⟨nodes, hnodes, -, hplan, hpoisoned, hbehaviours, -, -, hcursor⟩ :=
    Binding.exists_of_build_eq_ok h
  have hs := Binding.sane_ofCalls p stop calls
  refine ⟨⟨[], hplan.symm.trans hs.plan, hpoisoned⟩, ?_, hcursor⟩
  calc e.frame.behaviours.length = nodes.length := by
        rw [Engine.frame, hbehaviours, List.length_map]
    _ = (Binding.ofCalls p stop calls).nodes.length := by rw [hnodes, List.length_map]
    _ = p.graph.nodes.length := hs.nodes

/-- In every history of an engine without a fixed order that was built, a search starts at the first node
until one has been chosen since the engine was built or put back, and else behind the node that was chosen
last. It asks the nodes one after another, round the end of their order, and fires the first that says that
it is ready. Firings of nodes that the host names, and those in runs, do not count. -/
theorem search_follows_choices (hmode : p.mode = .fullyAsynchronous) {stop : StopToken}
    {calls : List (Bind κ σ ω)} {w w' : World ω} {e : Engine κ σ ω}
    (h : (Binding.ofCalls p stop calls).build w = (.ok e, w')) (context : Context)
    (actions : List (HostAction κ ω)) (c : Context) :
    let size := p.graph.nodes.length
    let s := ((Session.mk e context w').acts actions).withContext c
    let last := lastFired chooses actions none (Session.mk e context w')
    p.firingOrder = List.range size ∧
      (s.engine.poisoned = none → s.stopRequested = false →
        ∃ found, s.Scan size (follow size last) size s.activateNext.1 (s.trace .activateNext) found) := by
  intro size s last
  refine ⟨firingOrder_of_mode hmode, fun hsane hstop ↦ ?_⟩
  have hs : Rotates p s last := ((rotates_of_build h context).acts hmode actions).withContext c
  obtain ⟨found, hscan, -⟩ := hs.scan hmode hsane hstop
  exact ⟨found, hscan⟩

/-- Node `a` is chosen, and then the host fires node `b`. The next search still starts behind node `a`. -/
theorem looped_follows_choice :
    ∃ e w, (Binding.ofCalls (Looped.plan .fullyAsynchronous [7, 3]) 0 Looped.calls).build Looped.world =
        (.ok e, w) ∧
      ∃ s : Session Scalar UInt8 Unit, s = ((Session.mk e (.new none) w).acts
          [.call (.new none) .activateNext, .call (.new none) (.activate 1)]).withContext (.new none) ∧
        ∃ found, s.Scan 2 1 2 s.activateNext.1 (s.trace .activateNext) found := by
  obtain ⟨e, w, hbuild⟩ : ∃ e w,
      (Binding.ofCalls (Looped.plan .fullyAsynchronous [7, 3]) 0 Looped.calls).build Looped.world =
        (.ok e, w) := ⟨_, _, rfl⟩
  obtain ⟨-, hscan⟩ := search_follows_choices rfl hbuild (.new none)
    [.call (.new none) .activateNext, .call (.new none) (.activate 1)] (.new none)
  have hlast : lastFired chooses [.call (.new none) .activateNext, .call (.new none) (.activate 1)] none
      (Session.mk e (.new none) w) = some 0 := by
    cases hbuild
    decide +kernel
  rw [hlast] at hscan
  refine ⟨e, w, hbuild, _, rfl, hscan ?_ ?_⟩
  · cases hbuild
    decide +kernel
  · cases hbuild
    decide +kernel

/-- A search does not start behind the node that fired last, in whichever way it was fired: after a node
that the host named, the same node is asked first. -/
theorem search_forgets_named_firings :
    ¬ ∀ (g : Graph) (o : CompileOptions) (p : Plan) (stop : StopToken) (calls : List (Bind Scalar UInt8 Unit))
      (w w' : World Unit) (e : Engine Scalar UInt8 Unit) (context c : Context)
      (history : List (Context × Call)), g.Built → g.compile o = .ok p → p.mode = .fullyAsynchronous →
      (Binding.ofCalls p stop calls).build w = (.ok e, w') →
      let actions := history.map fun c ↦ .call c.1 c.2
      let s := ((Session.mk e context w').acts actions).withContext c
      let last := lastFired (fun _ ↦ true) actions none (Session.mk e context w')
      s.engine.poisoned = none → s.stopRequested = false →
        ∃ found, s.Scan g.nodes.length (follow g.nodes.length last) g.nodes.length s.activateNext.1
          (s.trace .activateNext) found := by
  intro h
  have hcompile : Looped.graph.compile ⟨.fullyAsynchronous, 0, some 7, 100⟩ =
      .ok (Looped.plan .fullyAsynchronous [7, 3]) := by decide +kernel
  obtain ⟨e, w, hbuild⟩ : ∃ e w,
      (Binding.ofCalls (Looped.plan .fullyAsynchronous [7, 3]) 0 Looped.calls).build Looped.world =
        (.ok e, w) := ⟨_, _, rfl⟩
  have hscan := h _ _ _ _ _ _ w e (.new none) (.new none) [(.new none, .activate 0)] Looped.built_graph
    hcompile rfl hbuild
  have hlast : lastFired (fun _ ↦ true) [.call (.new none) (.activate 0)] none
      (Session.mk e (.new none) w) = some 0 := by
    cases hbuild
    decide +kernel
  have hasked : ((((Session.mk e (.new none) w).acts [.call (.new none) (.activate 0)]).withContext
      (.new none)).trace .activateNext).head?.bind Event.asked? = some 0 := by
    cases hbuild
    decide +kernel
  simp only [List.map_cons, List.map_nil] at hscan
  rw [hlast] at hscan
  obtain ⟨found, hscan⟩ := hscan (by cases hbuild; decide +kernel) (by cases hbuild; decide +kernel)
  cases hasked.symm.trans (hscan.asks_first (by decide))

end Rotates

end Session

/-! ## A node that is always ready -/

/-- Node `q` is asked, and does not say that it is ready. -/
def Event.declines (q : NodeId) : Event → Bool
  | .prepared n r => n = q ∧ r ≠ .proceed
  | _ => false

/-- Node `q` runs, or it does not take its parked state back and can be tried again. -/
def Event.isTurn (q : NodeId) : Event → Bool
  | .ran n _ | .restored n _ (.error (.recoverable _)) => n = q
  | _ => false

/-- The answer is not that of a stop request or of a fatal failure. -/
def Activation.goesOn : Activation → Bool
  | .stopped => false
  | .failed f => !f.fatal
  | _ => true

namespace Session

variable {s : Session κ σ ω} {size start : Nat} {answer : Activation} {events : List Event}
  {found : Option NodeId}

/-- The sessions in which the host leaves the choice to the engine. -/
def searches : List (HostAction κ ω) → Session κ σ ω → List (Session κ σ ω)
  | [], _ => []
  | .call context .activateNext :: rest, s =>
    s.withContext context :: searches rest (s.act (.call context .activateNext))
  | action :: rest, s => searches rest (s.act action)

theorem searches_cons {action : HostAction κ ω} (h : ∀ c, action ≠ .call c .activateNext)
    (rest : List (HostAction κ ω)) (s : Session κ σ ω) :
    searches (action :: rest) s = searches rest (s.act action) := by
  rw [searches]
  exact h

/-- A firing whose events have a fatal error in them is answered with a fatal failure. -/
theorem goesOn_eq_false_of_fatal {n : NodeId} (h : (firstFatal (s.fireEvents n s.persists)).isSome) :
    (s.fireOnce n).1.goesOn = false := by
  rw [firstFatal_fireEvents, Option.isSome_map] at h
  rw [fireOnce_eq]
  rcases s.fire_cases n s.persists with ⟨status, hattempt, -⟩ | ⟨e, hattempt, hfire⟩
  · rw [hattempt] at h
    cases h
  · rw [hattempt] at h
    rw [hfire]
    cases e with
    | recoverable code => cases h
    | fatal code => rfl

theorem exists_isTurn_of_fires {t : Session κ σ ω} {q : NodeId} (h : Fires q s t events)
    (hgoes : firstFatal events = none) : ∃ event ∈ events, event.isTurn q := by
  cases h with
  | fresh result outcome hnone => exact ⟨.ran q result, by simp, decide_eq_true rfl⟩
  | resumed blob result outcome hblob => exact ⟨.ran q result, by simp, decide_eq_true rfl⟩
  | refused blob e hblob hkept hchannels =>
    cases e with
    | recoverable code =>
      exact ⟨.restored q blob (.error (.recoverable code)), by simp, decide_eq_true rfl⟩
    | fatal code => cases hgoes

theorem mem_passes {passed d : Nat} (h : d < passed) (size start : Nat) :
    .prepared ((start + d) % size) .skip ∈ passes size start passed :=
  List.mem_map.mpr ⟨d, List.mem_range.mpr h, rfl⟩

/-- A search that goes on chooses the ready node at the distance `d`, or one before it. -/
theorem Scan.reaches {d : Nat} (h : s.Scan size start size answer events found)
    (hpersists : s.persists = true) (hknows : ∀ n < size, s.frame.Knows n) (hd : d < size)
    (hready : ∀ event ∈ events, event.declines ((start + d) % size) = false) (hgoes : answer.goesOn) :
    (∃ event ∈ events, event.isTurn ((start + d) % size)) ∨
      ∃ passed < d, found = some ((start + passed) % size) := by
  -- A node that is passed over has said that it is not ready.
  have hpassed {passed : Nat} (hsub : passes size start passed ⊆ events) : passed ≤ d := by
    by_contra hlt
    have hskip := hready _ (hsub (mem_passes (Nat.lt_of_not_le hlt) size start))
    simp [Event.declines] at hskip
  cases h with
  | idle => exact absurd (hpassed (List.Subset.refl _)) (Nat.not_le.mpr hd)
  | broken passed hlt hnode hfatal => simp [Activation.goesOn, hfatal] at hgoes
  | chosen passed hlt u hframe =>
    rcases Nat.lt_or_eq_of_le (hpassed (List.subset_append_left _ _)) with hbefore | rfl
    · exact .inr ⟨passed, hbefore, rfl⟩
    · have hlt' : (start + passed) % size < size := Nat.mod_lt _ (Nat.zero_lt_of_lt hd)
      have hpersists' : u.persists = true := (persists_of_frame hframe).trans hpersists
      have hfires := fires_fire (hframe ▸ hknows _ hlt' : u.frame.Knows ((start + passed) % size))
      have hnone : firstFatal (u.fireEvents ((start + passed) % size) true) = none := by
        by_contra hsome
        rw [← hpersists'] at hsome
        rw [goesOn_eq_false_of_fatal (Option.isSome_iff_ne_none.mpr hsome)] at hgoes
        cases hgoes
      obtain ⟨event, hevent, hturn⟩ := exists_isTurn_of_fires hfires hnone
      exact .inl ⟨event, List.mem_append_right _ (List.mem_cons_of_mem _ hevent), hturn⟩

section Turns

variable {p : Plan} {last : Option NodeId}

/-- Only an engine that is put back forgets which node it chose last. -/
theorem Rotates.act_of_keeps (h : Rotates p s last) (hmode : p.mode = .fullyAsynchronous)
    {action : HostAction κ ω} (hrestart : ∀ c, action ≠ .restart c)
    (hnext : ∀ c, action ≠ .call c .activateNext) : Rotates p (s.act action) last := by
  have hact := h.act hmode action
  cases action with
  | call c call =>
    have hchooses : chooses call = false := by
      simpa [chooses] using fun heq ↦ hnext c (congrArg _ heq)
    rw [lastAfter, hchooses] at hact
    exact hact
  | restart c => exact absurd rfl (hrestart c)
  | access id k f => exact hact
  | surroundings f => exact hact

/-- Only a usable engine that is not asked to stop goes on. -/
theorem Rotates.sane_of_goesOn (h : Rotates p s last) (hgoes : s.activateNext.1.goesOn) :
    s.engine.poisoned = none ∧ s.stopRequested = false := by
  cases hsane : s.engine.poisoned with
  | some failure =>
    rw [activateNext_of_poisoned hsane] at hgoes
    simp [Activation.goesOn, h.fatal hsane] at hgoes
  | none =>
    refine ⟨rfl, ?_⟩
    by_contra hraised
    rw [activateNext_of_stopped hsane (Bool.eq_true_of_not_eq_false hraised)] at hgoes
    cases hgoes

/-- Each choice that is not the turn of the node at the distance `d` brings the search nearer to it. -/
theorem Rotates.turn (h : Rotates p s last) (hmode : p.mode = .fullyAsynchronous) {q : NodeId} {d : Nat}
    (hd : d < p.graph.nodes.length)
    (hq : (follow p.graph.nodes.length last + d) % p.graph.nodes.length = q)
    {stretch : List (HostAction κ ω)} (hkept : ∀ action ∈ stretch, ∀ c, action ≠ .restart c)
    (hready : ∀ t ∈ searches stretch s,
      (∀ event ∈ t.trace .activateNext, event.declines q = false) ∧ t.activateNext.1.goesOn)
    (hlong : d < (searches stretch s).length) :
    ∃ t ∈ searches stretch s, ∃ event ∈ t.trace .activateNext, event.isTurn q := by
  -- A choice after `passed` questions leaves the distance `d - passed - 1`, and all else leaves `d`.
  induction stretch generalizing s last d with
  | nil => exact absurd hlong (Nat.not_lt_zero d)
  | cons action rest ih =>
    obtain ⟨hfirst, hrest⟩ := List.forall_mem_cons.mp hkept
    by_cases hnext : ∃ c, action = .call c .activateNext
    · obtain ⟨c, rfl⟩ := hnext
      obtain ⟨⟨hasked, hgoes⟩, hlater⟩ := List.forall_mem_cons.mp hready
      have hc := h.withContext c
      obtain ⟨hsane, hstop⟩ := hc.sane_of_goesOn hgoes
      obtain ⟨found, hscan, -⟩ := hc.scan hmode hsane hstop
      have hlast := hscan.lastActivated_eq (fun _ ↦ hc.knows) le_rfl
      have hpersists : (s.withContext c).persists = true :=
        decide_eq_true ((congrArg Plan.mode hc.plan).trans hmode)
      subst hq
      obtain hturn | ⟨passed, hpassed, rfl⟩ :=
        hscan.reaches hpersists (fun _ ↦ hc.knows) hd hasked hgoes
      · exact ⟨_, List.mem_cons_self, hturn⟩
      · have hact := h.act hmode (.call c .activateNext)
        rw [lastAfter, chooses, decide_eq_true rfl, if_pos rfl, hlast, Option.some_or] at hact
        have hnearer : (follow p.graph.nodes.length
            (some ((follow p.graph.nodes.length last + passed) % p.graph.nodes.length)) +
              (d - passed - 1)) % p.graph.nodes.length =
            (follow p.graph.nodes.length last + d) % p.graph.nodes.length := by
          rw [follow, Nat.mod_add_mod, Nat.add_assoc, Nat.mod_add_mod]
          exact congrArg (· % p.graph.nodes.length) (by omega)
        have hlong' : d - passed - 1 < (searches rest (s.act (.call c .activateNext))).length := by
          rw [searches, List.length_cons] at hlong
          omega
        obtain ⟨t, ht, hturn⟩ := ih hact (by omega) hnearer hrest hlater hlong'
        exact ⟨t, List.mem_cons_of_mem _ ht, hturn⟩
    · rw [searches_cons fun c hc ↦ hnext ⟨c, hc⟩] at hready hlong ⊢
      exact ih (h.act_of_keeps hmode hfirst fun c hc ↦ hnext ⟨c, hc⟩) hd hq hrest hready hlong

/-- Whatever has happened to an engine without a fixed order since it was built, a node that says that it is
ready whenever it is asked has its turn within as many choices as there are nodes. What the host does in
between, short of putting the engine back, does not matter, and neither do failures of other nodes, if none
of the choices ends with a fatal failure or a stop request. -/
theorem turn_within_choices (hmode : p.mode = .fullyAsynchronous) {stop : StopToken}
    {calls : List (Bind κ σ ω)} {w w' : World ω} {e : Engine κ σ ω}
    (h : (Binding.ofCalls p stop calls).build w = (.ok e, w')) (context : Context)
    (before stretch : List (HostAction κ ω)) (hkept : ∀ action ∈ stretch, ∀ c, action ≠ .restart c)
    {q : NodeId} (hq : q < p.graph.nodes.length) :
    let chosen := searches stretch ((Session.mk e context w').acts before)
    (∀ t ∈ chosen, (∀ event ∈ t.trace .activateNext, event.declines q = false) ∧
        t.activateNext.1.goesOn) →
      p.graph.nodes.length ≤ chosen.length →
      ∃ t ∈ chosen, ∃ event ∈ t.trace .activateNext, event.isTurn q := by
  intro chosen hready hlong
  have hs := (rotates_of_build h context).acts hmode before
  obtain ⟨d, hd, hposition⟩ := exists_add_mod_eq
    (follow p.graph.nodes.length (lastFired chooses before none (Session.mk e context w'))) hq
  exact hs.turn hmode hd hposition hkept hready (hd.trans_le hlong)

/-- Node `a` has just been fired by name, and is chosen all the same. A firing of it by name is refused in
between, and node `b` has its turn in the second choice. -/
theorem looped_turn :
    ∃ e w, (Binding.ofCalls (Looped.plan .fullyAsynchronous [7, 3]) 0 Looped.calls).build Looped.world =
        (.ok e, w) ∧
      ∃ t ∈ searches [.call (.new none) .activateNext, .call (.new none) (.activate 0),
          .call (.new none) .activateNext]
          ((Session.mk e (.new none) w).acts [.call (.new none) (.activate 0)]),
        ∃ event ∈ t.trace .activateNext, event.isTurn 1 := by
  obtain ⟨e, w, hbuild⟩ : ∃ e w,
      (Binding.ofCalls (Looped.plan .fullyAsynchronous [7, 3]) 0 Looped.calls).build Looped.world =
        (.ok e, w) := ⟨_, _, rfl⟩
  refine ⟨e, w, hbuild, turn_within_choices rfl hbuild (.new none) [.call (.new none) (.activate 0)]
    [.call (.new none) .activateNext, .call (.new none) (.activate 0), .call (.new none) .activateNext]
    (by simp) (by decide) ?_ (Nat.le_refl 2)⟩
  cases hbuild
  decide +kernel

/-- A turn need not be a run: the only node parks a state in the first choice, and in the second one does not
take it back. -/
theorem turn_without_run :
    ¬ ∀ (g : Graph) (o : CompileOptions) (p : Plan) (stop : StopToken) (calls : List (Bind Scalar Unit Unit))
      (w w' : World Unit) (e : Engine Scalar Unit Unit) (context : Context)
      (before stretch : List (Context × Call)) (q : NodeId), g.Built → g.compile o = .ok p →
      p.mode = .fullyAsynchronous → (Binding.ofCalls p stop calls).build w = (.ok e, w') →
      (∀ c ∈ stretch, c.2 = .activateNext ∨ ∃ n, c.2 = .activate n) → q < g.nodes.length →
      let chosen := searches (stretch.map fun c ↦ .call c.1 c.2)
        ((Session.mk e context w').acts (before.map fun c ↦ .call c.1 c.2))
      (∀ t ∈ chosen, (∀ event ∈ t.trace .activateNext, event.declines q = false) ∧
          t.activateNext.1.goesOn) →
        chosen.length = g.nodes.length → ∃ t ∈ chosen, ∃ result, .ran q result ∈ t.trace .activateNext := by
  intro h
  have hcompile : Solo.graph.compile ⟨.fullyAsynchronous, 0, none, 100⟩ = .ok Solo.plan := by
    decide +kernel
  obtain ⟨e, w, hbuild⟩ : ∃ e w,
      (Binding.ofCalls Solo.plan 0 [.node 0 ⟨Solo.refuser, ()⟩]).build ⟨.empty, ()⟩ = (.ok e, w) :=
    ⟨_, _, rfl⟩
  have hchosen := h _ _ _ _ _ _ w e (.new none) [(.new none, .activateNext)]
    [(((Session.mk e (.new none) w).call .activateNext).2.context, .activateNext)] 0 Solo.built_graph
    hcompile rfl hbuild (by simp) (by decide)
  obtain ⟨t, ht, result, hran⟩ := hchosen (by cases hbuild; decide +kernel) rfl
  obtain rfl := List.mem_singleton.mp ht
  cases hbuild
  change Event.ran 0 result ∈ [.prepared 0 .proceed, .beforeActivation 0,
    .restored 0 [] (.error (.recoverable (.node 1))), .afterActivation 0 (.failed (.node 1))] at hran
  simp at hran

end Turns

end Session

end Dataflow
