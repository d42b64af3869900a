import Dataflow.Engine.Run
import Dataflow.Fifo.Scalar
import Dataflow.Proofs.Engine.Binding
import Dataflow.Proofs.Engine.Exchange

/-!
# Runs of whole periods

An engine that replays the period of its plan finds every node ready when its turn comes, so no node is
passed over and no firing fails. A run ends after the rounds that its context allows, or before when a
stop is requested, and always with the initial number of tokens on every edge.
-/

namespace Dataflow

variable {κ : Type} [ElementKind κ] {σ ω : Type}

/-- An engine that stands at the beginning of a sound plan is an engine of this plan. -/
theorem Engine.Fresh.planned {e : Engine κ σ ω} {p : Plan} {kind : EdgeId → κ} (h : e.Fresh p kind)
    (hp : p.Sound) : e.frame.Planned kind := by
  obtain ⟨rfl, hlength, hfit, -, -⟩ := h
  exact ⟨hp, (List.length_map _).trans hlength, hfit⟩

theorem Engine.Fresh.proper {e : Engine κ σ ω} {p : Plan} {kind : EdgeId → κ} (h : e.Fresh p kind)
    (hp : p.Sound) (hprepare : ∀ (n : NodeId) (i : Instance κ σ ω), e.nodes[n]? = some i →
      ∀ v : PortView, i.behaviour.prepare v = pure v.readiness) : e.frame.Proper kind := by
  refine ⟨h.planned hp, fun b hb v ↦ ?_⟩
  obtain ⟨n, i, hi, rfl⟩ := Engine.exists_of_mem_behaviours hb
  exact hprepare n i hi v

theorem Engine.Fresh.moves {e : Engine κ σ ω} {p : Plan} {kind : EdgeId → κ} (h : e.Fresh p kind)
    (hmoves : ∀ (n : NodeId) (i : Instance κ σ ω), e.nodes[n]? = some i →
      i.behaviour.Moves p kind n) : e.frame.Moves kind := by
  obtain ⟨rfl, -, -, -, -⟩ := h
  intro n b hb
  obtain ⟨i, hi, rfl⟩ := Engine.exists_of_behaviours hb
  exact hmoves n i hi

namespace Session

/-- The firings of `w` have happened, and `rounds` rounds have been completed; nothing was passed
over. -/
structure Played (w : List NodeId) (rounds : Nat) (s t : Session κ σ ω) : Prop where
  frame : t.frame = s.frame
  poisoned : t.engine.poisoned = s.engine.poisoned
  level : t.level = Steps.run s.engine.plan.graph.after w s.level
  iterations : t.context.iterations = s.context.iterations + rounds
  activations : t.context.activations = s.context.activations + w.length
  skips : t.context.totalSkips = s.context.totalSkips
  code : t.context.code = s.context.code
  failure : t.context.failure = s.context.failure

variable {s t u : Session κ σ ω} {v w : List NodeId} {i j : Nat} {kind : EdgeId → κ} {n : NodeId}

theorem Played.refl (s : Session κ σ ω) : s.Played [] 0 s := ⟨rfl, rfl, rfl, rfl, rfl, rfl, rfl, rfl⟩

theorem Played.plan (h : s.Played w i t) : t.engine.plan = s.engine.plan :=
  congrArg Frame.plan h.frame

theorem Played.trans (h : s.Played v i t) (h' : t.Played w j u) : s.Played (v ++ w) (i + j) u where
  frame := h'.frame.trans h.frame
  poisoned := h'.poisoned.trans h.poisoned
  level := by rw [h'.level, h.level, h.plan, Steps.run_append]
  iterations := by rw [h'.iterations, h.iterations, Nat.add_assoc]
  activations := by rw [h'.activations, h.activations, List.length_append, Nat.add_assoc]
  skips := h'.skips.trans h.skips
  code := h'.code.trans h.code
  failure := h'.failure.trans h.failure

/-- What a firing without parked states counts, when the node has moved its rates. -/
theorem played_of_execute {u : Session κ σ ω}
    (hexecute : (s.observe (·.beforeActivation n)).execute n = (.ok .success, u))
    (hlevel : u.level = s.engine.plan.graph.after n s.level) :
    ∃ t, s.fire n false = (.ok .success, t) ∧ s.Played [n] 0 t := by
  have hattempt : s.attempt n false = (.ok .success, u) := (s.attempt_false n).trans hexecute
  have hlocal := s.local_attempt n false
  have hfire := fire_of_ok (congrArg Prod.fst hattempt)
  rw [hattempt] at hlocal hfire
  exact ⟨_, hfire, hlocal.frame, hlocal.poisoned, hlevel,
    (congrArg Context.iterations hlocal.context :), (congrArg (·.activations + 1) hlocal.context :),
    (congrArg Context.totalSkips hlocal.context :), (congrArg Context.code hlocal.context :),
    (congrArg Context.failure hlocal.context :)⟩

theorem played_fire (hf : s.frame.Proper kind) (hmoves : s.frame.Moves kind) (hready : s.Ready n) :
    ∃ t, s.fire n false = (.ok .success, t) ∧ s.Played [n] 0 t := by
  obtain ⟨hresult, hlevel⟩ :=
    execute_of_ready (s := s.observe (·.beforeActivation n)) hf hmoves hready
  exact played_of_execute (Prod.ext hresult rfl) hlevel

/-- Ready nodes of these engines say so if they are asked, and their firings are played, unless they
fail. -/
structure Plays (check : Bool) (f : Frame κ σ ω) : Prop where
  asked (s : Session κ σ ω) (n : NodeId) (hframe : s.frame = f) (hready : s.Ready n) (h : check = true) :
    s.readiness n = (.proceed, s)
  fires (s : Session κ σ ω) (n : NodeId) (hframe : s.frame = f) (hready : s.Ready n) :
    (∃ t, s.fire n false = (.ok .success, t) ∧ s.Played [n] 0 t) ∨
      ∃ failure t, s.fire n false = (.error failure, t)

/-- After so many rounds of this order, the firing of a ready node has failed. -/
inductive Broken (order : List NodeId) (rounds : Nat) (s : Session κ σ ω) (failure : Failure)
    (t : Session κ σ ω) : Prop where
  | intro {done rest : List NodeId} {n : NodeId} {u : Session κ σ ω} (horder : order = done ++ n :: rest)
    (hplayed : s.Played ((List.replicate rounds order).flatten ++ done) rounds u) (hready : u.Ready n)
    (hfire : u.fire n false = (.error failure, t))

/-- A part of the order that is carried by the levels is visited without a pause, unless a firing
fails. -/
theorem visitPeriod_of_along (check : Bool) (hplays : Plays check s.frame)
    (hw : Steps.Along (s.engine.plan.graph.Ready s.engine.plan.room) s.engine.plan.graph.after w
      s.level) :
    (∃ t, visitPeriod check w s = (none, t) ∧ s.Played w 0 t) ∨
      ∃ failure t, visitPeriod check w s = (some failure, t) ∧ s.Broken w 0 failure t := by
  induction w generalizing s with
  | nil => exact .inl ⟨s, rfl, .refl s⟩
  | cons n w ih =>
    obtain ⟨hready, hrest⟩ := hw
    have hasked : (if check then s.readiness n else (.proceed, s)) = (.proceed, s) := by
      cases check with
      | false => rfl
      | true => exact hplays.asked s n rfl hready rfl
    unfold visitPeriod
    rw [hasked]
    dsimp only
    rcases hplays.fires s n rfl hready with ⟨t, hfire, ht⟩ | ⟨failure, t, hfire⟩
    · rw [hfire]
      rcases ih (s := t) (ht.frame ▸ hplays) (by rw [ht.plan, ht.level]; exact hrest)
        with ⟨u, hvisit, hu⟩ | ⟨failure, u, hvisit, hbroken⟩
      · exact .inl ⟨u, hvisit, ht.trans hu⟩
      · obtain ⟨horder, hplayed, hready', hfire'⟩ := hbroken
        exact .inr ⟨failure, u, hvisit, .intro (congrArg (n :: ·) horder) (ht.trans hplayed) hready'
          hfire'⟩
    · rw [hfire]
      exact .inr ⟨failure, t, rfl, .intro rfl (.refl s) hready hfire⟩

theorem played_begin (s : Session κ σ ω) (iteration : Nat) :
    s.Played [] 0 ((s.modifyContext (·.beginPeriod)).observe (·.beforePeriod iteration)) :=
  ⟨rfl, rfl, rfl, rfl, rfl, rfl, rfl, rfl⟩

theorem played_closeRound (s : Session κ σ ω) (iteration : Nat) :
    s.Played [] 1 (s.closeRound iteration) := ⟨rfl, rfl, rfl, rfl, rfl, rfl, rfl, rfl⟩

/-- One round more, before those that are counted. -/
theorem Played.round (h : s.Played s.engine.plan.order 0 t)
    (h' : (t.closeRound i).Played ((List.replicate j s.engine.plan.order).flatten ++ w) j u) :
    s.Played ((List.replicate (j + 1) s.engine.plan.order).flatten ++ w) (j + 1) u := by
  have hall := (h.trans (t.played_closeRound i)).trans h'
  rw [List.append_nil, ← List.append_assoc] at hall
  rw [List.replicate_succ, List.flatten_cons, Nat.add_comm j 1]
  exact hall

/-- From levels that carry the order and come back after it, period after period is played until a stop
is requested, unless a firing fails. -/
theorem runPeriods_of_along (check : Bool) (rounds : Nat) (hplays : Plays check s.frame)
    (hcarries : Steps.Along (s.engine.plan.graph.Ready s.engine.plan.room) s.engine.plan.graph.after
      s.engine.plan.order s.level)
    (hcycle : Steps.run s.engine.plan.graph.after s.engine.plan.order s.level = s.level) :
    (∃ t, runPeriods check rounds s = (none, t) ∧ ∃ k ≤ rounds,
      s.Played (List.replicate k s.engine.plan.order).flatten k t ∧
      (t.stopRequested = false → k = rounds)) ∨
    ∃ k failure t, runPeriods check rounds s = (some failure, t) ∧
      s.Broken s.engine.plan.order k failure t := by
  induction rounds generalizing s with
  | zero => exact .inl ⟨s, rfl, 0, Nat.le_refl 0, .refl s, fun _ ↦ rfl⟩
  | succ rounds ih =>
    cases hstop : s.stopRequested with
    | true =>
      refine .inl ⟨s, ?_, 0, Nat.zero_le _, .refl s, fun hno ↦ ?_⟩
      · exact runPeriods_of_stopRequested hstop _
      · rw [hstop] at hno
        cases hno
    | false =>
      have hbegin := s.played_begin s.context.iterations
      rcases visitPeriod_of_along check (w := s.engine.plan.order)
        (s := (s.modifyContext (·.beginPeriod)).observe (·.beforePeriod s.context.iterations))
        hplays hcarries with ⟨t, hvisit, hplayed⟩ | ⟨failure, t, hvisit, hbroken⟩
      · have hround : s.Played s.engine.plan.order 0 t := hbegin.trans hplayed
        have hplan : (t.closeRound s.context.iterations).engine.plan = s.engine.plan := hround.plan
        have hlevel : (t.closeRound s.context.iterations).level = s.level := hround.level.trans hcycle
        have hrest := ih (s := t.closeRound s.context.iterations) (hround.frame ▸ hplays)
          (by rw [hplan, hlevel]; exact hcarries) (by rw [hplan, hlevel]; exact hcycle)
        rw [hplan] at hrest
        rw [runPeriods_succ hstop hvisit]
        rcases hrest with ⟨u, hruns, k, hk, hu, hdone⟩ | ⟨k, failure, u, hruns, hbroken⟩
        · refine .inl ⟨u, hruns, k + 1, Nat.succ_le_succ hk, ?_, fun hno ↦ congrArg (· + 1) (hdone hno)⟩
          rw [← List.append_nil (List.replicate k s.engine.plan.order).flatten] at hu
          have hall := hround.round hu
          rw [List.append_nil] at hall
          exact hall
        · obtain ⟨horder, hplayed, hready, hfire⟩ := hbroken
          exact .inr ⟨k + 1, failure, u, hruns, .intro horder (hround.round hplayed) hready hfire⟩
      · obtain ⟨horder, hplayed, hready, hfire⟩ := hbroken
        exact .inr ⟨0, failure, t, runPeriods_succ_of_failure hstop hvisit rounds, .intro horder (hbegin.trans hplayed) hready hfire⟩

theorem levels_eq_of_level {g : Graph} {room : Levels}
    (hfit : Channel.Fit kind room g.edges.length s.engine.channels) (h : s.level = g.delay) :
    s.levels = g.edges.map (·.delay.toNat) := by
  apply List.ext_getElem
  · simp [levels, hfit.length_eq]
  · intro id hid hid'
    have hlevel := congrFun h id
    rw [levels, List.length_map] at hid
    rw [List.length_map] at hid'
    rw [level, Channel.level_of_getElem? (List.getElem?_eq_getElem hid),
      Graph.delay_of_getElem? (List.getElem?_eq_getElem hid')] at hlevel
    simpa [levels] using hlevel

/-- An engine with an order runs periods, as many as the bound allows. -/
theorem run_of_ordered (hmode : s.engine.plan.mode ≠ .fullyAsynchronous)
    (hsane : s.engine.poisoned = none) {failure : Option Failure}
    (hruns : runPeriods (s.engine.plan.mode = .asynchronous) (s.context.limit.getD unbounded)
      (s.modifyContext (·.reset)) = (failure, t)) :
    s.run = match failure with
      | none => (t.context.report, t)
      | some f => ((t.modifyContext (·.fail f)).context.report, t.modifyContext (·.fail f)) := by
  have hlimit : (s.modifyContext (·.reset)).context.limit = s.context.limit := rfl
  have hplan : (s.modifyContext (·.reset)).engine.plan = s.engine.plan := rfl
  have hrounds : (s.modifyContext (·.reset)).runRounds = (failure, t) := by
    rw [← hruns]
    unfold runRounds
    rw [hlimit, hplan]
    cases hm : s.engine.plan.mode with
    | static => rfl
    | asynchronous => rfl
    | fullyAsynchronous => exact absurd hm hmode
  have hrefusal : (s.modifyContext (·.reset)).engine.refusal = none := refusal_of_sane hsane
  unfold run
  dsimp only
  rw [hrefusal, hrounds]
  cases failure <;> rfl

/-- A run in an engine with an order that its levels carry plays as many periods as the bound says,
unless a firing fails. -/
theorem run_of_along (hmode : s.engine.plan.mode ≠ .fullyAsynchronous)
    (hplays : Plays (s.engine.plan.mode = .asynchronous) s.frame)
    (hcarries : Steps.Along (s.engine.plan.graph.Ready s.engine.plan.room) s.engine.plan.graph.after
      s.engine.plan.order s.level)
    (hcycle : Steps.run s.engine.plan.graph.after s.engine.plan.order s.level = s.level)
    (hsane : s.engine.poisoned = none) {limit : Nat} (hlimit : s.context.limit.getD unbounded = limit) :
    (s.run.1.failure = none ∧ (s.run.2.stopRequested = false → s.run.1 = ⟨.success, limit, none⟩ ∧
      (s.modifyContext (·.reset)).Played (List.replicate limit s.engine.plan.order).flatten limit
        s.run.2)) ∨
    ∃ k failure t, s.run.1.failure = some failure ∧ s.run.2 = t.modifyContext (·.fail failure) ∧
      (s.modifyContext (·.reset)).Broken s.engine.plan.order k failure t := by
  subst hlimit
  have hruns := runPeriods_of_along (s := s.modifyContext (·.reset))
    (s.engine.plan.mode = .asynchronous) (s.context.limit.getD unbounded) hplays hcarries hcycle
  rcases hruns with ⟨t, hruns, k, -, ht, hdone⟩ | ⟨k, failure, t, hruns, hbroken⟩
  · left
    rw [run_of_ordered hmode hsane hruns]
    refine ⟨ht.failure, fun hstop ↦ ?_⟩
    obtain rfl := hdone hstop
    refine ⟨?_, ht⟩
    simp only [Context.report, ht.code, ht.iterations, ht.failure]
    simp [modifyContext, Context.reset, Context.new]
  · right
    rw [run_of_ordered hmode hsane hruns]
    exact ⟨k, failure, t, rfl, rfl, hbroken⟩

/-- A run with a bound, in an engine with an order, plays as many periods as the bound says. -/
theorem run_of_delay (hf : s.frame.Proper kind) (hmode : s.engine.plan.mode ≠ .fullyAsynchronous)
    (hmoves : s.frame.Moves kind)
    (hlevel : s.level = s.engine.plan.graph.delay) (hsane : s.engine.poisoned = none) {limit : Nat}
    (hlimit : s.context.limit = some limit) (hstop : s.run.2.stopRequested = false) :
    s.run.1 = ⟨.success, limit, none⟩ ∧ s.run.2.context.totalSkips = 0 ∧
      s.run.2.context.activations = limit * s.engine.plan.order.length ∧
      s.run.2.frame = s.frame ∧ s.run.2.level = s.engine.plan.graph.delay := by
  have hplays : Plays (s.engine.plan.mode = .asynchronous) s.frame := by
    refine ⟨fun t n hframe hready _ ↦ ?_, fun t n hframe hready ↦ ?_⟩
    · rcases readiness_eq (hframe ▸ hf) n with ⟨hproceed, -⟩ | ⟨-, hnot⟩
      · exact hproceed
      · exact absurd hready hnot
    · exact .inl (played_fire (hframe ▸ hf) (hframe ▸ hmoves) hready)
  have hcarries := hf.sound.carries
  have hcycle := hf.sound.period.run_eq hf.sound.balances
  change Steps.Along (s.engine.plan.graph.Ready s.engine.plan.room) s.engine.plan.graph.after
    s.engine.plan.order s.engine.plan.graph.delay at hcarries
  change Steps.run s.engine.plan.graph.after s.engine.plan.order s.engine.plan.graph.delay = _
    at hcycle
  rw [← hlevel] at hcarries hcycle
  rcases run_of_along hmode hplays hcarries (hcycle.trans hlevel.symm) hsane
    (congrArg (·.getD unbounded) hlimit) with
    ⟨-, hrun⟩ | ⟨k, failure, t, -, -, hbroken⟩
  · obtain ⟨hreport, hplayed⟩ := hrun hstop
    have hperiods := (hf.sound.carries_replicate limit).2
    refine ⟨hreport, hplayed.skips, ?_, hplayed.frame, ?_⟩
    · rw [hplayed.activations, List.length_flatten, List.map_replicate, List.sum_replicate, smul_eq_mul]
      exact Nat.zero_add _
    · rw [hplayed.level]
      change Steps.run s.engine.plan.graph.after _ s.level = _
      rw [hlevel]
      exact hperiods
  · -- no firing of a ready node fails
    obtain ⟨-, hplayed, hready, hfire⟩ := hbroken
    have hframe := hplayed.frame
    obtain ⟨u, hsuccess, -⟩ := played_fire (hframe ▸ hf) (hframe ▸ hmoves) hready
    rw [hfire] at hsuccess
    cases hsuccess

end Session

/-! ## A loop and two rates -/

namespace Looped

def octet : ElementType := ⟨"u8", 1⟩

def source : Node :=
  ⟨"a", 0, [⟨⟨octet, 1⟩, some 1⟩], [⟨⟨octet, 3⟩, some 0⟩, ⟨⟨octet, 1⟩, some 1⟩]⟩

def sink : Node := ⟨"b", 1, [⟨⟨octet, 2⟩, some 0⟩], []⟩

/-- Node `a` passes a token to itself and three to node `b`, which takes two at a time. -/
def graph : Graph where
  nodes := [source, sink]
  edges := [⟨.out 0 0, .into 1 0, 1, octet, 3, 2⟩, ⟨.out 0 1, .into 0 0, 1, octet, 1, 1⟩]

theorem built_graph : graph.Built := by
  have hnodes := Graph.Built.empty.addNode ⟨"a", none, [⟨octet, 1⟩], [⟨octet, 3⟩, ⟨octet, 1⟩]⟩
    |>.addNode ⟨"b", none, [⟨octet, 2⟩], []⟩
  have hfirst := hnodes.connect (rfl : Graph.connect _ (.out 0 0) (.into 1 0) 1 = .ok (0, _))
  exact hfirst.connect (rfl : Graph.connect _ (.out 0 1) (.into 0 0) 1 = .ok (1, graph))

def plan (mode : Mode) (capacities : List Nat) : Plan where
  mode := mode
  graph := graph
  repetitions := ⟨[2, 3]⟩
  order := [0, 0, 1, 1, 1]
  capacities := capacities

theorem compile_graph : graph.compile ⟨.static, 0, some 7, 100⟩ = .ok (plan .static [7, 2]) := by
  decide +kernel

def kind : EdgeId → Scalar := fun _ ↦ .u8

/-- The value that a node makes of its memory and of what it took. -/
def mix (memory : UInt8) : Except NodeError (List UInt8) → UInt8
  | .ok (value :: _) => value + memory
  | _ => memory

/-- Node `a` counts its runs. -/
def feeder : Behaviour Scalar UInt8 Unit where
  run := fun s ↦
    .call (.pop .u8 0 1) fun taken ↦
      .call (.push .u8 0 [mix s.1 taken, mix s.1 taken, s.1]) fun _ ↦
        .call (.push .u8 1 [mix s.1 taken]) fun _ ↦ .done (.ok .success, s.1 + 1, s.2)
  save := fun s ↦ (some [s.1], s)
  restore := fun blob s ↦ (.ok (), blob.headD 0, s.2)

/-- Node `b` adds up the first ones of what it takes. -/
def taker : Behaviour Scalar UInt8 Unit where
  run := fun s ↦
    .call (.pop .u8 0 2) fun taken ↦ .done (.ok .success, mix s.1 taken, s.2)
  save := fun s ↦ (some [s.1], s)
  restore := fun blob s ↦ (.ok (), blob.headD 0, s.2)

theorem exchanges_feeder {node : Node} (h : graph.nodes[0]? = some node) :
    feeder.Exchanges kind node := by
  cases h
  intro memory world given hgiven
  refine .pop_of_length (hgiven 0 1 1 rfl) rfl (by decide) ?_ fun _ ↦ trivial
  refine .push (rfl : source.outputAccess 0 = .ok (0, 3)) (by decide) trivial ?_ fun _ ↦ trivial
  exact .push (rfl : source.outputAccess 1 = .ok (1, 1)) (by decide) trivial (.done rfl)
    fun _ ↦ trivial

theorem exchanges_taker {node : Node} (h : graph.nodes[1]? = some node) :
    taker.Exchanges kind node := by
  cases h
  intro memory world given hgiven
  exact .pop_of_length (hgiven 0 0 2 rfl) rfl (by decide) (.done rfl) fun _ ↦ trivial

/-- Runs of the two nodes, which have no third output, leave the surroundings alone. -/
theorem leaves_feeder (memory : UInt8) (w : World Unit) :
    (feeder.run (memory, w)).Leaves .output 2 (·.2.2 = w) := by
  refine ⟨?_, fun taken ↦ ⟨?_, fun _ ↦ ⟨?_, fun _ ↦ rfl⟩⟩⟩ <;> simp [PortOp.Names]

theorem leaves_taker (memory : UInt8) (w : World Unit) :
    (taker.run (memory, w)).Leaves .output 2 (·.2.2 = w) := by
  refine ⟨?_, fun taken ↦ rfl⟩
  simp [PortOp.Names]

def calls : List (Bind Scalar UInt8 Unit) :=
  [.fifo 1 .u8, .node 1 ⟨taker, 0⟩, .node 0 ⟨feeder, 0⟩, .fifo 0 .u8]

theorem of_fifo_mem_calls {id : EdgeId} {k : Scalar} (h : .fifo id k ∈ calls) : k = .u8 := by
  simp only [calls, List.mem_cons, reduceCtorEq, Bind.fifo.injEq, List.not_mem_nil, or_false,
    false_or] at h
  exact h.elim And.right And.right

theorem kind_of_mem_calls (id : EdgeId) (k : Scalar) (h : (id, k) ∈ calls.filterMap Bind.queue?) :
    k = kind id := by
  simp only [calls, Bind.queue?, List.filterMap_cons, List.filterMap_nil, List.mem_cons,
    Prod.mk.injEq, List.not_mem_nil, or_false] at h
  exact h.elim And.right And.right

theorem of_node_mem_calls {n : NodeId} {i : Instance Scalar UInt8 Unit} (h : .node n i ∈ calls) :
    n = 1 ∧ i = ⟨taker, 0⟩ ∨ n = 0 ∧ i = ⟨feeder, 0⟩ := by
  simpa only [calls, List.mem_cons, reduceCtorEq, Bind.node.injEq, List.not_mem_nil, or_false,
    false_or] using h

theorem complete_calls (mode : Mode) (capacities : List Nat) :
    Binding.Complete (plan mode capacities) calls where
  nodes := .swap 0 1 []
  edges := .swap 0 1 []
  blank id k cells := by simp [calls]
  sizes {id k e} h he := by
    obtain rfl := of_fifo_mem_calls h
    have hsize : ∀ e ∈ graph.edges, e.element.size = ElementKind.size Scalar.u8 := by decide
    exact hsize e (List.mem_of_getElem? he)

def world : World Unit := ⟨.empty, ()⟩

end Looped

namespace Session

/-- An engine with an order, whose nodes use each port once, can fail to be built only by a node that
refuses to start. It runs as many periods as its context allows unless a stop is requested, every firing
succeeds, no node is passed over, and every edge ends with as many elements as it began with. -/
theorem run_of_exchanges {g : Graph} (hg : g.Built) {o : CompileOptions}
    (hmode : o.mode ≠ .fullyAsynchronous) {p : Plan} (hp : g.compile o = .ok p) {kind : EdgeId → κ}
    {calls : List (Bind κ σ ω)} (hcalls : Binding.Complete p calls)
    (hkind : ∀ (id : EdgeId) (k : κ), .fifo id k ∈ calls → k = kind id)
    (hnodes : ∀ (n : NodeId) (i : Instance κ σ ω), .node n i ∈ calls →
      (∀ v : PortView, i.behaviour.prepare v = pure v.readiness) ∧
        ∀ node, g.nodes[n]? = some node → i.behaviour.Exchanges kind node)
    (stop : StopToken) (w : World ω) :
    match (Binding.ofCalls p stop calls).build w with
    | (.error e, _) => ∃ n code, e = .nodeInit n code
    | (.ok e, _) => ∀ (c : Context) (limit : Nat) (w : World ω), c.limit = some limit →
        (Session.mk e c w).run.2.stopRequested = false →
        (Session.mk e c w).run.1 = ⟨.success, limit, none⟩ ∧
          (Session.mk e c w).run.2.context.totalSkips = 0 ∧
          (Session.mk e c w).run.2.context.activations = limit * p.order.length ∧
          (Session.mk e c w).run.2.levels = g.edges.map (·.delay.toNat) := by
  obtain ⟨hsound, -⟩ := Graph.sound_of_compile hg.coherent hp
  obtain ⟨-, -, -, -, rfl, hpmode⟩ := Graph.exists_of_compile hp
  rcases Binding.build_of_complete hsound hcalls stop w with ⟨e, w', hbuild⟩ | ⟨n, code, w', hbuild⟩
  · obtain ⟨hfresh, hbound⟩ := Binding.fresh_of_build (hcalls.kind_of_mem hkind) hbuild
    have hproper : e.frame.Proper kind := hfresh.proper hsound fun n i hi v ↦ by
      obtain ⟨j, hj, hsame⟩ := hbound n i hi
      rw [← hsame]
      exact (hnodes n j hj).1 v
    have hmoves : e.frame.Moves kind := hfresh.moves fun n i hi ↦ by
      obtain ⟨j, hj, hsame⟩ := hbound n i hi
      rw [← hsame]
      exact Behaviour.Exchanges.moves hg.coherent (hnodes n j hj).2
    rw [hbuild]
    intro c limit w hlimit hstop
    have hdelay : (Session.mk e c w).level = (Session.mk e c w).engine.plan.graph.delay :=
      hfresh.level.trans (by rw [← hfresh.plan])
    obtain ⟨hreport, hskips, hactivations, hframe, hlevel⟩ := run_of_delay
      (s := ⟨e, c, w⟩) hproper (by change e.plan.mode ≠ _; rw [hfresh.plan, hpmode]; exact hmode)
      hmoves hdelay hfresh.poisoned hlimit hstop
    refine ⟨hreport, hskips, ?_, ?_⟩
    · rw [hactivations]
      change limit * e.plan.order.length = _
      rw [hfresh.plan]
    · have hfit : Channel.Fit kind p.room p.graph.edges.length
          (Session.mk e c w).run.2.engine.channels :=
        (congrArg Frame.shape hframe).trans hfresh.fit
      refine levels_eq_of_level hfit (hlevel.trans ?_)
      change e.plan.graph.delay = _
      rw [hfresh.plan]
  · rw [hbuild]
    exact ⟨n, code, rfl⟩

theorem run_looped : ∃ e w,
    (Binding.ofCalls (Looped.plan .static [7, 2]) 0 Looped.calls).build Looped.world = (.ok e, w) ∧
      (Session.mk e (.new (some 3)) w).run.1 = ⟨.success, 3, none⟩ ∧
      (Session.mk e (.new (some 3)) w).run.2.context.activations = 15 ∧
      (Session.mk e (.new (some 3)) w).run.2.levels = [1, 1] := by
  have hmode : (CompileOptions.mk .static 0 (some 7) 100).mode ≠ .fullyAsynchronous := by decide
  have hnodes : ∀ n i, .node n i ∈ Looped.calls →
      (∀ v : PortView, i.behaviour.prepare v = pure v.readiness) ∧
        ∀ node, Looped.graph.nodes[n]? = some node → i.behaviour.Exchanges Looped.kind node := by
    intro n i h
    obtain ⟨rfl, rfl⟩ | ⟨rfl, rfl⟩ := Looped.of_node_mem_calls h
    · exact ⟨fun _ ↦ rfl, fun node ↦ Looped.exchanges_taker⟩
    · exact ⟨fun _ ↦ rfl, fun node ↦ Looped.exchanges_feeder⟩
  have h := run_of_exchanges Looped.built_graph hmode Looped.compile_graph
    (Looped.complete_calls .static [7, 2]) (fun id k ↦ Looped.of_fifo_mem_calls) hnodes 0 Looped.world
  obtain ⟨e, w, hbuild⟩ : ∃ e w,
      (Binding.ofCalls (Looped.plan .static [7, 2]) 0 Looped.calls).build Looped.world = (.ok e, w) :=
    ⟨_, _, rfl⟩
  rw [hbuild] at h
  obtain ⟨hreport, -, hactivations, hlevels⟩ :=
    h (.new (some 3)) 3 w rfl (by cases hbuild; decide +kernel)
  exact ⟨e, w, hbuild, hreport, hactivations, hlevels⟩

end Session

end Dataflow
