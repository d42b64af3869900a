import Dataflow.Proofs.Engine.Periods
import Dataflow.Proofs.Engine.Refusal

/-!
# Runs after a recoverable failure

In a fixed order a node may give up: it reports a recoverable error and has moved nothing. That ends the
run in the middle of a period, and the queues keep what the firings before it have left. The engine can be
run again, but the next run begins its order anew, and the capacities are made for an order that begins
at the initial levels. Whether the next run gets through depends on whether the order can be played from
the levels left behind.
-/

namespace Dataflow

variable {κ : Type} [ElementKind κ] {σ ω : Type}

/-- As node `n` of the plan the behaviour never declines. When its guard is satisfied it moves its rates
and succeeds, or gives up and moves nothing. -/
def Behaviour.MovesOrGivesUp (b : Behaviour κ σ ω) (p : Plan) (kind : EdgeId → κ) (n : NodeId) : Prop :=
  ∀ node, p.graph.nodes[n]? = some node → ∀ (memory : σ) (world : World ω)
    (channels : List (Channel κ)), Channel.Fit kind p.room p.graph.edges.length channels →
    ((b.run (memory, world)).exec node n channels).1.1 ≠ .ok .skip ∧
      (p.graph.Guarded p.room n (Channel.level channels) →
        ((b.run (memory, world)).exec node n channels).1.1 = .ok .success ∧
            Channel.level ((b.run (memory, world)).exec node n channels).2 =
              p.graph.after n (Channel.level channels) ∨
          ∃ code, ((b.run (memory, world)).exec node n channels).1.1 = .error (.recoverable code) ∧
            Channel.level ((b.run (memory, world)).exec node n channels).2 = Channel.level channels)

def Frame.MovesOrGivesUp (f : Frame κ σ ω) (kind : EdgeId → κ) : Prop :=
  ∀ (n : NodeId) (b : Behaviour κ σ ω), f.behaviours[n]? = some b → b.MovesOrGivesUp f.plan kind n

/-- The order can be played from the levels that the firings of `done` have left. -/
def Plan.Replayable (p : Plan) (done : List NodeId) : Prop :=
  Steps.Along (p.graph.Ready p.room) p.graph.after p.order (Steps.run p.graph.after done p.graph.delay)

namespace Session

/-- The run of `s` ends with a recoverable failure of the node that follows `done` in the order. The
firings of `done` are what the period at hand has moved; the engine stays usable. -/
structure BrokenOff (s : Session κ σ ω) (failure : Failure) (done : List NodeId) : Prop where
  failure_eq : s.run.1.failure = some failure
  recoverable : failure.fatal = false
  poisoned : s.run.2.engine.poisoned = none
  order : ∃ rest, s.engine.plan.order = done ++ failure.node :: rest
  frame : s.run.2.frame = s.frame
  level : s.run.2.level = Steps.run s.engine.plan.graph.after done s.level

variable {s t : Session κ σ ω} {kind : EdgeId → κ} {n : NodeId} {w : List NodeId}

/-! ## One firing -/

/-- A node that may give up does not decline, and when it is ready it runs well or leaves the levels as
they are. -/
theorem execute_of_movesOrGivesUp (hf : s.frame.Planned kind) (hnodes : s.frame.MovesOrGivesUp kind)
    (hn : n < s.engine.plan.graph.nodes.length) :
    (s.execute n).1 ≠ .ok .skip ∧
      (s.Ready n → (s.execute n).1 = .ok .success ∧
          (s.execute n).2.level = s.engine.plan.graph.after n s.level ∨
        ∃ code, (s.execute n).1 = .error (.recoverable code) ∧ (s.execute n).2.level = s.level) := by
  obtain ⟨i, node, hi, hnode⟩ := exists_instance hf hn
  obtain ⟨hstatus, hguarded⟩ := hnodes n i.behaviour (behaviours_of_getElem? hi) node hnode i.memory
    s.world s.engine.channels hf.shape
  constructor
  · rw [execute_eq hi hnode]
    change (s.outcomeOf n i node).1.1 ≠ .ok .skip at hstatus
    cases hresult : (s.outcomeOf n i node).1.1 with
    | error e =>
      intro hskip
      cases hskip
    | ok status =>
      simp only [verdict]
      split
      · rw [← hresult]
        exact hstatus
      · intro hskip
        cases hskip
  · intro hready
    rcases hguarded hready.2 with ⟨hresult, hlevel⟩ | ⟨code, hresult, hlevel⟩
    · exact .inl (execute_of_moved hf hready hi hnode hresult hlevel)
    · refine .inr ⟨code, ?_, ?_⟩
      · change (s.outcomeOf n i node).1.1 = _ at hresult
        rw [execute_eq hi hnode, hresult]
        rfl
      · rw [execute_eq hi hnode]
        exact hlevel

/-- What counts as a success was ready for it. -/
theorem ready_of_execute (hf : s.frame.Planned kind) (hloops : s.engine.plan.graph.LoopsKept s.level)
    (hn : n < s.engine.plan.graph.nodes.length) (h : (s.execute n).1 = .ok .success) :
    s.Ready n ∧ (s.execute n).2.level = s.engine.plan.graph.after n s.level := by
  obtain ⟨i, node, hi, hnode⟩ := exists_instance hf hn
  rw [execute_eq hi hnode] at h ⊢
  have hhonored : s.engine.plan.graph.ratesHonored n .success s.levels
      ((s.outcomeOf n i node).2.map Channel.available) := by
    unfold verdict at h
    split at h
    · cases h
    · split at h
      · cases h
        assumption
      · cases h
  have hguarded : s.engine.plan.graph.Guarded s.engine.plan.room n s.level :=
    hf.sound.coherent.guarded_of_ratesHonored _ hf.shape (hf.sound.loops hloops) hhonored
  refine ⟨⟨hn, hguarded⟩, ?_⟩
  exact (hf.sound.coherent.ratesHonored_exec_iff hnode _ (hguarded.fed hf.sound.coherent)).mp hhonored

/-- A ready node that may give up plays its firing, or the firing fails and the levels stay. -/
theorem fire_of_movesOrGivesUp (hf : s.frame.Planned kind) (hnodes : s.frame.MovesOrGivesUp kind)
    (hready : s.Ready n) :
    (∃ t, s.fire n false = (.ok .success, t) ∧ s.Played [n] 0 t) ∨
      ∃ failure t, s.fire n false = (.error failure, t) ∧ failure.node = n ∧ failure.fatal = false ∧
        t.engine.poisoned = s.engine.poisoned ∧ t.frame = s.frame ∧ t.level = s.level := by
  obtain ⟨-, hends⟩ := execute_of_movesOrGivesUp (s := s.observe (·.beforeActivation n)) hf hnodes
    hready.1
  rcases hends hready with ⟨hresult, hlevel⟩ | ⟨code, hresult, hlevel⟩
  · exact .inl (played_of_execute (Prod.ext hresult rfl) hlevel)
  · have hlocal := s.local_attempt n false
    rw [← s.attempt_false n] at hresult hlevel
    rcases s.fire_cases n false with ⟨status, hok, -⟩ | ⟨e, he, hfire⟩
    · rw [hresult] at hok
      cases hok
    · rw [hresult] at he
      cases he
      exact .inr ⟨_, _, hfire, rfl, rfl, hlocal.poisoned, hlocal.frame, hlevel⟩

theorem plays_of_movesOrGivesUp {f : Frame κ σ ω} (hf : f.Planned kind)
    (hnodes : f.MovesOrGivesUp kind) : Plays false f where
  asked _ _ _ _ := nofun
  fires s n hframe hready := by
    subst hframe
    rcases fire_of_movesOrGivesUp hf hnodes hready with hplayed | ⟨failure, t, hfire, -⟩
    · exact .inl hplayed
    · exact .inr ⟨failure, t, hfire⟩

/-! ## Whole runs -/

/-- A run whose order is carried by the levels plays all its periods, or a node gives up at its turn. -/
theorem run_of_movesOrGivesUp (hf : s.frame.Planned kind) (hnodes : s.frame.MovesOrGivesUp kind)
    (hmode : s.engine.plan.mode = .static)
    (hcarries : Steps.Along (s.engine.plan.graph.Ready s.engine.plan.room) s.engine.plan.graph.after
      s.engine.plan.order s.level)
    (hsane : s.engine.poisoned = none) {limit : Nat} (hlimit : s.context.limit.getD unbounded = limit) :
    (s.run.1.failure = none ∧
        (s.run.2.stopRequested = false → s.run.1 = ⟨.success, limit, none⟩)) ∨
      ∃ failure done, s.BrokenOff failure done := by
  have hcycle : Steps.run s.engine.plan.graph.after s.engine.plan.order s.level = s.level :=
    hf.sound.period.run_eq_of_along hf.sound.balances
      (hcarries.mono fun _ _ hready ↦ hready.fed hf.sound.coherent)
  have hplays : Plays (s.engine.plan.mode = .asynchronous) s.frame := by
    rw [hmode]
    exact plays_of_movesOrGivesUp hf hnodes
  rcases run_of_along (by rw [hmode]; nofun) hplays hcarries hcycle hsane hlimit with
    ⟨hfine, hrun⟩ | ⟨k, failure, t, hfailure, hend, hbroken⟩
  · exact .inl ⟨hfine, fun hstop ↦ (hrun hstop).1⟩
  · obtain ⟨horder, hplayed, hready, hfire⟩ := hbroken
    rename_i done rest n u
    have hframe : u.frame = s.frame := hplayed.frame
    rcases fire_of_movesOrGivesUp (hframe ▸ hf) (hframe ▸ hnodes) hready with
      ⟨v, hsuccess, -⟩ | ⟨failure', v, hfire', hnode, hfatal, hpoisoned, hframe', hlevel⟩
    · rw [hfire] at hsuccess
      cases hsuccess
    · rw [hfire] at hfire'
      cases hfire'
      refine .inr ⟨failure, done, hfailure, hfatal, ?_, ⟨rest, hnode ▸ horder⟩, ?_, ?_⟩
      · rw [hend]
        exact hpoisoned.trans (hplayed.poisoned.trans hsane)
      · rw [hend]
        exact hframe'.trans hframe
      · -- whole rounds leave no trace in the levels
        rw [hend]
        calc
          t.level = Steps.run s.engine.plan.graph.after
              ((List.replicate k s.engine.plan.order).flatten ++ done) s.level :=
            hlevel.trans hplayed.level
          _ = Steps.run s.engine.plan.graph.after done s.level := by
            rw [Steps.run_append, Steps.run_flatten_replicate hcycle]

/-- A period that is visited to its end was carried by the levels. -/
theorem along_of_visitPeriod (hf : s.frame.Planned kind) (hnodes : s.frame.MovesOrGivesUp kind)
    (hloops : s.engine.plan.graph.LoopsKept s.level)
    (hw : ∀ n ∈ w, n < s.engine.plan.graph.nodes.length) (h : (visitPeriod false w s).1 = none) :
    Steps.Along (s.engine.plan.graph.Ready s.engine.plan.room) s.engine.plan.graph.after w s.level := by
  induction w generalizing s with
  | nil => trivial
  | cons n w ih =>
    have hn := hw n (List.mem_cons_self ..)
    simp only [visitPeriod, Bool.false_eq_true, if_false] at h
    rcases s.fire_cases n false with ⟨status, hok, hfire⟩ | ⟨e, -, hfire⟩
    · have hexecute := hok
      rw [s.attempt_false n] at hexecute
      have hstatus : status = .success := by
        obtain ⟨hskip, -⟩ := execute_of_movesOrGivesUp (s := s.observe (·.beforeActivation n)) hf
          hnodes hn
        rw [hexecute] at hskip
        cases status with
        | success => rfl
        | skip => exact absurd rfl hskip
      subst hstatus
      obtain ⟨hready, hlevel⟩ := ready_of_execute (s := s.observe (·.beforeActivation n)) hf hloops
        hn hexecute
      obtain ⟨t, hfire, ht⟩ := played_of_execute (Prod.ext hexecute rfl) hlevel
      rw [hfire] at h
      have hrest := ih (s := t) (ht.frame ▸ hf) (ht.frame ▸ hnodes)
        (by rw [ht.plan, ht.level]; exact hf.sound.loopsKept_after hloops n)
        (fun m hm ↦ ht.plan ▸ hw m (List.mem_cons_of_mem _ hm)) h
      rw [ht.plan, ht.level] at hrest
      exact ⟨hready, hrest⟩
    · rw [hfire] at h
      cases h

/-- A run of at least one period that does not fail began at levels that carry its order. -/
theorem along_of_run (hf : s.frame.Planned kind) (hnodes : s.frame.MovesOrGivesUp kind)
    (hmode : s.engine.plan.mode = .static) (hloops : s.engine.plan.graph.LoopsKept s.level)
    (hsane : s.engine.poisoned = none) (hpos : 0 < s.context.limit.getD unbounded)
    (hstop : s.run.2.stopRequested = false) (h : s.run.1.failure = none) :
    Steps.Along (s.engine.plan.graph.Ready s.engine.plan.room) s.engine.plan.graph.after
      s.engine.plan.order s.level := by
  obtain ⟨rounds, hrounds⟩ := Nat.exists_eq_add_one.mpr hpos
  have hordered : s.engine.plan.mode ≠ .fullyAsynchronous := by
    rw [hmode]
    nofun
  rcases hruns : runPeriods false (rounds + 1) (s.modifyContext (·.reset)) with ⟨failure, t⟩
  have hchecked : runPeriods (s.engine.plan.mode = .asynchronous) (s.context.limit.getD unbounded)
      (s.modifyContext (·.reset)) = (failure, t) := by
    rw [hmode, hrounds]
    exact hruns
  rw [run_of_ordered hordered hsane hchecked] at h hstop
  cases failure with
  | some failure => cases h
  | none =>
    have hrunning : (s.modifyContext (·.reset)).stopRequested = false := by
      rw [Bool.eq_false_iff]
      intro hraised
      rw [runPeriods_of_stopRequested hraised] at hruns
      cases hruns
      rw [hraised] at hstop
      cases hstop
    rcases hvisit : visitPeriod false s.engine.plan.order
      (((s.modifyContext (·.reset)).modifyContext (·.beginPeriod)).observe
        (·.beforePeriod (s.modifyContext (·.reset)).context.iterations)) with ⟨_ | failure, u⟩
    · exact along_of_visitPeriod (s := ((s.modifyContext (·.reset)).modifyContext (·.beginPeriod)).observe
        (·.beforePeriod (s.modifyContext (·.reset)).context.iterations)) hf hnodes hloops
        (fun n ↦ hf.sound.period.lt_of_mem hf.sound.balances) (congrArg Prod.fst hvisit)
    · rw [runPeriods_succ_of_failure hrunning hvisit] at hruns
      cases hruns

/-- After a run that was broken off, the next one plays its periods if its order can be played from the
levels left behind, and only then. -/
theorem run_of_brokenOff (hf : s.frame.Planned kind) (hnodes : s.frame.MovesOrGivesUp kind)
    (hmode : s.engine.plan.mode = .static) (hlevel : s.level = s.engine.plan.graph.delay)
    {failure : Failure} {done : List NodeId} (hbroken : s.BrokenOff failure done)
    (hengine : t.engine = s.run.2.engine) {limit : Nat} (hlimit : t.context.limit.getD unbounded = limit)
    (hpos : 0 < limit) (hstop : t.run.2.stopRequested = false) :
    (s.engine.plan.Replayable done → t.run.1 = ⟨.success, limit, none⟩ ∨
        ∃ failure' done', t.BrokenOff failure' done') ∧
      (t.run.1.failure = none → s.engine.plan.Replayable done) := by
  have hframe : t.frame = s.frame := by
    rw [frame, hengine]
    exact hbroken.frame
  have hplan : t.engine.plan = s.engine.plan := plan_of_frame hframe
  have hleft : t.level = Steps.run s.engine.plan.graph.after done s.engine.plan.graph.delay := by
    rw [level, hengine, ← hlevel]
    exact hbroken.level
  have hsane : t.engine.poisoned = none := hengine ▸ hbroken.poisoned
  have hloops : t.engine.plan.graph.LoopsKept t.level := by
    rw [hplan, hleft]
    exact hf.sound.loopsKept_run (fun _ _ _ _ ↦ rfl) done
  constructor
  · intro hcarries
    rcases run_of_movesOrGivesUp (hframe ▸ hf) (hframe ▸ hnodes) (hplan ▸ hmode)
      (by rw [hplan, hleft]; exact hcarries) hsane hlimit with ⟨-, hrun⟩ | hbroken'
    · exact .inl (hrun hstop)
    · exact .inr hbroken'
  · intro hfine
    have hcarries := along_of_run (hframe ▸ hf) (hframe ▸ hnodes) (hplan ▸ hmode) hloops hsane
      (hlimit ▸ hpos) hstop hfine
    rw [hplan, hleft] at hcarries
    exact hcarries

end Session

/-! ## A node that gives up once -/

namespace Hesitant

def word : ElementType := ⟨"u32", 4⟩

/-- Node `a` gives one element at a time to node `b`. -/
def graph : Graph where
  nodes := [⟨"a", 0, [], [⟨⟨word, 1⟩, some 0⟩]⟩, ⟨"b", 1, [⟨⟨word, 1⟩, some 0⟩], []⟩]
  edges := [⟨.out 0 0, .into 1 0, 0, word, 1, 1⟩]

theorem built_graph : graph.Built := by
  have hnodes := Graph.Built.empty.addNode ⟨"a", none, [], [⟨word, 1⟩]⟩
    |>.addNode ⟨"b", none, [⟨word, 1⟩], []⟩
  exact hnodes.connect (rfl : Graph.connect _ (.out 0 0) (.into 1 0) 0 = .ok (0, graph))

def plan : Plan where
  mode := .static
  graph := graph
  repetitions := ⟨[1, 1]⟩
  order := [0, 1]
  capacities := [1]

theorem compile_graph : graph.compile .default = .ok plan := by decide +kernel

def kind : EdgeId → Scalar := fun _ ↦ .u32

def source : Behaviour Scalar UInt32 Unit where
  run := fun s ↦ .call (.push .u32 0 [s.1]) fun pushed ↦ .done (pushed.map fun _ ↦ .success, s.1 + 1, s.2)

def sink : Behaviour Scalar UInt32 Unit where
  run := fun s ↦ .call (.pop .u32 0 1) fun taken ↦ .done (taken.map fun _ ↦ .success, s.1, s.2)

/-- A sink that gives up in its first run. -/
def hesitant : Behaviour Scalar UInt32 Unit where
  run := fun s ↦ if s.1 = 0 then .done (.error (.recoverable (.node 5)), 1, s.2) else sink.run s

def calls : List (Bind Scalar UInt32 Unit) := [.node 0 ⟨source, 0⟩, .node 1 ⟨hesitant, 0⟩, .fifo 0 .u32]

def world : World Unit := ⟨.empty, ()⟩

theorem complete_calls : Binding.Complete plan calls where
  nodes := .refl _
  edges := .refl _
  blank id k cells := by simp [calls]
  sizes {id k e} h he := by
    simp only [calls, List.mem_cons, reduceCtorEq, Bind.fifo.injEq, List.not_mem_nil, or_false,
      false_or] at h
    obtain ⟨-, rfl⟩ := h
    have hsize : ∀ e ∈ graph.edges, e.element.size = ElementKind.size Scalar.u32 := by decide
    exact hsize e (List.mem_of_getElem? he)

/-- A firing that ends as its one operation does is no decline. -/
theorem ne_skip_of_call {node : Node} {n : NodeId} {op : PortOp Scalar} {memory : UInt32}
    {w : World Unit} (channels : List (Channel Scalar)) :
    ((Activity.call op fun answer ↦
      .done (answer.map fun _ ↦ RunStatus.success, memory, w)).exec node n channels).1.1 ≠
        .ok .skip := by
  cases h : op.reserve node channels with
  | ok r =>
    rw [Activity.exec_call_of_ok h]
    exact nofun
  | error e =>
    rw [Activity.exec_call_of_error h]
    exact nofun

theorem exchanges_source {node : Node} (h : graph.nodes[0]? = some node) :
    source.Exchanges kind node := by
  cases h
  intro memory world given hgiven
  exact .push rfl (by decide) trivial (.done rfl) fun _ ↦ trivial

theorem exchanges_sink {node : Node} (h : graph.nodes[1]? = some node) : sink.Exchanges kind node := by
  cases h
  intro memory world given hgiven
  exact .pop_of_length (hgiven 0 0 1 rfl) rfl (by decide) (.done rfl) fun _ ↦ trivial

theorem movesOrGivesUp_source : source.MovesOrGivesUp plan kind 0 := by
  have hmoves := Behaviour.Exchanges.moves (p := plan) built_graph.coherent fun _ ↦ exchanges_source
  intro node hnode memory world channels hfit
  exact ⟨ne_skip_of_call channels, fun hguarded ↦
    .inl (hmoves node hnode memory world channels hfit hguarded)⟩

theorem movesOrGivesUp_hesitant : hesitant.MovesOrGivesUp plan kind 1 := by
  have hmoves := Behaviour.Exchanges.moves (p := plan) built_graph.coherent fun _ ↦ exchanges_sink
  intro node hnode memory world channels hfit
  by_cases hfirst : memory = 0
  · simp only [hesitant, if_pos hfirst]
    exact ⟨nofun, fun _ ↦ .inr ⟨_, rfl, rfl⟩⟩
  · simp only [hesitant, if_neg hfirst]
    exact ⟨ne_skip_of_call channels, fun hguarded ↦
      .inl (hmoves node hnode memory world channels hfit hguarded)⟩

/-- Once node `a` has fired, the only place is taken. -/
theorem not_replayable : ¬ plan.Replayable [0] := by
  have hfull : ∀ level : Levels, level 0 = 1 → ¬ plan.graph.Guarded plan.room 0 level := by
    intro level hlevel hguarded
    have hroom := (built_graph.coherent.guarded_iff.mp hguarded).2 0
    rw [hlevel] at hroom
    exact absurd hroom (by decide)
  intro h
  exact hfull _ rfl h.1.2

end Hesitant

namespace Session

/-- A run of a static schedule, begun at the initial levels, fails only when a node gives up at its turn.
The next run of one period or more, in which no node gives up, plays all its periods when its order can
be played from the levels left behind, and fails when it cannot. -/
theorem rerun_of_recoverable {g : Graph} (hg : g.Built) {o : CompileOptions} (hmode : o.mode = .static)
    {p : Plan} (hp : g.compile o = .ok p) {kind : EdgeId → κ} {calls : List (Bind κ σ ω)}
    (hcalls : Binding.Complete p calls)
    (hkind : ∀ (id : EdgeId) (k : κ), .fifo id k ∈ calls → k = kind id)
    (hnodes : ∀ (n : NodeId) (i : Instance κ σ ω), .node n i ∈ calls →
      i.behaviour.MovesOrGivesUp p kind n)
    (stop : StopToken) (w : World ω) :
    match (Binding.ofCalls p stop calls).build w with
    | (.error e, _) => ∃ n code, e = .nodeInit n code
    | (.ok e, _) => ∀ (c : Context) (w : World ω) (failure : Failure),
        (Session.mk e c w).run.1.failure = some failure →
        ∃ done, (Session.mk e c w).BrokenOff failure done ∧
          ∀ (c' : Context) (limit : Nat) (w' : World ω), c'.limit = some limit → 0 < limit →
            (Session.mk (Session.mk e c w).run.2.engine c' w').run.2.stopRequested = false →
            (p.Replayable done →
              (Session.mk (Session.mk e c w).run.2.engine c' w').run.1 = ⟨.success, limit, none⟩ ∨
                ∃ failure' done',
                  (Session.mk (Session.mk e c w).run.2.engine c' w').BrokenOff failure' done') ∧
            ((Session.mk (Session.mk e c w).run.2.engine c' w').run.1.failure = none →
              p.Replayable done) := by
  obtain ⟨hsound, -⟩ := Graph.sound_of_compile hg.coherent hp
  obtain ⟨-, -, -, -, rfl, hpmode⟩ := Graph.exists_of_compile hp
  rcases Binding.build_of_complete hsound hcalls stop w with ⟨e, w', hbuild⟩ | ⟨n, code, w', hbuild⟩
  · obtain ⟨hfresh, hbound⟩ := Binding.fresh_of_build (hcalls.kind_of_mem hkind) hbuild
    have hplanned : e.frame.Planned kind := hfresh.planned hsound
    have hplan : e.plan = p := hfresh.plan
    have hmoves : e.frame.MovesOrGivesUp kind := by
      intro n b hb
      obtain ⟨i, hi, rfl⟩ := Engine.exists_of_behaviours hb
      obtain ⟨j, hj, hsame⟩ := hbound n i hi
      rw [← hsame]
      change j.behaviour.MovesOrGivesUp e.plan kind n
      rw [hplan]
      exact hnodes n j hj
    rw [hbuild]
    intro c w failure hfailure
    have hstatic : (Session.mk e c w).engine.plan.mode = .static := by
      change e.plan.mode = _
      rw [hplan, hpmode, hmode]
    have hdelay : (Session.mk e c w).level = (Session.mk e c w).engine.plan.graph.delay := by
      change _ = e.plan.graph.delay
      rw [hplan]
      exact hfresh.level
    have hcarries : Steps.Along (e.plan.graph.Ready e.plan.room) e.plan.graph.after e.plan.order
        (Session.mk e c w).level := by
      rw [hdelay]
      exact hplanned.sound.carries
    rcases run_of_movesOrGivesUp (s := ⟨e, c, w⟩) hplanned hmoves hstatic hcarries hfresh.poisoned
      rfl with ⟨hfine, -⟩ | ⟨failure', done, hbroken⟩
    · rw [hfine] at hfailure
      cases hfailure
    · cases Option.some.inj (hfailure.symm.trans hbroken.failure_eq)
      refine ⟨done, hbroken, fun c' limit w' hlimit hpos hstop ↦ ?_⟩
      rw [← hplan]
      exact run_of_brokenOff (s := ⟨e, c, w⟩) (t := ⟨_, c', w'⟩) hplanned hmoves hstatic hdelay
        hbroken rfl (congrArg (·.getD unbounded) hlimit) hpos hstop
  · rw [hbuild]
    exact ⟨n, code, rfl⟩

/-- The first run is broken off behind node `a`, and the second one does not get through. -/
theorem rerun_hesitant : ∃ e w failure,
    (Binding.ofCalls Hesitant.plan 0 Hesitant.calls).build Hesitant.world = (.ok e, w) ∧
      (Session.mk e (.new (some 1)) w).BrokenOff failure [0] ∧
      (Session.mk (Session.mk e (.new (some 1)) w).run.2.engine (.new (some 1)) w).run.1.failure ≠
        none := by
  have hnodes : ∀ n i, .node n i ∈ Hesitant.calls →
      i.behaviour.MovesOrGivesUp Hesitant.plan Hesitant.kind n := by
    intro n i h
    simp only [Hesitant.calls, List.mem_cons, Bind.node.injEq, reduceCtorEq, List.not_mem_nil,
      or_false] at h
    rcases h with ⟨rfl, rfl⟩ | ⟨rfl, rfl⟩
    · exact Hesitant.movesOrGivesUp_source
    · exact Hesitant.movesOrGivesUp_hesitant
  have hkind : ∀ id k, .fifo id k ∈ Hesitant.calls → k = Hesitant.kind id := by
    intro id k h
    simp only [Hesitant.calls, List.mem_cons, Bind.fifo.injEq, reduceCtorEq, List.not_mem_nil,
      or_false, false_or] at h
    exact h.2
  have h := rerun_of_recoverable Hesitant.built_graph rfl Hesitant.compile_graph
    Hesitant.complete_calls hkind hnodes 0 Hesitant.world
  obtain ⟨e, w, hbuild⟩ : ∃ e w,
      (Binding.ofCalls Hesitant.plan 0 Hesitant.calls).build Hesitant.world = (.ok e, w) :=
    ⟨_, _, rfl⟩
  rw [hbuild] at h
  obtain ⟨done, hbroken, hnext⟩ := h (.new (some 1)) w ⟨.node 5, 1, 1, false⟩
    (by cases hbuild; decide +kernel)
  obtain ⟨rest, horder⟩ := hbroken.order
  have hdone : [0, 1] = done ++ 1 :: rest := by
    cases hbuild
    exact horder
  obtain rfl : done = [0] := by
    rcases done with - | ⟨n, - | ⟨m, done⟩⟩ <;> simp_all
  obtain ⟨-, hfine⟩ := hnext (.new (some 1)) 1 w rfl Nat.one_pos (by cases hbuild; decide +kernel)
  exact ⟨e, w, _, hbuild, hbroken, fun hnone ↦ Hesitant.not_replayable (hfine hnone)⟩

/-- The second run overflows at node `a`, though every node takes and gives what it declares. -/
theorem rerun_overflows : ∃ e w,
    (Binding.ofCalls Hesitant.plan 0 Hesitant.calls).build Hesitant.world = (.ok e, w) ∧
      (Session.mk e (.new (some 1)) w).run.1.failure = some ⟨.node 5, 1, 1, false⟩ ∧
      (Session.mk (Session.mk e (.new (some 1)) w).run.2.engine (.new (some 1)) w).run.1 =
        ⟨.bufferOverflow, 0, some ⟨.bufferOverflow, 0, 0, false⟩⟩ :=
  ⟨_, _, rfl, by decide +kernel, by decide +kernel⟩

end Session

end Dataflow
