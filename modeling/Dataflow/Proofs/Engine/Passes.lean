import Dataflow.Proofs.Engine.Calls
import Dataflow.Proofs.Engine.Parking
import Dataflow.Proofs.Engine.Periods
import Dataflow.Proofs.Schedule.Liveness

/-!
# Runs without an order

Where guards alone tell which node is next, the levels stay among those that guarded firings reach, and
there some node is always ready. It stays ready until it is visited, so every pass fires a node, a search
for a ready node finds one, and a run goes on as long as its context allows.
-/

namespace Dataflow

variable {κ : Type} [ElementKind κ] {σ ω α : Type}

/-! ## Surroundings in which nobody stops the engine -/

/-- Whatever the nodes and the observers do, the surroundings stay `calm`, and then no stop is
requested. -/
structure Frame.Calm (f : Frame κ σ ω) (calm : World ω → Prop) : Prop where
  lowered {w : World ω} (h : calm w) : w.stops.isRaised f.stop = false
  beforePeriod {w : World ω} (h : calm w) (i : Nat) : calm (f.hooks.beforePeriod i w)
  afterPeriod {w : World ω} (h : calm w) (i : Nat) : calm (f.hooks.afterPeriod i w)
  beforeActivation {w : World ω} (h : calm w) (n : NodeId) : calm (f.hooks.beforeActivation n w)
  afterActivation {w : World ω} (h : calm w) (n : NodeId) (o : Outcome) :
    calm (f.hooks.afterActivation n o w)
  run {b : Behaviour κ σ ω} (hb : b ∈ f.behaviours) {w : World ω} (h : calm w) (memory : σ)
    (node : Node) (n : NodeId) (channels : List (Channel κ)) :
    calm ((b.run (memory, w)).exec node n channels).1.2.2
  save {b : Behaviour κ σ ω} (hb : b ∈ f.behaviours) {w : World ω} (h : calm w) (memory : σ) :
    calm (b.save (memory, w)).2.2
  restore {b : Behaviour κ σ ω} (hb : b ∈ f.behaviours) {w : World ω} (h : calm w) (memory : σ)
    (blob : Blob) : calm (b.restore blob (memory, w)).2.2

namespace Session

variable {s t : Session κ σ ω} {n : NodeId} {kind : EdgeId → κ} {calm : World ω → Prop}

theorem calm_callNode (h : calm s.world) (n : NodeId) (absent : α)
    (callback : Behaviour κ σ ω → Callback σ ω α)
    (hcallback : ∀ b ∈ s.frame.behaviours, ∀ memory, calm (callback b (memory, s.world)).2.2) :
    calm (s.callNode n absent callback).2.world := by
  cases hi : s.engine.nodes[n]? with
  | none =>
    simp only [callNode, hi]
    exact h
  | some i =>
    rw [callNode_eq hi]
    exact hcallback _ (List.mem_of_getElem? (behaviours_of_getElem? hi)) _

theorem calm_restoreParked (hc : s.frame.Calm calm) (h : calm s.world) (n : NodeId) :
    calm (s.restoreParked n).2.world :=
  restoreParked_induction (P := fun t ↦ calm t.world) h
    (fun blob ↦ calm_callNode (s := s.modifyContext (·.unpark n)) h n (.ok ()) (·.restore blob)
      fun _ hb memory ↦ hc.restore hb h memory blob) fun _ _ ht ↦ ht

theorem calm_savePark (hc : s.frame.Calm calm) (h : calm s.world) (n : NodeId) :
    calm (s.savePark n).world :=
  savePark_induction (P := fun t ↦ calm t.world)
    (calm_callNode h n none (·.save) fun _ hb memory ↦ hc.save hb h memory) fun _ _ ht ↦ ht

theorem calm_execute (hc : s.frame.Calm calm) (h : calm s.world) (n : NodeId) :
    calm (s.execute n).2.world := by
  cases hi : s.engine.nodes[n]? with
  | none =>
    simp only [execute, hi]
    exact h
  | some i =>
    cases hnode : s.engine.plan.graph.nodes[n]? with
    | none =>
      simp only [execute, hi, hnode]
      exact h
    | some node =>
      rw [execute_eq hi hnode]
      exact hc.run (List.mem_of_getElem? (behaviours_of_getElem? hi)) h _ _ _ _

theorem calm_resume (hc : s.frame.Calm calm) (h : calm s.world) (n : NodeId) (persist : Bool) :
    calm (s.resume n persist).2.world := by
  have hbefore : calm (s.observe (·.beforeActivation n)).world := hc.beforeActivation h n
  unfold resume
  split
  · exact calm_restoreParked (s := s.observe (·.beforeActivation n)) hc hbefore n
  · exact hbefore

theorem calm_perform (hc : s.frame.Calm calm) (h : calm s.world) (n : NodeId) (persist : Bool) :
    calm (s.perform n persist).2.world := by
  have hexecute := calm_execute hc h n
  unfold perform
  split
  · exact calm_savePark ((s.frame_execute n).symm ▸ hc) hexecute n
  · exact hexecute

theorem calm_attempt (hc : s.frame.Calm calm) (h : calm s.world) (n : NodeId) (persist : Bool) :
    calm (s.attempt n persist).2.world := by
  have hresume : (s.resume n persist).2.frame.Calm calm ∧ calm (s.resume n persist).2.world :=
    ⟨(s.local_resume n persist).frame.symm ▸ hc, calm_resume hc h n persist⟩
  refine (attempt_induction (P := fun t ↦ t.frame.Calm calm ∧ calm t.world) hresume
    fun t ht ↦ ⟨?_, calm_perform ht.1 ht.2 n persist⟩).2
  rw [(t.local_perform n persist).frame]
  exact ht.1

/-! ## Engines at reachable levels -/

/-- The engine has been driven by guarded firings only. -/
structure Live (kind : EdgeId → κ) (s : Session κ σ ω) : Prop where
  proper : s.frame.Proper kind
  moves : s.frame.Moves kind
  sane : s.engine.poisoned = none
  reached : s.engine.plan.Reaches s.level
  takes : ∀ b ∈ s.frame.behaviours, b.TakesBack
  parks : s.persists → Parks s.frame s.context.parked

theorem Live.of_eq (h : s.Live kind) (hframe : t.frame = s.frame) (hlevel : t.level = s.level)
    (hpoisoned : t.engine.poisoned = s.engine.poisoned)
    (hparked : t.context.parked = s.context.parked) : t.Live kind := by
  have hplan : t.engine.plan = s.engine.plan := congrArg Frame.plan hframe
  refine ⟨hframe ▸ h.proper, hframe ▸ h.moves, hpoisoned.trans h.sane, ?_, hframe ▸ h.takes,
    fun hpersists ↦ ?_⟩
  · rw [hplan, hlevel]
    exact h.reached
  · rw [hframe, hparked]
    refine h.parks ?_
    rwa [persists, hplan] at hpersists

theorem Live.length_eq (h : s.Live kind) :
    s.engine.nodes.length = s.engine.plan.graph.nodes.length := by
  simpa [frame, Engine.frame] using h.proper.length

/-- A ready node fires, and the engine is as lively as before. -/
theorem Live.fire (h : s.Live kind) (hready : s.Ready n) :
    ∃ t, s.fire n s.persists = (.ok .success, t) ∧ t.Live kind ∧ t.frame = s.frame ∧
      t.level = s.engine.plan.graph.after n s.level ∧
      t.context = { s.context.recordActivation with parked := t.context.parked } ∧
      ∀ {calm : World ω → Prop}, s.frame.Calm calm → calm s.world → calm t.world := by
  have hlocal := s.local_attempt n s.persists
  have hn : n < s.engine.nodes.length := h.length_eq ▸ hready.1
  have hresume : (s.resume n s.persists).1 = .ok () := by
    cases hpersists : s.persists with
    | false => rfl
    | true => exact (parks_attempt h.takes (h.parks hpersists) hn).1
  obtain ⟨hfire, hlevel⟩ := fire_of_ready h.proper h.moves hready hresume
  refine ⟨_, hfire, ?_, hlocal.frame, hlevel, ?_, fun {calm} hc hcalm ↦ ?_⟩
  · have hplan : (s.attempt n s.persists).2.engine.plan = s.engine.plan :=
      congrArg Frame.plan hlocal.frame
    refine ⟨hlocal.frame ▸ h.proper, hlocal.frame ▸ h.moves, hlocal.poisoned.trans h.sane, ?_,
      hlocal.frame ▸ h.takes, fun hpersists ↦ ?_⟩
    · have hreached := h.reached.after hready
      change s.engine.plan.Reaches (s.engine.plan.graph.after n s.level) at hreached
      rw [← hlevel, ← hplan] at hreached
      exact hreached
    · have hpersists' : s.persists = true := by
        change (s.attempt n s.persists).2.persists = true at hpersists
        rwa [persists, hplan] at hpersists
      have hparks := (parks_attempt h.takes (h.parks hpersists') hn).2
      change Parks (s.attempt n s.persists).2.frame (s.attempt n s.persists).2.context.parked
      rw [hlocal.frame, hpersists']
      exact hparks
  · have hcontext := congrArg Context.recordActivation hlocal.context
    exact hcontext
  · change calm ((s.attempt n s.persists).2.engine.hooks.afterActivation n _ _)
    have hhooks : (s.attempt n s.persists).2.engine.hooks = s.engine.hooks :=
      congrArg Frame.hooks hlocal.frame
    rw [hhooks]
    exact hc.afterActivation (calm_attempt hc hcalm n s.persists) n _

/-- All that can happen in a call keeps an engine lively; a fixed order is not asked for readiness, so it
is not run. -/
theorem lockstep_live (f : Frame κ σ ω) (kind : EdgeId → κ) :
    Lockstep f.plan.mode
      (fun n channels ↦ f.plan.graph.Ready f.plan.room n (Channel.level channels))
      (fun s t : Session κ σ ω ↦ t = s ∧ s.frame = f ∧ s.Live kind) (fun _ _ ↦ False) where
  mode h := congrArg (·.plan.mode) h.2.1
  plan h := by rw [h.1]
  cursor h := by rw [h.1]
  context h := by rw [h.1]
  sane {s t} h := by
    obtain ⟨rfl, -, hlive⟩ := h
    exact ⟨hlive.sane, hlive.sane⟩
  stopped h := by rw [h.1]
  status {s t} h f hf := by
    obtain ⟨rfl, hframe, hlive⟩ := h
    exact ⟨rfl, hframe, hlive.of_eq rfl rfl rfl (hf _)⟩
  status_failed h _ _ := h
  moved {s t} h cursor := by
    obtain ⟨rfl, hframe, hlive⟩ := h
    exact ⟨rfl, hframe, hlive.of_eq rfl rfl rfl rfl⟩
  before {s t} h i := by
    obtain ⟨rfl, hframe, hlive⟩ := h
    exact ⟨rfl, hframe, hlive.of_eq rfl rfl rfl rfl⟩
  after {s t} h i := by
    obtain ⟨rfl, hframe, hlive⟩ := h
    exact ⟨rfl, hframe, hlive.of_eq rfl rfl rfl rfl⟩
  asked {s t} h n := by
    obtain ⟨rfl, rfl, hlive⟩ := h
    rcases readiness_eq hlive.proper n with ⟨hproceed, hready⟩ | ⟨hskip, -⟩
    · exact .inr ⟨⟨hproceed, hproceed⟩, hready⟩
    · exact .inl ⟨hskip, hskip⟩
  fired {s t} h n hok := by
    obtain ⟨rfl, rfl, hlive⟩ := h
    obtain ⟨u, hu, hlive', hframe, -⟩ := hlive.fire hok
    exact .inl ⟨.success, u, u, hu, hu, rfl, hframe, hlive'⟩

/-! ## Passes -/

theorem Live.exists_ready (h : s.Live kind) : ∃ n ∈ s.engine.plan.firingOrder, s.Ready n := by
  obtain ⟨n, hn⟩ := h.proper.sound.exists_ready h.reached
  exact ⟨n, h.proper.sound.mem_firingOrder hn.1, hn⟩

/-- A pass visits all its nodes, and it fires one if one of them is ready. -/
theorem visitPass_of_live (h : s.Live kind) (hmode : s.persists = true) (hc : s.frame.Calm calm)
    (hcalm : calm s.world) (iteration : Nat) (order : List NodeId) (started : Bool) :
    ∃ begun t, visitPass iteration order started s = (.ok ⟨begun, false⟩, t) ∧ t.Live kind ∧
      t.frame = s.frame ∧ calm t.world ∧ t.context.report = s.context.report ∧
      (started = true ∨ (∃ n ∈ order, s.Ready n) → begun = true) := by
  induction order generalizing s started with
  | nil => exact ⟨started, s, rfl, h, rfl, hcalm, rfl, fun hor ↦ hor.resolve_right (by simp)⟩
  | cons n rest ih =>
    have hstop : s.stopRequested = false := hc.lowered hcalm
    unfold visitPass
    rw [if_neg (by simp [hstop])]
    rcases readiness_eq h.proper n with ⟨hproceed, hready⟩ | ⟨hskip, hnot⟩
    · rw [hproceed]
      dsimp only
      -- The observers may be told first that the pass begins.
      have hbegin : ∃ t : Session κ σ ω,
          (if started then s else s.observe (·.beforePeriod iteration)) = t ∧
          t.Live kind ∧ t.frame = s.frame ∧ calm t.world ∧ t.context = s.context ∧
          t.level = s.level ∧ t.persists = true := by
        cases started with
        | true => exact ⟨s, rfl, h, rfl, hcalm, rfl, rfl, hmode⟩
        | false => exact ⟨_, rfl, h.of_eq rfl rfl rfl rfl, rfl, hc.beforePeriod hcalm iteration, rfl,
            rfl, hmode⟩
      obtain ⟨t, ht, hlive, hframe, hcalm', hcontext, hlevel, hmode'⟩ := hbegin
      rw [ht]
      have hready' : t.Ready n := by
        rw [Ready, plan_of_frame hframe, hlevel]
        exact hready
      obtain ⟨u, hfire, hu, huframe, -, hucontext, hucalm⟩ := hlive.fire hready'
      rw [hmode'] at hfire
      rw [hfire]
      have hframe' := huframe.trans hframe
      obtain ⟨begun, v, hv, hvlive, hvframe, hvcalm, hvreport, hvbegun⟩ := ih (s := u) hu
        ((persists_of_frame hframe').trans hmode) (hframe' ▸ hc)
        (hucalm (hframe ▸ hc) hcalm') true
      refine ⟨begun, v, hv, hvlive, hvframe.trans hframe', hvcalm, ?_, fun _ ↦ hvbegun (.inl rfl)⟩
      rw [hvreport, congrArg Context.report hucontext, hcontext]
      rfl
    · rw [hskip]
      dsimp only
      obtain ⟨begun, v, hv, hvlive, hvframe, hvcalm, hvreport, hvbegun⟩ :=
        ih (s := s.modifyContext (·.recordSkip n)) (h.of_eq rfl rfl rfl rfl) hmode hc hcalm started
      refine ⟨begun, v, hv, hvlive, hvframe, hvcalm, hvreport, fun hor ↦ hvbegun (hor.imp_right ?_)⟩
      rintro ⟨m, hm, hready⟩
      rcases List.mem_cons.mp hm with rfl | hm
      · exact absurd hready hnot
      · exact ⟨m, hm, hready⟩

/-- A lively engine that nobody stops completes all passes. -/
theorem runPasses_of_live (h : s.Live kind) (hmode : s.persists = true) (hc : s.frame.Calm calm)
    (hcalm : calm s.world) (rounds : Nat) :
    ∃ t, runPasses rounds s = (none, t) ∧
      t.context.report = { s.context.report with iterations := s.context.iterations + rounds } := by
  induction rounds generalizing s with
  | zero => exact ⟨s, rfl, rfl⟩
  | succ rounds ih =>
    have hstop : s.stopRequested = false := hc.lowered hcalm
    obtain ⟨begun, t, hvisit, hlive, hframe, hcalm', hreport, hbegun⟩ := visitPass_of_live
      (s := s.modifyContext (·.beginPeriod)) (h.of_eq rfl rfl rfl rfl) hmode hc hcalm
      s.context.iterations s.engine.plan.firingOrder false
    obtain rfl := hbegun (.inr h.exists_ready)
    have hframe' : t.frame = s.frame := hframe
    have hhooks : t.engine.hooks = s.engine.hooks := congrArg Frame.hooks hframe'
    have hworld : calm (t.closeRound s.context.iterations).world := by
      change calm (t.engine.hooks.afterPeriod _ _)
      rw [hhooks]
      exact hc.afterPeriod hcalm' _
    obtain ⟨u, hrest, hrestreport⟩ := ih (s := t.closeRound s.context.iterations)
      (hlive.of_eq rfl rfl rfl rfl) ((persists_of_frame hframe').trans hmode)
      (hframe' ▸ hc) hworld
    refine ⟨u, ?_, ?_⟩
    · unfold runPasses
      rw [if_neg (by simp [hstop])]
      dsimp only
      have horder : (s.modifyContext (·.beginPeriod)).engine.plan.firingOrder =
          s.engine.plan.firingOrder := rfl
      rw [horder, hvisit]
      exact hrest
    · have hiterations : t.context.iterations = s.context.iterations :=
        congrArg RunReport.iterations hreport
      have hcode : t.context.code = s.context.code := congrArg RunReport.code hreport
      have hfailure : t.context.failure = s.context.failure := congrArg RunReport.failure hreport
      rw [hrestreport]
      simp only [Context.report, closeRound, observe, modifyContext, Context.completePeriod,
        hiterations, hcode, hfailure, Nat.add_assoc, Nat.add_comm 1]

/-- A run that nobody stops ends after as many passes as its context allows. -/
theorem run_of_live (h : s.Live kind) (hmode : s.persists = true) (hc : s.frame.Calm calm)
    (hcalm : calm s.world) {limit : Nat} (hlimit : s.context.limit = some limit) :
    s.run.1 = ⟨.success, limit, none⟩ := by
  obtain ⟨t, hpasses, hreport⟩ := runPasses_of_live (s := s.modifyContext (·.reset))
    (h.of_eq rfl rfl rfl rfl) hmode hc hcalm limit
  have hrounds : (s.modifyContext (·.reset)).runRounds =
      runPasses limit (s.modifyContext (·.reset)) := by
    have hlimit' : (s.modifyContext (·.reset)).context.limit = some limit := hlimit
    have hplan : (s.modifyContext (·.reset)).engine.plan.mode = .fullyAsynchronous :=
      of_decide_eq_true hmode
    unfold runRounds
    rw [hlimit', hplan]
    rfl
  have hrefusal : (s.modifyContext (·.reset)).engine.refusal = none := refusal_of_sane h.sane
  have hrun : s.run = (t.context.report, t) := by
    unfold run
    dsimp only
    rw [hrefusal, hrounds, hpasses]
  rw [hrun, hreport]
  simp [modifyContext, Context.report, Context.reset, Context.new]

/-! ## Searches -/

theorem fireOnce_of_live (h : s.Live kind) (hready : s.Ready n) : (s.fireOnce n).1 = .fired n := by
  obtain ⟨t, hfire, -⟩ := h.fire hready
  have hpersists : decide (s.engine.plan.mode = .fullyAsynchronous) = s.persists := rfl
  unfold fireOnce
  rw [hpersists, hfire]

/-- A search that comes past a ready node ends with a firing. -/
theorem search_of_live (h : s.Live kind) {order : List NodeId} {steps position : Nat}
    (hready : ∃ j < steps, ∃ n, order[(position + j) % order.length]? = some n ∧ s.Ready n) :
    ∃ n, (search order steps position s).1 = .fired n := by
  induction steps generalizing s position with
  | zero =>
    obtain ⟨j, hj, -⟩ := hready
    exact absurd hj (Nat.not_lt_zero j)
  | succ steps ih =>
    obtain ⟨j, hj, n, hn, hready⟩ := hready
    have hpos : 0 < order.length := Nat.zero_lt_of_lt (List.getElem?_eq_some_iff.mp hn).1
    obtain ⟨m, hm⟩ : ∃ m, order[position % order.length]? = some m :=
      ⟨_, List.getElem?_eq_getElem (Nat.mod_lt _ hpos)⟩
    unfold search
    dsimp only
    rw [hm]
    dsimp only
    rcases readiness_eq h.proper m with ⟨hproceed, hm'⟩ | ⟨hskip, hnot⟩
    · rw [hproceed]
      dsimp only
      exact ⟨m, fireOnce_of_live (s := s.putCursor ((position % order.length + 1) % order.length))
        (h.of_eq rfl rfl rfl rfl) hm'⟩
    · rw [hskip]
      cases j with
      | zero => exact absurd (Option.some.inj (hm.symm.trans hn) ▸ hready) hnot
      | succ j =>
        refine ih (s := s.modifyContext (·.recordSkip m)) (h.of_eq rfl rfl rfl rfl)
          ⟨j, Nat.lt_of_succ_lt_succ hj, n, ?_, hready⟩
        rw [← hn, Nat.add_assoc, Nat.mod_add_mod]
        congr 2
        omega

/-- Going round from any cursor, a search comes to every position. -/
theorem exists_add_mod_eq (cursor : Nat) {i size : Nat} (h : i < size) :
    ∃ steps < size, (cursor + steps) % size = i := by
  have hpos : 0 < size := Nat.zero_lt_of_lt h
  have hcursor : cursor % size ≤ i + size :=
    (Nat.mod_lt cursor hpos).le.trans (Nat.le_add_left size i)
  refine ⟨(i + size - cursor % size) % size, Nat.mod_lt _ hpos, ?_⟩
  calc
    (cursor + (i + size - cursor % size) % size) % size =
        (cursor % size + (i + size - cursor % size)) % size := by
      rw [Nat.add_mod_mod, Nat.mod_add_mod]
    _ = (i + size) % size := by rw [Nat.add_sub_cancel' hcursor]
    _ = i := by rw [Nat.add_mod_right, Nat.mod_eq_of_lt h]

/-- A lively engine is never idle. -/
theorem activateNext_of_live (h : s.Live kind) :
    s.activateNext.1 = .stopped ∨ ∃ n, s.activateNext.1 = .fired n := by
  unfold activateNext
  have henter : s.enter = (some .stopped, s) ∨ s.enter = (none, s.modifyContext (·.clearError)) :=
    ((lockstep_live s.frame kind).coupled.enter ⟨rfl, rfl, h⟩).imp And.left And.left
  rcases henter with hstopped | hentered
  · rw [hstopped]
    exact .inl rfl
  · rw [hentered]
    have hclear : (s.modifyContext (·.clearError)).Live kind := h.of_eq rfl rfl rfl rfl
    obtain ⟨n, hn, hready⟩ := h.exists_ready
    obtain ⟨i, hi⟩ := List.mem_iff_getElem?.mp hn
    have hlt : i < s.engine.plan.firingOrder.length := (List.getElem?_eq_some_iff.mp hi).1
    obtain ⟨steps, hsteps, hposition⟩ := exists_add_mod_eq s.engine.cursor hlt
    refine .inr (search_of_live hclear ⟨steps, hsteps, n, ?_, hready⟩)
    change s.engine.plan.firingOrder[(s.engine.cursor + steps) %
      s.engine.plan.firingOrder.length]? = some n
    rw [hposition]
    exact hi

/-- An engine at the beginning of its plan is lively if its nodes move their rates. -/
theorem live_of_fresh {e : Engine κ σ ω} {p : Plan} (he : e.Fresh p kind) (hp : p.Sound)
    (hnodes : ∀ (n : NodeId) (i : Instance κ σ ω), e.nodes[n]? = some i →
      (∀ v : PortView, i.behaviour.prepare v = pure v.readiness) ∧ i.behaviour.Moves p kind n ∧
        i.behaviour.TakesBack)
    {c : Context} (hparks : Parks e.frame c.parked) (w : World ω) : (Session.mk e c w).Live kind where
  proper := he.proper hp fun n i hi ↦ (hnodes n i hi).1
  moves := he.moves fun n i hi ↦ (hnodes n i hi).2.1
  sane := he.poisoned
  reached := by
    change e.plan.Reaches (Channel.level e.channels)
    rw [he.level, he.plan]
    exact p.reaches_delay
  takes b hb := by
    obtain ⟨n, i, hi, rfl⟩ := Engine.exists_of_mem_behaviours hb
    exact (hnodes n i hi).2.2
  parks _ := hparks

/-! ## No artificial deadlock -/

/-- Wherever guarded firings lead from the initial tokens, every component has a node whose guard is
satisfied, and guarded firings lead back. An engine of the plan whose nodes move their rates, and take
back the states that they have given, is therefore never idle, and without an order it completes as
many passes as its context allows. -/
theorem no_artificial_deadlock {g : Graph} (hg : g.Built) {o : CompileOptions} {p : Plan}
    (hp : g.compile o = .ok p) :
    (∀ v, Steps.Along (g.Ready p.room) g.after v g.delay →
      (∀ n < g.nodes.length, ∃ m, g.Connected n m ∧
        g.Ready p.room m (Steps.run g.after v g.delay)) ∧
      ∃ w, Steps.Along (g.Ready p.room) g.after w (Steps.run g.after v g.delay) ∧
        Steps.run g.after w (Steps.run g.after v g.delay) = g.delay) ∧
    ∀ (kind : EdgeId → κ) (e : Engine κ σ ω), e.Fresh p kind →
      (∀ (n : NodeId) (i : Instance κ σ ω), e.nodes[n]? = some i →
        (∀ v : PortView, i.behaviour.prepare v = pure v.readiness) ∧ i.behaviour.Moves p kind n ∧
          i.behaviour.TakesBack) →
      ∀ (c : Context) (w : World ω) (calls : List Call), Parks e.frame c.parked →
        (.run ∈ calls → p.mode ≠ .static) → ∀ s, s = ((Session.mk e c w).calls calls).2 →
        (s.activateNext.1 = .stopped ∨ ∃ n, s.activateNext.1 = .fired n) ∧
        (p.mode = .fullyAsynchronous → ∀ calm : World ω → Prop, e.frame.Calm calm →
          ∀ (c : Context) (limit : Nat) (w : World ω), c.limit = some limit →
            Parks e.frame c.parked → calm w →
            (Session.mk s.engine c w).run.1 = ⟨.success, limit, none⟩) := by
  obtain ⟨hsound, -⟩ := Graph.sound_of_compile hg.coherent hp
  obtain ⟨-, -, -, -, rfl, -⟩ := Graph.exists_of_compile hp
  refine ⟨fun v hv ↦ hsound.live hv, fun kind e he hnodes c w calls hparks hcalls s hs ↦ ?_⟩
  have hstart := live_of_fresh he hsound hnodes hparks w
  have hplan : e.plan = p := he.plan
  obtain ⟨hframe, hlive⟩ : s.frame = e.frame ∧ s.Live kind := by
    rw [hs]
    refine ((lockstep_live e.frame kind).calls_of_safe (fun hrun hstatic ↦ ?_) ⟨rfl, rfl, hstart⟩).2
    refine absurd ?_ (hcalls hrun)
    rw [← hplan]
    exact hstatic
  refine ⟨activateNext_of_live hlive, fun hmode calm hcalm c' limit w' hlimit hparks' hw' ↦ ?_⟩
  have hlive' : (Session.mk s.engine c' w').Live kind :=
    ⟨hlive.proper, hlive.moves, hlive.sane, hlive.reached, hlive.takes,
      fun _ ↦ (hframe.symm ▸ hparks' :)⟩
  have hmode' : (Session.mk s.engine c' w').persists = true := by
    have hsame : s.engine.plan = p := (plan_of_frame (t := s) (s := ⟨e, c, w⟩) hframe).trans hplan
    rw [persists, hsame, hmode]
    rfl
  exact run_of_live hlive' hmode' (hframe.symm ▸ hcalm :) hw' hlimit

/-- Two single firings, and then a run of three passes. -/
theorem looped_never_idle : ∃ e w,
    (Binding.ofCalls (Looped.plan .fullyAsynchronous [7, 3]) 0 Looped.calls).build Looped.world =
      (.ok e, w) ∧
    ∀ s, s = ((Session.mk e (.new none) w).calls [.activateNext, .activate 1]).2 →
      (s.activateNext.1 = .stopped ∨ ∃ n, s.activateNext.1 = .fired n) ∧
        (Session.mk s.engine (.new (some 3)) w).run.1 = ⟨.success, 3, none⟩ := by
  have hcompile : Looped.graph.compile ⟨.fullyAsynchronous, 0, some 7, 100⟩ =
      .ok (Looped.plan .fullyAsynchronous [7, 3]) := by decide +kernel
  obtain ⟨e, w, hbuild⟩ : ∃ e w, (Binding.ofCalls (Looped.plan .fullyAsynchronous [7, 3]) 0
      Looped.calls).build Looped.world = (.ok e, w) := ⟨_, _, rfl⟩
  have hstops : w.stops = .empty ∧ e.stop = 0 ∧ e.hooks = .none := by
    cases hbuild
    exact ⟨rfl, rfl, rfl⟩
  obtain ⟨hfresh, hbound⟩ := Binding.fresh_of_build Looped.kind_of_mem_calls hbuild
  have hbehaviour : ∀ n i, e.nodes[n]? = some i →
      n = 1 ∧ i.behaviour = Looped.taker ∨ n = 0 ∧ i.behaviour = Looped.feeder := by
    intro n i hi
    obtain ⟨j, hj, hsame⟩ := hbound n i hi
    obtain ⟨rfl, rfl⟩ | ⟨rfl, rfl⟩ := Looped.of_node_mem_calls hj
    · exact .inl ⟨rfl, hsame.symm⟩
    · exact .inr ⟨rfl, hsame.symm⟩
  have hcoherent := Looped.built_graph.coherent
  have hnodes : ∀ (n : NodeId) (i : Instance Scalar UInt8 Unit), e.nodes[n]? = some i →
      (∀ v : PortView, i.behaviour.prepare v = pure v.readiness) ∧
        i.behaviour.Moves (Looped.plan .fullyAsynchronous [7, 3]) Looped.kind n ∧
          i.behaviour.TakesBack := by
    intro n i hi
    obtain ⟨rfl, hb⟩ | ⟨rfl, hb⟩ := hbehaviour n i hi
    · rw [hb]
      exact ⟨fun _ ↦ rfl, Behaviour.Exchanges.moves hcoherent fun node ↦ Looped.exchanges_taker,
        fun _ _ _ _ _ _ ↦ rfl⟩
    · rw [hb]
      exact ⟨fun _ ↦ rfl, Behaviour.Exchanges.moves hcoherent fun node ↦ Looped.exchanges_feeder,
        fun _ _ _ _ _ _ ↦ rfl⟩
  have hparks (limit : Option Nat) : Parks e.frame (Context.new limit).parked :=
    fun _ _ _ _ h ↦ nomatch h
  have hmem : ∀ b ∈ e.frame.behaviours, b = Looped.taker ∨ b = Looped.feeder := by
    intro b hb
    obtain ⟨n, i, hi, rfl⟩ := Engine.exists_of_mem_behaviours hb
    exact (hbehaviour n i hi).imp And.right And.right
  have hcalm : e.frame.Calm fun w ↦ w.stops = .empty := by
    have hhooks : e.frame.hooks = .none := hstops.2.2
    refine ⟨fun {w} h ↦ by rw [h]; rfl, fun h _ ↦ by rw [hhooks]; exact h,
      fun h _ ↦ by rw [hhooks]; exact h, fun h _ ↦ by rw [hhooks]; exact h,
      fun h _ _ ↦ by rw [hhooks]; exact h, fun {b} hb {w} h memory node n channels ↦ ?_,
      fun {b} hb {w} h memory ↦ ?_, fun {b} hb {w} h memory blob ↦ ?_⟩
    · rcases hmem _ hb with rfl | rfl
      · exact (congrArg World.stops ((Looped.leaves_taker memory w).result node n channels)).trans h
      · exact (congrArg World.stops ((Looped.leaves_feeder memory w).result node n channels)).trans h
    · rcases hmem _ hb with rfl | rfl <;> exact h
    · rcases hmem _ hb with rfl | rfl <;> exact h
  refine ⟨e, w, hbuild, fun s hs ↦ ?_⟩
  obtain ⟨hnext, hrun⟩ := (no_artificial_deadlock Looped.built_graph hcompile).2 Looped.kind e hfresh
    hnodes (.new none) w [.activateNext, .activate 1] (hparks none) (fun _ ↦ by decide) s hs
  exact ⟨hnext, hrun rfl _ hcalm (.new (some 3)) 3 w rfl (hparks _) hstops.1⟩

end Session

/-! ## A node that refuses its state -/

namespace Solo

def graph : Graph := ⟨[⟨"n", 0, [], []⟩], []⟩

theorem built_graph : graph.Built := .addNode .empty ⟨"n", none, [], []⟩

def plan : Plan where
  mode := .fullyAsynchronous
  graph := graph
  repetitions := ⟨[1]⟩
  order := [0]
  capacities := []

/-- A node without ports that has a state and never takes it back. -/
def refuser : Behaviour Scalar Unit Unit where
  run := fun s ↦ .done (.ok .success, s)
  save := fun s ↦ (some [], s)
  restore := fun _ s ↦ (.error (.recoverable (.node 1)), s)

theorem exchanges_refuser {node : Node} (h : graph.nodes[0]? = some node) (kind : EdgeId → Scalar) :
    refuser.Exchanges kind node := by
  cases h
  exact fun _ _ _ _ ↦ .done rfl

end Solo

namespace Session

/-- It is not enough that every run moves its rates: the second pass ends with the refused state. -/
theorem passes_need_states_taken_back :
    ¬ ∀ (g : Graph) (o : CompileOptions) (p : Plan) (kind : EdgeId → Scalar)
      (e : Engine Scalar Unit Unit) (limit : Nat) (w : World Unit), g.Built → g.compile o = .ok p →
      p.mode = .fullyAsynchronous → e.Fresh p kind →
      (∀ (n : NodeId) (i : Instance Scalar Unit Unit), e.nodes[n]? = some i →
        (∀ v : PortView, i.behaviour.prepare v = pure v.readiness) ∧ i.behaviour.Moves p kind n) →
      (e.frame.Calm fun w ↦ w.stops = .empty) → w.stops = .empty →
      (Session.mk e (.new (some limit)) w).run.1 = ⟨.success, limit, none⟩ := by
  intro h
  have hcompile : Solo.graph.compile ⟨.fullyAsynchronous, 0, none, 100⟩ = .ok Solo.plan := by
    decide +kernel
  let e : Engine Scalar Unit Unit := ⟨Solo.plan, [⟨Solo.refuser, ()⟩], [], .none, 0, none, 0⟩
  have hfresh : e.Fresh Solo.plan fun _ ↦ .u8 := ⟨rfl, rfl, rfl, rfl, rfl⟩
  have hbehaviour : ∀ b ∈ e.frame.behaviours, b = Solo.refuser := fun b hb ↦ List.mem_singleton.mp hb
  have hnodes : ∀ (n : NodeId) (i : Instance Scalar Unit Unit), e.nodes[n]? = some i →
      (∀ v : PortView, i.behaviour.prepare v = pure v.readiness) ∧
        i.behaviour.Moves Solo.plan (fun _ ↦ .u8) n := by
    intro n i hi
    obtain ⟨hlt, rfl⟩ := List.getElem?_eq_some_iff.mp hi
    obtain rfl := Nat.lt_one_iff.mp hlt
    exact ⟨fun _ ↦ rfl, Behaviour.Exchanges.moves Solo.built_graph.coherent fun node hnode ↦
      Solo.exchanges_refuser hnode _⟩
  have hcalm : e.frame.Calm fun w ↦ w.stops = .empty := by
    refine ⟨fun {w} h ↦ by rw [h]; rfl, fun h _ ↦ h, fun h _ ↦ h, fun h _ ↦ h, fun h _ _ ↦ h,
      fun {b} hb {w} h memory node n channels ↦ ?_, fun {b} hb {w} h memory ↦ ?_,
      fun {b} hb {w} h memory blob ↦ ?_⟩ <;> rw [hbehaviour _ hb] <;> exact h
  have hrun := h _ _ _ _ e 2 ⟨.empty, ()⟩ Solo.built_graph hcompile rfl hfresh hnodes hcalm rfl
  have hfails : (Session.mk e (.new (some 2)) ⟨.empty, ()⟩).run.1 =
      ⟨.node 1, 1, some ⟨.node 1, 0, 0, false⟩⟩ := rfl
  rw [hfails] at hrun
  exact absurd (congrArg RunReport.failure hrun) (nomatch ·)

end Session

end Dataflow
