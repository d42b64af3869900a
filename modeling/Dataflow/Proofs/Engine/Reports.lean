import Dataflow.Proofs.Engine.Rates
import Dataflow.Proofs.Engine.Suspension

/-!
# What contexts and reports tell

A context tells of the last call with a code, and with the failure if there was one. While nodes are asked
and fire, nothing is told; what they did comes into the context when the call ends. So the answer to a call
that fires at most once and the context agree, except after a stop request, which leaves the context to
the call before. The report of a run names the failure that ended it. Its verdict goes by the sign of the
code alone, which is what the failing node has chosen.
-/

namespace Dataflow

variable {κ : Type} [ElementKind κ] {σ ω : Type}

/-- What a context tells of the last call. -/
def Context.status (c : Context) : StatusCode × Option Failure := (c.code, c.failure)

/-! ## Errors of nodes -/

/-- The errors to which it can come when node `n` is asked or fires. -/
inductive Frame.Errs (f : Frame κ σ ω) (n : NodeId) : NodeError → Prop where
  | unready {b : Behaviour κ σ ω} (hb : f.behaviours[n]? = some b) (v : PortView) (x : σ × World ω)
    {code : StatusCode} (h : (b.prepare v x).1 = .fatal code) : Errs f n (.fatal code)
  | unrestored {b : Behaviour κ σ ω} (hb : f.behaviours[n]? = some b) (blob : Blob) (x : σ × World ω)
    {e : NodeError} (h : (b.restore blob x).1 = .error e) : Errs f n e
  | ran {b : Behaviour κ σ ω} (hb : f.behaviours[n]? = some b) (x : σ × World ω) (node : Node)
    (channels : List (Channel κ)) {e : NodeError}
    (h : ((b.run x).exec node n channels).1.1 = .error e) : Errs f n e
  | mismatch : Errs f n .rateMismatch
  | unknown : Errs f n .invalidPort

/-- An error of node `n` as a failure. -/
def Plan.failureOf (p : Plan) (n : NodeId) (e : NodeError) : Failure where
  code := e.code
  node := n
  diagnostic := (p.diagnosticCode? n).getD 0
  fatal := e.isFatal

/-- Visits of nodes can fail in this way. -/
def Frame.Fails (f : Frame κ σ ω) (failure : Failure) : Prop :=
  ∃ n e, f.Errs n e ∧ failure = f.plan.failureOf n e

/-- Nodes that look at their ports alone do not refuse to fire. -/
theorem PortView.readiness_ne_fatal (v : PortView) (code : StatusCode) : v.readiness ≠ .fatal code := by
  unfold readiness
  split <;> exact Readiness.noConfusion

/-- What the behaviour gives as an error has the code of an error. -/
structure Behaviour.Honest (b : Behaviour κ σ ω) : Prop where
  prepare (v : PortView) (x : σ × World ω) (code : StatusCode) (h : (b.prepare v x).1 = .fatal code) :
    code.isError
  restore (blob : Blob) (x : σ × World ω) (e : NodeError) (h : (b.restore blob x).1 = .error e) :
    e.code.isError
  run (x : σ × World ω) (node : Node) (n : NodeId) (channels : List (Channel κ)) (e : NodeError)
    (h : ((b.run x).exec node n channels).1.1 = .error e) : e.code.isError

def Frame.Honest (f : Frame κ σ ω) : Prop := ∀ b ∈ f.behaviours, b.Honest

theorem Frame.Errs.isError {f : Frame κ σ ω} {n : NodeId} {e : NodeError} (h : f.Errs n e)
    (honest : f.Honest) : e.code.isError := by
  cases h with
  | unready hb v x h => exact (honest _ (List.mem_of_getElem? hb)).prepare v x _ h
  | unrestored hb blob x h => exact (honest _ (List.mem_of_getElem? hb)).restore blob x e h
  | ran hb x node channels h => exact (honest _ (List.mem_of_getElem? hb)).run x node n channels e h
  | mismatch => rfl
  | unknown => rfl

namespace Session

section Errors

variable {s t : Session κ σ ω} {n : NodeId} {e : NodeError}

theorem errs_readiness {code : StatusCode} (h : (s.readiness n).1 = .fatal code) :
    s.frame.Errs n (.fatal code) := by
  unfold readiness at h
  cases hnode : s.engine.plan.graph.nodes[n]? with
  | none =>
    rw [hnode] at h
    cases h
  | some node =>
    rw [hnode] at h
    cases hi : s.engine.nodes[n]? with
    | none =>
      simp only [callNode, hi] at h
      cases h
    | some i =>
      simp only [callNode_eq hi] at h
      exact .unready (behaviours_of_getElem? hi) _ _ h

theorem errs_restoreParked (h : (s.restoreParked n).1 = .error e) : s.frame.Errs n e := by
  cases hparked : s.context.parked.get? n with
  | none =>
    rw [(restoreParked_of_none hparked).2] at h
    cases h
  | some blob =>
    cases hi : s.engine.nodes[n]? with
    | none =>
      have hi' : (s.modifyContext (·.unpark n)).engine.nodes[n]? = none := hi
      simp only [restoreParked, hparked, callNode, hi'] at h
      cases h
    | some i =>
      rw [restoreParked_eq hi hparked rfl] at h
      exact .unrestored (behaviours_of_getElem? hi) blob _ h

theorem errs_execute (h : (s.execute n).1 = .error e) : s.frame.Errs n e := by
  cases hi : s.engine.nodes[n]? with
  | none =>
    simp only [execute, hi] at h
    cases h
    exact .unknown
  | some i =>
    cases hnode : s.engine.plan.graph.nodes[n]? with
    | none =>
      simp only [execute, hi, hnode] at h
      cases h
      exact .unknown
    | some node =>
      rw [execute_eq hi hnode] at h
      cases hresult : (s.outcomeOf n i node).1.1 with
      | error e' =>
        rw [hresult] at h
        cases h
        exact .ran (behaviours_of_getElem? hi) _ node _ hresult
      | ok status =>
        rw [hresult] at h
        simp only [verdict] at h
        split at h
        · cases h
        · cases h
          exact .mismatch

theorem errs_attempt {persist : Bool} (h : (s.attempt n persist).1 = .error e) : s.frame.Errs n e := by
  have hlocal := s.local_resume n persist
  unfold attempt at h
  rcases hresume : s.resume n persist with ⟨e' | _, t⟩
  · rw [hresume] at h
    cases h
    unfold resume at hresume
    cases persist with
    | false => cases hresume
    | true => exact errs_restoreParked (s := s.observe (·.beforeActivation n)) (congrArg Prod.fst hresume)
  · rw [hresume] at h hlocal
    have hframe : t.frame = s.frame := hlocal.frame
    exact hframe ▸ errs_execute h

end Errors

/-! ## Parts of a run -/

/-- What happens between `s` and `t` ends with this failure or with none, and the context is not told. -/
structure Quiet (s : Session κ σ ω) (failure : Option Failure) (t : Session κ σ ω) : Prop where
  frame : t.frame = s.frame
  status : t.context.status = s.context.status
  cause (f : Failure) (h : failure = some f) : s.frame.Fails f

section Quiet

variable {s t u : Session κ σ ω} {n : NodeId} {failure : Option Failure}

theorem Quiet.refl (s : Session κ σ ω) : s.Quiet none s := ⟨rfl, rfl, nofun⟩

theorem Quiet.trans (h : s.Quiet none t) (h' : t.Quiet failure u) : s.Quiet failure u where
  frame := h'.frame.trans h.frame
  status := h'.status.trans h.status
  cause f hf := h.frame ▸ h'.cause f hf

theorem quiet_recordSkip (s : Session κ σ ω) (n : NodeId) :
    s.Quiet none (s.modifyContext (·.recordSkip n)) := ⟨rfl, rfl, nofun⟩

theorem quiet_observe (s : Session κ σ ω) (event : Hooks ω → World ω → World ω) :
    s.Quiet none (s.observe event) := ⟨rfl, rfl, nofun⟩

theorem quiet_closeRound (s : Session κ σ ω) (i : Nat) : s.Quiet none (s.closeRound i) :=
  ⟨rfl, rfl, nofun⟩

theorem quiet_beginPeriod (s : Session κ σ ω) : s.Quiet none (s.modifyContext (·.beginPeriod)) :=
  ⟨rfl, rfl, nofun⟩

theorem quiet_readiness (s : Session κ σ ω) (n : NodeId) : s.Quiet none (s.readiness n).2 :=
  ⟨(s.local_readiness n).frame, congrArg Context.status (s.context_readiness n), nofun⟩

theorem quiet_failNode {e : NodeError} (h : s.frame.Errs n e) :
    s.Quiet (some (s.failNode n e).1) (s.failNode n e).2 where
  frame := rfl
  status := rfl
  cause f hf := by
    cases hf
    exact ⟨n, e, h, rfl⟩

theorem quiet_fire (s : Session κ σ ω) (n : NodeId) (persist : Bool) :
    s.Quiet (Except.failure? (s.fire n persist).1) (s.fire n persist).2 := by
  have hlocal := s.local_attempt n persist
  have hattempt (outcome : Except NodeError RunStatus) :
      s.Quiet none ((s.attempt n persist).2.note n outcome) := by
    refine ⟨hlocal.frame, ?_, nofun⟩
    change (s.attempt n persist).2.context.status = s.context.status
    rw [hlocal.context]
    rfl
  rcases s.fire_cases n persist with ⟨status, -, hfire⟩ | ⟨e, he, hfire⟩
  · rw [hfire]
    exact hattempt (.ok status)
  · have hnoted := hattempt (.error e)
    rw [hfire]
    exact hnoted.trans (quiet_failNode (hnoted.frame ▸ errs_attempt he))

/-- A node is asked, or not, and an answer that refuses to fire is one of its errors. -/
theorem exists_quiet_question (check : Bool) (s : Session κ σ ω) (n : NodeId) :
    ∃ answer t, (if check then s.readiness n else (.proceed, s)) = (answer, t) ∧ s.Quiet none t ∧
      ∀ code, answer = .fatal code → t.frame.Errs n (.fatal code) := by
  cases check with
  | false => exact ⟨.proceed, s, rfl, .refl s, nofun⟩
  | true =>
    have hasked := s.quiet_readiness n
    exact ⟨_, _, rfl, hasked, fun code h ↦ hasked.frame ▸ errs_readiness h⟩

theorem quiet_visitPeriod (check : Bool) (order : List NodeId) (s : Session κ σ ω) :
    s.Quiet (visitPeriod check order s).1 (visitPeriod check order s).2 := by
  induction order generalizing s with
  | nil => exact .refl s
  | cons n rest ih =>
    obtain ⟨answer, t, hask, hasked, hrefused⟩ := s.exists_quiet_question check n
    unfold visitPeriod
    rw [hask]
    cases answer with
    | skip => exact (hasked.trans (t.quiet_recordSkip n)).trans (ih _)
    | fatal code => exact hasked.trans (quiet_failNode (hrefused code rfl))
    | proceed =>
      have hfired := hasked.trans (t.quiet_fire n false)
      dsimp only
      rcases hfire : t.fire n false with ⟨failure | status, u⟩
      · rw [hfire] at hfired
        exact hfired
      · rw [hfire] at hfired
        exact hfired.trans (ih u)

theorem quiet_opening (i : Nat) (begun : Bool) (s : Session κ σ ω) :
    s.Quiet none (if begun then s else s.observe (·.beforePeriod i)) := by
  cases begun with
  | true => exact .refl s
  | false => exact s.quiet_observe (·.beforePeriod i)

theorem quiet_visitPass (i : Nat) (order : List NodeId) (begun : Bool) (s : Session κ σ ω) :
    s.Quiet (Except.failure? (visitPass i order begun s).1) (visitPass i order begun s).2 := by
  induction order generalizing s begun with
  | nil => exact .refl s
  | cons n rest ih =>
    unfold visitPass
    split
    · exact .refl s
    · obtain ⟨answer, t, hask, hasked, hrefused⟩ := s.exists_quiet_question true n
      change s.readiness n = _ at hask
      rw [hask]
      cases answer with
      | skip => exact (hasked.trans (t.quiet_recordSkip n)).trans (ih begun _)
      | fatal code => exact hasked.trans (quiet_failNode (hrefused code rfl))
      | proceed =>
        have hfired := (hasked.trans (t.quiet_opening i begun)).trans (quiet_fire _ n true)
        dsimp only
        rcases hfire : fire _ n true with ⟨failure | status, u⟩
        · rw [hfire] at hfired
          exact hfired
        · rw [hfire] at hfired
          exact hfired.trans (ih true u)

theorem quiet_runPeriods (check : Bool) (bound : Nat) (s : Session κ σ ω) :
    s.Quiet (runPeriods check bound s).1 (runPeriods check bound s).2 := by
  induction bound generalizing s with
  | zero => exact .refl s
  | succ bound ih =>
    cases hstop : s.stopRequested with
    | true =>
      rw [runPeriods_of_stopRequested hstop]
      exact .refl s
    | false =>
      have hbegun := s.quiet_beginPeriod.trans (quiet_observe _ (·.beforePeriod s.context.iterations))
      have hvisited := hbegun.trans (quiet_visitPeriod check s.engine.plan.order _)
      rcases hvisit : visitPeriod check s.engine.plan.order ((s.modifyContext (·.beginPeriod)).observe
        (·.beforePeriod s.context.iterations)) with ⟨_ | failure, t⟩
      · rw [hvisit] at hvisited
        rw [runPeriods_succ hstop hvisit]
        exact (hvisited.trans (t.quiet_closeRound _)).trans (ih _)
      · rw [hvisit] at hvisited
        rw [runPeriods_succ_of_failure hstop hvisit]
        exact hvisited

theorem quiet_runPasses (bound : Nat) (s : Session κ σ ω) :
    s.Quiet (runPasses bound s).1 (runPasses bound s).2 := by
  induction bound generalizing s with
  | zero => exact .refl s
  | succ bound ih =>
    unfold runPasses
    split
    · exact .refl s
    · have hvisited := s.quiet_beginPeriod.trans
        (quiet_visitPass s.context.iterations s.engine.plan.firingOrder false _)
      have hplan : (s.modifyContext (·.beginPeriod)).engine.plan = s.engine.plan := rfl
      dsimp only
      rw [hplan]
      rcases hround : visitPass _ _ _ _ with ⟨failure | pass, t⟩
      · rw [hround] at hvisited
        exact hvisited
      · rw [hround] at hvisited
        have hclosed : s.Quiet none (t.closeRound s.context.iterations) :=
          hvisited.trans (t.quiet_closeRound _)
        dsimp only
        split
        · exact hvisited
        · split
          · exact hclosed
          · exact hclosed.trans (ih _)

theorem quiet_runRounds (s : Session κ σ ω) : s.Quiet s.runRounds.1 s.runRounds.2 := by
  unfold runRounds
  dsimp only
  split
  · exact s.quiet_runPasses _
  · exact s.quiet_runPeriods true _
  · exact s.quiet_runPeriods false _

end Quiet

/-! ## Single firings -/

end Session

/-- What an answer amounts to. -/
def Activation.status : Activation → StatusCode × Option Failure
  | .fired _ => (.success, none)
  | .skipped _ | .notReady _ | .idle | .stopped => (.skip, none)
  | .failed f => (f.code, some f)

namespace Session

/-- A call goes on to this answer, and the context tells it. -/
structure Tells (x : Activation × Session κ σ ω) : Prop where
  proceeds : x.1 ≠ .stopped
  status : x.2.context.status = x.1.status

/-- From `s` on, this is how a call goes that fires at most once. It stops at once when that is requested,
unless the engine is unusable; all other answers are told by the context. -/
structure Answers (s : Session κ σ ω) (x : Activation × Session κ σ ω) : Prop where
  tells (h : x.1 ≠ .stopped) : x.2.context.status = x.1.status
  stopped_iff : x.1 = .stopped ↔ s.engine.poisoned = none ∧ s.stopRequested
  untouched (h : x.1 = .stopped) : x.2 = s

section Answers

variable {s : Session κ σ ω} {n : NodeId}

theorem tells_reject (s : Session κ σ ω) (f : Failure) : Tells (s.reject f) := ⟨nofun, rfl⟩

theorem tells_noteSkip {answer : Activation} (hproceeds : answer ≠ .stopped)
    (hanswer : answer.status = (.skip, none)) (h : s.context.status = (.success, none)) :
    Tells (answer, s.modifyContext (·.noteSkip)) where
  proceeds := hproceeds
  status := by
    have hfailure : s.context.failure = none := congrArg Prod.snd h
    rw [hanswer]
    exact congrArg (Prod.mk StatusCode.skip) hfailure

theorem tells_fireOnce (h : s.context.status = (.success, none)) (n : NodeId) : Tells (s.fireOnce n) := by
  unfold fireOnce
  have hquiet := (s.quiet_fire n (s.engine.plan.mode = .fullyAsynchronous)).status.trans h
  rcases hfire : s.fire n (s.engine.plan.mode = .fullyAsynchronous) with ⟨f | _ | _, t⟩
  · exact t.tells_reject f
  · rw [hfire] at hquiet
    exact ⟨nofun, hquiet⟩
  · rw [hfire] at hquiet
    exact tells_noteSkip nofun rfl hquiet

theorem tells_search (order : List NodeId) (steps position : Nat)
    (h : s.context.status = (.success, none)) : Tells (search order steps position s) := by
  induction steps generalizing s position with
  | zero => exact tells_noteSkip nofun rfl h
  | succ steps ih =>
    unfold search
    dsimp only
    cases order[position % order.length]? with
    | none => exact tells_noteSkip nofun rfl h
    | some n =>
      have hquiet := (s.quiet_readiness n).status.trans h
      dsimp only
      rcases hready : s.readiness n with ⟨_ | _ | code, t⟩
      · rw [hready] at hquiet
        exact tells_fireOnce (s := t.putCursor ((position % order.length + 1) % order.length)) hquiet n
      · rw [hready] at hquiet
        exact ih (s := t.modifyContext (·.recordSkip n)) _ hquiet
      · exact tells_reject _ _

/-- Both calls begin alike, and what they do then starts from a context that tells nothing. -/
theorem answers_of_enter {go : Session κ σ ω → Activation × Session κ σ ω}
    (hgo : Tells (go (s.modifyContext (·.clearError)))) :
    s.Answers (match s.enter with
      | (some answer, t) => (answer, t)
      | (none, t) => go t) := by
  cases hpoisoned : s.engine.poisoned with
  | some f =>
    rw [enter_of_poisoned hpoisoned]
    refine ⟨fun _ ↦ rfl, ?_, nofun⟩
    simp [hpoisoned]
  | none =>
    rw [enter_of_sane hpoisoned]
    by_cases hstop : s.stopRequested
    · rw [if_pos hstop]
      exact ⟨fun h ↦ absurd rfl h, ⟨fun _ ↦ ⟨hpoisoned, hstop⟩, fun _ ↦ rfl⟩, fun _ ↦ rfl⟩
    · rw [if_neg hstop]
      exact ⟨fun _ ↦ hgo.status,
        ⟨fun h ↦ absurd h hgo.proceeds, fun h ↦ absurd h.2 hstop⟩, fun h ↦ absurd h hgo.proceeds⟩

/-- The context agrees with the answer of a call that fires at most once, whatever it told before, unless
the answer is that a stop was requested: then the call has left it alone. -/
theorem context_tells_answer (s : Session κ σ ω) :
    s.Answers s.activateNext ∧ ∀ n, s.Answers (s.activate n) := by
  have hclear : (s.modifyContext (·.clearError)).context.status = (.success, none) := rfl
  refine ⟨answers_of_enter (tells_search _ _ _ hclear), fun n ↦ answers_of_enter ?_⟩
  have hquiet := ((s.modifyContext (·.clearError)).quiet_readiness n).status.trans hclear
  split
  · exact tells_reject _ _
  · rcases hready : (s.modifyContext (·.clearError)).readiness n with ⟨_ | _ | code, t⟩
    · rw [hready] at hquiet
      exact tells_fireOnce hquiet n
    · rw [hready] at hquiet
      exact tells_noteSkip (s := t.modifyContext (·.recordSkip n)) nofun rfl hquiet
    · exact tells_reject _ _

end Answers

/-- Node `b` fails, and then a stop is requested: the call after it fires nothing, but the context goes on
telling of the failure. -/
theorem stop_leaves_failure : ∃ e w,
    (Binding.ofCalls (Looped.plan .static [7, 2]) 0
      (Looped.callsWith Looped.feeder Looped.idle)).build Looped.world = (.ok e, w) ∧
      ∃ s : Session Scalar UInt8 Unit, s = (Session.mk e (.new none) w).acts
          [.call (.new none) (.activate 0), .call (.new none) (.activate 1),
            .surroundings fun w ↦ ⟨w.stops.raise 0, ()⟩] ∧
        s.activateNext.1 = .stopped ∧
        s.activateNext.2.context.status = (.rateMismatch, some ⟨.rateMismatch, 1, 1, false⟩) ∧
        s.activateNext.2.context.status ≠ Activation.stopped.status :=
  ⟨_, _, rfl, _, rfl, by decide +kernel, by decide +kernel, by decide +kernel⟩

/-! ## Whole runs -/

/-- What ends a run with a failure: the engine is unusable, or a visit fails. -/
def ending (s : Session κ σ ω) : Option Failure :=
  s.engine.refusal.or (s.modifyContext (·.reset)).runRounds.1

theorem status_run (s : Session κ σ ω) :
    (s.run.1.code, s.run.1.failure) = ((s.ending.map (·.code)).getD .success, s.ending) := by
  cases hpoisoned : s.engine.poisoned with
  | some f =>
    rw [run_of_poisoned hpoisoned, ending, refusal_of_poisoned hpoisoned]
    rfl
  | none =>
    have hrefusal : (s.modifyContext (·.reset)).engine.refusal = none := refusal_of_sane hpoisoned
    have hquiet : (s.modifyContext (·.reset)).runRounds.2.context.status = (.success, none) :=
      (s.modifyContext (·.reset)).quiet_runRounds.status
    rw [ending, refusal_of_sane hpoisoned, Option.none_or]
    unfold run
    dsimp only
    rw [hrefusal]
    generalize (s.modifyContext (·.reset)).runRounds = ended at hquiet ⊢
    obtain ⟨_ | f, t⟩ := ended
    · exact hquiet
    · rfl

/-- A failure that ends a run is the refusal of an unusable engine, or an error of a node. -/
theorem cause_of_ending {s : Session κ σ ω} {f : Failure} (h : s.ending = some f) :
    s.engine.refusal = some f ∧ f.code = .fatal ∨ s.frame.Fails f := by
  cases hpoisoned : s.engine.poisoned with
  | some f' =>
    rw [ending, refusal_of_poisoned hpoisoned] at h
    cases h
    exact .inl ⟨refusal_of_poisoned hpoisoned, rfl⟩
  | none =>
    rw [ending, refusal_of_sane hpoisoned, Option.none_or] at h
    exact .inr ((s.modifyContext (·.reset)).quiet_runRounds.cause f h)

/-- The report of a run names what ended it, and gives its code; the code is success when nothing has. The
verdict is the sign of the code, so it is right where the nodes call their errors errors. -/
theorem report_of_run (s : Session κ σ ω) :
    s.run.1.failure = s.ending ∧
      s.run.1.code = (s.run.1.failure.map (·.code)).getD .success ∧
      (s.run.1.isOk ↔ ∀ f, s.run.1.failure = some f → f.code.isError = false) ∧
      (∀ f, s.run.1.failure = some f →
        s.engine.refusal = some f ∧ f.code = .fatal ∨ s.frame.Fails f) ∧
      (s.frame.Honest → (s.run.1.isOk ↔ s.run.1.failure = none)) := by
  obtain ⟨hcode, hfailure⟩ := Prod.mk.inj s.status_run
  have hverdict : s.run.1.isOk ↔ ∀ f, s.ending = some f → f.code.isError = false := by
    rw [RunReport.isOk, hcode]
    cases s.ending with
    | none => exact ⟨fun _ ↦ nofun, fun _ ↦ rfl⟩
    | some f => simp
  rw [hfailure]
  refine ⟨rfl, hcode, hverdict, fun f ↦ cause_of_ending, fun honest ↦ hverdict.trans ?_⟩
  cases hending : s.ending with
  | none => exact ⟨fun _ ↦ rfl, fun _ ↦ nofun⟩
  | some f =>
    have herror : f.code.isError = true := by
      obtain ⟨-, hfatal⟩ | ⟨n, e, herrs, rfl⟩ := cause_of_ending hending
      · rw [hfatal]
        rfl
      · exact herrs.isError honest
    refine ⟨fun h ↦ ?_, nofun⟩
    rw [h f rfl] at herror
    cases herror

end Session

namespace Looped

/-- Node `b` when it fails with a code that is no error. -/
def mild : Behaviour Scalar UInt8 Unit where
  run := fun s ↦ .done (.error (.recoverable ⟨5⟩), s)

theorem honest_breaker : breaker.Honest where
  prepare v _ code h := absurd h (v.readiness_ne_fatal code)
  restore _ _ _ := nofun
  run x node n channels e h := by
    cases h
    rfl

end Looped

namespace Session

/-- The nodes of an engine break, with a code that says so. -/
theorem report_breaking : ∃ e w,
    (Binding.ofCalls (Looped.plan .static [7, 2]) 0
      (Looped.callsWith Looped.breaker Looped.breaker)).build Looped.world = (.ok e, w) ∧
      (Session.mk e (.new (some 1)) w).frame.Honest ∧
      (Session.mk e (.new (some 1)) w).run.1.isOk = false := by
  obtain ⟨e, w, hbuild⟩ : ∃ e w, (Binding.ofCalls (Looped.plan .static [7, 2]) 0
      (Looped.callsWith Looped.breaker Looped.breaker)).build Looped.world = (.ok e, w) := ⟨_, _, rfl⟩
  have hbehaviours : (Session.mk e (.new (some 1)) w).frame.behaviours =
      [Looped.breaker, Looped.breaker] := by
    cases hbuild
    rfl
  have honest : (Session.mk e (.new (some 1)) w).frame.Honest := by
    rw [Frame.Honest, hbehaviours]
    simp [Looped.honest_breaker]
  have hfailure : (Session.mk e (.new (some 1)) w).run.1.failure ≠ none := by
    cases hbuild
    decide +kernel
  have hverdict := (report_of_run (Session.mk e (.new (some 1)) w)).2.2.2.2 honest
  exact ⟨e, w, hbuild, honest, Bool.eq_false_iff.mpr fun h ↦ hfailure (hverdict.mp h)⟩

/-- A run that a failure has ended is reported as a good one. -/
theorem report_mild : ∃ e w,
    (Binding.ofCalls (Looped.plan .static [7, 2]) 0
      (Looped.callsWith Looped.feeder Looped.mild)).build Looped.world = (.ok e, w) ∧
      (Session.mk e (.new (some 1)) w).run.1 = ⟨⟨5⟩, 0, some ⟨⟨5⟩, 1, 1, false⟩⟩ ∧
      (Session.mk e (.new (some 1)) w).run.1.isOk = true :=
  ⟨_, _, rfl, by decide +kernel, by decide +kernel⟩

end Session

end Dataflow
