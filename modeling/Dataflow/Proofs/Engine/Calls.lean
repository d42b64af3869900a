import Dataflow.Proofs.Engine.Frame

/-!
# Calls step by step

A call of an engine is made of few kinds of steps: the context or the cursor changes, the observers see
a round begin or end, a node is asked whether it is ready, a node fires. Two sessions that take these
steps alike go through whole calls alike, and what the steps keep is kept by the calls, whichever they
are. In an engine with a fixed order a run does not ask before it fires; in every other call a node fires
when it has said that it is ready. Where the question changes nothing and is never answered with a fatal
error, the steps take a simpler form.
-/

namespace Dataflow

variable {κ : Type} [ElementKind κ] {σ ω ω' : Type}

/-- What a host can do with an engine and a context. -/
inductive Call where
  | run
  | activateNext
  | activate (node : NodeId)
  /-- Another bound for the runs to come. -/
  | bound (limit : Option Nat)
  deriving DecidableEq, Repr

def Except.failure? {α : Type} : Except Failure α → Option Failure
  | .ok _ => none
  | .error f => some f

def Activation.failure? : Activation → Option Failure
  | .failed f => some f
  | _ => none

namespace Session

/-- The failure that the call ends with, if there is one. -/
def call (s : Session κ σ ω) : Call → Option Failure × Session κ σ ω
  | .run => (s.run.1.failure, s.run.2)
  | .activateNext => (s.activateNext.1.failure?, s.activateNext.2)
  | .activate n => ((s.activate n).1.failure?, (s.activate n).2)
  | .bound limit => (none, s.modifyContext (·.withLimit limit))

/-- The failures of a sequence of calls, call by call. -/
def calls : List Call → Session κ σ ω → List (Option Failure) × Session κ σ ω
  | [], s => ([], s)
  | c :: cs, s => ((s.call c).1 :: (calls cs (s.call c).2).1, (calls cs (s.call c).2).2)

/-- Firings of this engine give nodes their parked states. -/
def persists (s : Session κ σ ω) : Bool := s.engine.plan.mode = .fullyAsynchronous

theorem persists_of_frame {s t : Session κ σ ω} (h : t.frame = s.frame) : t.persists = s.persists := by
  rw [persists, plan_of_frame h]
  rfl

/-- Only a firing that fails can make its engine unusable. -/
theorem sane_or_failed_of_fire {s : Session κ σ ω} (hsane : s.engine.poisoned = none) (n : NodeId)
    (persist : Bool) : (s.fire n persist).2.engine.poisoned = none ∨
      (Except.failure? (s.fire n persist).1).isSome := by
  rcases s.fire_cases n persist with ⟨status, -, hfire⟩ | ⟨e, -, hfire⟩
  · left
    rw [hfire]
    exact (s.local_attempt n persist).poisoned.trans hsane
  · right
    rw [hfire]
    rfl

/-- Both answer the same, and they stay related or they fail alike. -/
def Agree {α : Type} (failure? : α → Option Failure)
    (related failed : Session κ σ ω → Session κ σ ω' → Prop) (x : α × Session κ σ ω)
    (y : α × Session κ σ ω') : Prop :=
  y.1 = x.1 ∧ (related x.2 y.2 ∨ (failure? x.1).isSome ∧ failed x.2 y.2)

theorem Agree.ends {α : Type} {failure? : α → Option Failure}
    {related failed : Session κ σ ω → Session κ σ ω' → Prop} {x : α × Session κ σ ω}
    {y : α × Session κ σ ω'} (h : Agree failure? related failed x y) :
    related x.2 y.2 ∨ failed x.2 y.2 := h.2.imp_right And.right

/-- Unless the answer is a failure, both stay related. -/
theorem Agree.related {α : Type} {failure? : α → Option Failure}
    {related failed : Session κ σ ω → Session κ σ ω' → Prop} {x : α × Session κ σ ω}
    {y : α × Session κ σ ω'} (h : Agree failure? related failed x y) (hnone : failure? x.1 = none) :
    related x.2 y.2 :=
  h.2.resolve_right fun hfailed ↦ by
    rw [hnone] at hfailed
    exact Bool.false_ne_true hfailed.1

/-- Sessions that are `related` stay so through all the steps of calls of an engine with this mode, where
a node fires when `ok` holds; after a failure they are `failed`. -/
structure Paced (mode : Mode) (ok : NodeId → List (Channel κ) → Prop)
    (related failed : Session κ σ ω → Session κ σ ω' → Prop) : Prop where
  mode {s t} (h : related s t) : s.engine.plan.mode = mode
  plan {s t} (h : related s t) : t.engine.plan = s.engine.plan
  cursor {s t} (h : related s t) : t.engine.cursor = s.engine.cursor
  sane {s t} (h : related s t) : s.engine.poisoned = none ∧ t.engine.poisoned = none
  stopped {s t} (h : related s t) : t.stopRequested = s.stopRequested
  status {s t} (h : related s t) {f : Context → Context}
    (hf : ∀ c, (f c).parked = c.parked ∧ (f c).limit = c.limit) :
    related (s.modifyContext f) (t.modifyContext f)
  status_failed {s t} (h : failed s t) {f : Context → Context}
    (hf : ∀ c, (f c).parked = c.parked ∧ (f c).limit = c.limit) :
    failed (s.modifyContext f) (t.modifyContext f)
  moved {s t} (h : related s t) (cursor : Nat) : related (s.putCursor cursor) (t.putCursor cursor)
  before {s t} (h : related s t) (i : Nat) :
    related (s.observe (·.beforePeriod i)) (t.observe (·.beforePeriod i))
  after {s t} (h : related s t) (i : Nat) :
    related (s.observe (·.afterPeriod i)) (t.observe (·.afterPeriod i))
  asked {s t} (h : related s t) (n : NodeId) : (t.readiness n).1 = (s.readiness n).1 ∧
    match (s.readiness n).1 with
    | .skip => related (s.readiness n).2 (t.readiness n).2
    | .proceed => related (s.readiness n).2 (t.readiness n).2 ∧
        ok n (s.readiness n).2.engine.channels
    | .fatal code => failed ((s.readiness n).2.failNode n (.fatal code)).2
        ((t.readiness n).2.failNode n (.fatal code)).2
  fired {s t} (h : related s t) {n : NodeId} (hok : ok n s.engine.channels) :
    Agree Except.failure? related failed (s.fire n s.persists) (t.fire n s.persists)

/-- The counters and the bounds of `related` sessions are the same too, so that they stay related through
whole calls. -/
structure Coupled (mode : Mode) (ok : NodeId → List (Channel κ) → Prop)
    (related failed : Session κ σ ω → Session κ σ ω' → Prop) : Prop
    extends Paced mode ok related failed where
  context {s t} (h : related s t) : t.context = s.context
  bounded {s t} (h : related s t) (limit : Option Nat) :
    related (s.modifyContext (·.withLimit limit)) (t.modifyContext (·.withLimit limit))

/-- What becomes of a node that is asked: it is passed over, it may fire, or the call ends here. -/
inductive Asked (ok : NodeId → List (Channel κ) → Prop)
    (related failed : Session κ σ ω → Session κ σ ω' → Prop) (n : NodeId)
    (x : Readiness × Session κ σ ω) (y : Readiness × Session κ σ ω') : Prop where
  | skip {s t} (hs : x = (.skip, s)) (ht : y = (.skip, t)) (h : related s t)
  | proceed {s t} (hs : x = (.proceed, s)) (ht : y = (.proceed, t)) (h : related s t)
    (hok : ok n s.engine.channels)
  | fatal {code s t failure} (hs : x = (.fatal code, s)) (ht : y = (.fatal code, t))
    (hfailure : (s.failNode n (.fatal code)).1 = failure)
    (hfailure' : (t.failNode n (.fatal code)).1 = failure)
    (h : failed (s.failNode n (.fatal code)).2 (t.failNode n (.fatal code)).2)

namespace Paced

variable {mode : Mode} {ok : NodeId → List (Channel κ) → Prop}
  {related failed : Session κ σ ω → Session κ σ ω' → Prop} {s : Session κ σ ω} {t : Session κ σ ω'}

theorem refusal_eq (h : Paced mode ok related failed) (hs : related s t) :
    s.engine.refusal = none ∧ t.engine.refusal = none :=
  ⟨refusal_of_sane (h.sane hs).1, refusal_of_sane (h.sane hs).2⟩

theorem closeRound (h : Paced mode ok related failed) (hs : related s t) (i : Nat) :
    related (s.closeRound i) (t.closeRound i) :=
  h.after (h.status (f := (·.completePeriod)) hs fun _ ↦ ⟨rfl, rfl⟩) i

theorem readiness (h : Paced mode ok related failed) (hs : related s t) (n : NodeId) :
    Asked ok related failed n (s.readiness n) (t.readiness n) := by
  have hasked := h.asked hs n
  have hplan : (t.readiness n).2.engine.plan = (s.readiness n).2.engine.plan := by
    rw [plan_of_frame (local_readiness t n).frame, plan_of_frame (local_readiness s n).frame,
      h.plan hs]
  rcases hread : s.readiness n with ⟨answer, u⟩
  rcases hread' : t.readiness n with ⟨answer', u'⟩
  rw [hread, hread'] at hasked hplan
  obtain ⟨hsame, hend⟩ := hasked
  dsimp only at hsame hend hplan
  subst hsame
  cases answer' with
  | skip => exact .skip rfl rfl hend
  | proceed => exact .proceed rfl rfl hend.1 hend.2
  | fatal code =>
    refine .fatal rfl rfl rfl ?_ hend
    simp only [failNode, hplan]

theorem ok_of_fired {n : NodeId} {persist : Bool} {status : RunStatus} {u : Session κ σ ω}
    (hfired : Agree Except.failure? related failed (s.fire n persist) (t.fire n persist))
    (hok : s.fire n persist = (.ok status, u)) :
    ∃ u', t.fire n persist = (.ok status, u') ∧ related u u' := by
  have hsame := hfired.1
  have hend := hfired.related (by rw [hok]; rfl)
  rw [hok] at hsame hend
  exact ⟨_, Prod.ext hsame rfl, hend⟩

theorem error_of_fired {n : NodeId} {persist : Bool} {failure : Failure} {u : Session κ σ ω}
    (hfired : Agree Except.failure? related failed (s.fire n persist) (t.fire n persist))
    (herror : s.fire n persist = (.error failure, u)) :
    ∃ u', t.fire n persist = (.error failure, u') ∧ (related u u' ∨ failed u u') := by
  have hend := hfired.ends
  obtain ⟨hsame, -⟩ := hfired
  rw [herror] at hsame hend
  exact ⟨_, Prod.ext hsame rfl, hend⟩

/-! ## Rounds -/

theorem visitPeriod (h : Paced mode ok related failed) {check : Bool}
    (hmode : mode ≠ .fullyAsynchronous) (hfree : check = false → ∀ n channels, ok n channels)
    (order : List NodeId) (hs : related s t) :
    Agree id related failed (Session.visitPeriod check order s)
      (Session.visitPeriod check order t) := by
  induction order generalizing s t with
  | nil => exact ⟨rfl, .inl hs⟩
  | cons n rest ih =>
    have hasked : Asked ok related failed n (if check then s.readiness n else (.proceed, s))
        (if check then t.readiness n else (.proceed, t)) := by
      cases check with
      | false => exact .proceed rfl rfl hs (hfree rfl n _)
      | true => exact h.readiness hs n
    unfold Session.visitPeriod
    cases hasked with
    | skip hskip hskip' hu =>
      rw [hskip, hskip']
      exact ih (h.status hu fun _ ↦ ⟨rfl, rfl⟩)
    | fatal hfatal hfatal' hfailure hfailure' hu =>
      rw [hfatal, hfatal']
      exact ⟨congrArg some (hfailure'.trans hfailure.symm), .inr ⟨rfl, hu⟩⟩
    | @proceed u u' hproceed hproceed' hu hok =>
      rw [hproceed, hproceed']
      dsimp only
      have hpersists : u.persists = false := by simpa [persists, h.mode hu] using hmode
      have hfired := h.fired hu hok
      rw [hpersists] at hfired
      rcases hfire : u.fire n false with ⟨failure | status, v⟩
      · obtain ⟨v', hfire', hv⟩ := error_of_fired hfired hfire
        rw [hfire']
        exact ⟨rfl, hv.imp_right (⟨rfl, ·⟩)⟩
      · obtain ⟨v', hfire', hv⟩ := ok_of_fired hfired hfire
        rw [hfire']
        exact ih hv

theorem visitPass (h : Paced mode ok related failed) (hmode : mode = .fullyAsynchronous)
    (iteration : Nat) (order : List NodeId) (started : Bool) (hs : related s t) :
    Agree Except.failure? related failed (Session.visitPass iteration order started s)
      (Session.visitPass iteration order started t) := by
  induction order generalizing s t started with
  | nil => exact ⟨rfl, .inl hs⟩
  | cons n rest ih =>
    unfold Session.visitPass
    rw [h.stopped hs]
    split
    · exact ⟨rfl, .inl hs⟩
    · cases h.readiness hs n with
      | skip hskip hskip' hu =>
        rw [hskip, hskip']
        exact ih _ (h.status hu fun _ ↦ ⟨rfl, rfl⟩)
      | fatal hfatal hfatal' hfailure hfailure' hu =>
        rw [hfatal, hfatal']
        exact ⟨congrArg Except.error (hfailure'.trans hfailure.symm), .inr ⟨rfl, hu⟩⟩
      | @proceed u u' hproceed hproceed' hu hok =>
        rw [hproceed, hproceed']
        dsimp only
        obtain ⟨v, v', hv, hv', hrelated, hok'⟩ : ∃ v v',
            (if started then u else u.observe (·.beforePeriod iteration)) = v ∧
            (if started then u' else u'.observe (·.beforePeriod iteration)) = v' ∧ related v v' ∧
            ok n v.engine.channels := by
          cases started with
          | true => exact ⟨u, u', rfl, rfl, hu, hok⟩
          | false => exact ⟨_, _, rfl, rfl, h.before hu iteration, hok⟩
        rw [hv, hv']
        have hpersists : v.persists = true := by simpa [persists, h.mode hrelated] using hmode
        have hfired := h.fired hrelated hok'
        rw [hpersists] at hfired
        rcases hfire : v.fire n true with ⟨failure | status, w⟩
        · obtain ⟨w', hfire', hw⟩ := error_of_fired hfired hfire
          rw [hfire']
          exact ⟨rfl, hw.imp_right (⟨rfl, ·⟩)⟩
        · obtain ⟨w', hfire', hw⟩ := ok_of_fired hfired hfire
          rw [hfire']
          exact ih true hw

/-! ## Single firings -/

theorem reject (h : Paced mode ok related failed) (hs : related s t ∨ failed s t)
    (failure : Failure) :
    Agree Activation.failure? related failed (s.reject failure) (t.reject failure) :=
  ⟨rfl, hs.imp (h.status (f := (·.fail failure)) · fun _ ↦ ⟨rfl, rfl⟩)
    fun hs ↦ ⟨rfl, h.status_failed (f := (·.fail failure)) hs fun _ ↦ ⟨rfl, rfl⟩⟩⟩

theorem fireOnce (h : Paced mode ok related failed) (hs : related s t) {n : NodeId}
    (hok : ok n s.engine.channels) :
    Agree Activation.failure? related failed (s.fireOnce n) (t.fireOnce n) := by
  have hpersists : decide (s.engine.plan.mode = .fullyAsynchronous) = s.persists := rfl
  have hfired := h.fired hs hok
  unfold Session.fireOnce
  rw [h.plan hs, hpersists]
  rcases hfire : s.fire n s.persists with ⟨failure | status, u⟩
  · obtain ⟨u', hfire', hu⟩ := error_of_fired hfired hfire
    rw [hfire']
    exact h.reject hu failure
  · obtain ⟨u', hfire', hu⟩ := ok_of_fired hfired hfire
    rw [hfire']
    cases status with
    | success => exact ⟨rfl, .inl hu⟩
    | skip => exact ⟨rfl, .inl (h.status (f := (·.noteSkip)) hu fun _ ↦ ⟨rfl, rfl⟩)⟩

theorem search (h : Paced mode ok related failed) (order : List NodeId) (steps position : Nat)
    (hs : related s t) :
    Agree Activation.failure? related failed (Session.search order steps position s)
      (Session.search order steps position t) := by
  induction steps generalizing s t position with
  | zero => exact ⟨rfl, .inl (h.status (f := (·.noteSkip)) hs fun _ ↦ ⟨rfl, rfl⟩)⟩
  | succ steps ih =>
    unfold Session.search
    dsimp only
    cases order[position % order.length]? with
    | none => exact ⟨rfl, .inl (h.status (f := (·.noteSkip)) hs fun _ ↦ ⟨rfl, rfl⟩)⟩
    | some n =>
      dsimp only
      cases h.readiness hs n with
      | skip hskip hskip' hu =>
        rw [hskip, hskip']
        exact ih _ (h.status hu fun _ ↦ ⟨rfl, rfl⟩)
      | proceed hproceed hproceed' hu hok =>
        rw [hproceed, hproceed']
        exact h.fireOnce (h.moved hu _) hok
      | fatal hfatal hfatal' hfailure hfailure' hu =>
        rw [hfatal, hfatal']
        dsimp only
        rw [hfailure, hfailure']
        exact h.reject (.inr hu) _

theorem enter (h : Paced mode ok related failed) (hs : related s t) :
    (s.enter = (some .stopped, s) ∧ t.enter = (some .stopped, t)) ∨
      (s.enter = (none, s.modifyContext (·.clearError)) ∧
        t.enter = (none, t.modifyContext (·.clearError))) := by
  rw [enter_of_sane (h.sane hs).1, enter_of_sane (h.sane hs).2, h.stopped hs]
  split
  · exact .inl ⟨rfl, rfl⟩
  · exact .inr ⟨rfl, rfl⟩

theorem activateNext (h : Paced mode ok related failed) (hs : related s t) :
    Agree Activation.failure? related failed s.activateNext t.activateNext := by
  unfold Session.activateNext
  rcases h.enter hs with ⟨hstopped, hstopped'⟩ | ⟨hentered, hentered'⟩
  · rw [hstopped, hstopped']
    exact ⟨rfl, .inl hs⟩
  · rw [hentered, hentered']
    have hplan : (t.modifyContext (·.clearError)).engine.plan =
        (s.modifyContext (·.clearError)).engine.plan := (h.plan hs :)
    have hcursor : (t.modifyContext (·.clearError)).engine.cursor =
        (s.modifyContext (·.clearError)).engine.cursor := (h.cursor hs :)
    dsimp only
    rw [hplan, hcursor]
    exact h.search _ _ _ (h.status (f := (·.clearError)) hs fun _ ↦ ⟨rfl, rfl⟩)

theorem activate (h : Paced mode ok related failed) (hs : related s t) (n : NodeId) :
    Agree Activation.failure? related failed (s.activate n) (t.activate n) := by
  unfold Session.activate
  rcases h.enter hs with ⟨hstopped, hstopped'⟩ | ⟨hentered, hentered'⟩
  · rw [hstopped, hstopped']
    exact ⟨rfl, .inl hs⟩
  · rw [hentered, hentered']
    have hclear : related (s.modifyContext (·.clearError)) (t.modifyContext (·.clearError)) :=
      h.status hs fun _ ↦ ⟨rfl, rfl⟩
    have hplan : (t.modifyContext (·.clearError)).engine.plan =
        (s.modifyContext (·.clearError)).engine.plan := (h.plan hs :)
    dsimp only
    rw [hplan]
    split
    · exact h.reject (.inl hclear) _
    · cases h.readiness hclear n with
      | skip hskip hskip' hu =>
        rw [hskip, hskip']
        exact ⟨rfl, .inl (h.status (f := (·.noteSkip)) (h.status (f := (·.recordSkip n)) hu
          fun _ ↦ ⟨rfl, rfl⟩) fun _ ↦ ⟨rfl, rfl⟩)⟩
      | proceed hproceed hproceed' hu hok =>
        rw [hproceed, hproceed']
        exact h.fireOnce hu hok
      | fatal hfatal hfatal' hfailure hfailure' hu =>
        rw [hfatal, hfatal']
        dsimp only
        rw [hfailure, hfailure']
        exact h.reject (.inr hu) _

end Paced

namespace Coupled

variable {mode : Mode} {ok : NodeId → List (Channel κ) → Prop}
  {related failed : Session κ σ ω → Session κ σ ω' → Prop} {s : Session κ σ ω} {t : Session κ σ ω'}

/-! ## Runs -/

theorem runPeriods (h : Coupled mode ok related failed) {check : Bool}
    (hmode : mode ≠ .fullyAsynchronous) (hfree : check = false → ∀ n channels, ok n channels)
    (rounds : Nat) (hs : related s t) :
    Agree id related failed (Session.runPeriods check rounds s)
      (Session.runPeriods check rounds t) := by
  induction rounds generalizing s t with
  | zero => exact ⟨rfl, .inl hs⟩
  | succ rounds ih =>
    have hflag : t.stopRequested = s.stopRequested := h.stopped hs
    cases hstop : s.stopRequested with
    | true =>
      rw [runPeriods_of_stopRequested hstop, runPeriods_of_stopRequested (hflag.trans hstop)]
      exact ⟨rfl, .inl hs⟩
    | false =>
      have hbegin := h.before (h.status (f := (·.beginPeriod)) hs fun _ ↦ ⟨rfl, rfl⟩) s.context.iterations
      have hvisit := h.visitPeriod hmode hfree s.engine.plan.order hbegin
      rcases hround : Session.visitPeriod check s.engine.plan.order
        ((s.modifyContext (·.beginPeriod)).observe (·.beforePeriod s.context.iterations)) with ⟨failure, u⟩
      rcases hround' : Session.visitPeriod check s.engine.plan.order
        ((t.modifyContext (·.beginPeriod)).observe (·.beforePeriod s.context.iterations)) with ⟨failure', u'⟩
      rw [hround, hround'] at hvisit
      rw [← h.plan hs, ← h.context hs] at hround'
      obtain rfl : failure' = failure := hvisit.1
      cases failure' with
      | none =>
        rw [runPeriods_succ hstop hround, runPeriods_succ (hflag.trans hstop) hround', h.context hs]
        exact ih (h.closeRound (hvisit.related rfl) _)
      | some f =>
        rw [runPeriods_succ_of_failure hstop hround, runPeriods_succ_of_failure (hflag.trans hstop) hround']
        exact ⟨rfl, hvisit.2⟩

theorem runPasses (h : Coupled mode ok related failed) (hmode : mode = .fullyAsynchronous)
    (rounds : Nat) (hs : related s t) :
    Agree id related failed (Session.runPasses rounds s) (Session.runPasses rounds t) := by
  induction rounds generalizing s t with
  | zero => exact ⟨rfl, .inl hs⟩
  | succ rounds ih =>
    unfold Session.runPasses
    rw [h.stopped hs, h.context hs]
    split
    · exact ⟨rfl, .inl hs⟩
    · have hbegin : related (s.modifyContext (·.beginPeriod)) (t.modifyContext (·.beginPeriod)) :=
        h.status hs fun _ ↦ ⟨rfl, rfl⟩
      have hplan : (t.modifyContext (·.beginPeriod)).engine.plan = s.engine.plan := (h.plan hs :)
      have hplan' : (s.modifyContext (·.beginPeriod)).engine.plan = s.engine.plan := rfl
      have hvisit := h.visitPass hmode s.context.iterations s.engine.plan.firingOrder false hbegin
      dsimp only
      rw [hplan, hplan']
      rcases hpass : Session.visitPass _ _ _ _ with ⟨result, u⟩
      rcases hpass' : Session.visitPass _ _ _ _ with ⟨result', u'⟩
      rw [hpass, hpass'] at hvisit
      obtain rfl : result' = result := hvisit.1
      cases result' with
      | error f => exact ⟨rfl, hvisit.2⟩
      | ok pass =>
        have hrelated : related u u' := hvisit.related rfl
        dsimp only
        split
        · exact ⟨rfl, .inl hrelated⟩
        · split
          · exact ⟨rfl, .inl (h.closeRound hrelated _)⟩
          · exact ih (h.closeRound hrelated _)

theorem runRounds (h : Coupled mode ok related failed)
    (hfree : mode = .static → ∀ n channels, ok n channels) (hs : related s t) :
    Agree id related failed s.runRounds t.runRounds := by
  unfold Session.runRounds
  dsimp only
  rw [h.context hs, h.plan hs, h.mode hs]
  cases mode with
  | static => exact h.runPeriods (by decide) (fun _ ↦ hfree rfl) _ hs
  | asynchronous => exact h.runPeriods (by decide) (fun hfalse : true = false ↦ (nomatch hfalse)) _ hs
  | fullyAsynchronous => exact h.runPasses rfl _ hs

/-- In a fixed order a node fires unasked, so it must be free to. -/
theorem run (h : Coupled mode ok related failed)
    (hfree : mode = .static → ∀ n channels, ok n channels) (hs : related s t) :
    Agree id related failed (s.run.1.failure, s.run.2) (t.run.1.failure, t.run.2) := by
  have hreset : related (s.modifyContext (·.reset)) (t.modifyContext (·.reset)) :=
    h.status hs fun _ ↦ ⟨rfl, rfl⟩
  have hrounds := h.runRounds hfree hreset
  unfold Session.run
  dsimp only
  rw [(h.refusal_eq hreset).1, (h.refusal_eq hreset).2]
  rcases hresult : (s.modifyContext (·.reset)).runRounds with ⟨failure, u⟩
  rcases hresult' : (t.modifyContext (·.reset)).runRounds with ⟨failure', u'⟩
  rw [hresult, hresult'] at hrounds
  obtain rfl : failure' = failure := hrounds.1
  cases failure' with
  | none =>
    have hend : related u u' := hrounds.related rfl
    exact ⟨congrArg (·.report.failure) (h.context hend), .inl hend⟩
  | some failure =>
    exact ⟨rfl, hrounds.ends.imp (h.status (f := (·.fail failure)) · fun _ ↦ ⟨rfl, rfl⟩)
      fun hend ↦ ⟨rfl, h.status_failed (f := (·.fail failure)) hend fun _ ↦ ⟨rfl, rfl⟩⟩⟩

/-! ## Sequences of calls -/

theorem call (h : Coupled mode ok related failed) (hs : related s t) {c : Call}
    (hfree : c = .run → mode = .static → ∀ n channels, ok n channels) :
    Agree id related failed (s.call c) (t.call c) := by
  have hactivation {x : Activation × Session κ σ ω} {y : Activation × Session κ σ ω'}
      (hxy : Agree Activation.failure? related failed x y) :
      Agree id related failed (x.1.failure?, x.2) (y.1.failure?, y.2) :=
    ⟨congrArg Activation.failure? hxy.1, hxy.2⟩
  cases c with
  | run => exact h.run (hfree rfl) hs
  | activateNext => exact hactivation (h.activateNext hs)
  | activate n => exact hactivation (h.activate hs n)
  | bound limit => exact ⟨rfl, .inl (h.bounded hs limit)⟩

/-- Calls that meet no failure keep what each step keeps. -/
theorem calls (h : Coupled mode ok related failed) {cs : List Call}
    (hfree : .run ∈ cs → mode = .static → ∀ n channels, ok n channels) (hs : related s t)
    (hsmooth : ∀ failure ∈ (s.calls cs).1, failure = none) :
    (t.calls cs).1 = (s.calls cs).1 ∧ related (s.calls cs).2 (t.calls cs).2 := by
  induction cs generalizing s t with
  | nil => exact ⟨rfl, hs⟩
  | cons c cs ih =>
    have hcall := h.call hs (c := c) fun hc ↦ hfree (hc ▸ List.mem_cons_self)
    have hend := hcall.related (hsmooth _ List.mem_cons_self)
    obtain ⟨hrest, hlast⟩ := ih (fun hrun ↦ hfree (List.mem_cons_of_mem c hrun)) hend
      fun failure hfailure ↦ hsmooth failure (List.mem_cons_of_mem _ hfailure)
    exact ⟨congrArg₂ List.cons hcall.1 hrest, hlast⟩

end Coupled

/-- Coupled sessions of nodes that are asked without effect and never answer with a fatal error. -/
structure Lockstep (mode : Mode) (ok : NodeId → List (Channel κ) → Prop)
    (related failed : Session κ σ ω → Session κ σ ω' → Prop) : Prop where
  mode {s t} (h : related s t) : s.engine.plan.mode = mode
  plan {s t} (h : related s t) : t.engine.plan = s.engine.plan
  cursor {s t} (h : related s t) : t.engine.cursor = s.engine.cursor
  context {s t} (h : related s t) : t.context = s.context
  sane {s t} (h : related s t) : s.engine.poisoned = none ∧ t.engine.poisoned = none
  stopped {s t} (h : related s t) : t.stopRequested = s.stopRequested
  status {s t} (h : related s t) {f : Context → Context} (hf : ∀ c, (f c).parked = c.parked) :
    related (s.modifyContext f) (t.modifyContext f)
  status_failed {s t} (h : failed s t) {f : Context → Context} (hf : ∀ c, (f c).parked = c.parked) :
    failed (s.modifyContext f) (t.modifyContext f)
  moved {s t} (h : related s t) (cursor : Nat) : related (s.putCursor cursor) (t.putCursor cursor)
  before {s t} (h : related s t) (i : Nat) :
    related (s.observe (·.beforePeriod i)) (t.observe (·.beforePeriod i))
  after {s t} (h : related s t) (i : Nat) :
    related (s.observe (·.afterPeriod i)) (t.observe (·.afterPeriod i))
  asked {s t} (h : related s t) (n : NodeId) :
    s.readiness n = (.skip, s) ∧ t.readiness n = (.skip, t) ∨
      (s.readiness n = (.proceed, s) ∧ t.readiness n = (.proceed, t)) ∧ ok n s.engine.channels
  fired {s t} (h : related s t) {n : NodeId} (hok : ok n s.engine.channels) :
    (∃ status s' t', s.fire n s.persists = (.ok status, s') ∧ t.fire n s.persists = (.ok status, t') ∧
      related s' t') ∨
    ∃ f s' t', s.fire n s.persists = (.error f, s') ∧ t.fire n s.persists = (.error f, t') ∧
      failed s' t'

namespace Lockstep

variable {mode : Mode} {ok : NodeId → List (Channel κ) → Prop}
  {related failed : Session κ σ ω → Session κ σ ω' → Prop} {s : Session κ σ ω} {t : Session κ σ ω'}

theorem coupled (h : Lockstep mode ok related failed) : Coupled mode ok related failed where
  mode := h.mode
  plan := h.plan
  cursor := h.cursor
  context := h.context
  sane := h.sane
  stopped := h.stopped
  bounded hs limit := h.status (f := (·.withLimit limit)) hs fun _ ↦ rfl
  status hs f hf := h.status hs fun c ↦ (hf c).1
  status_failed hs f hf := h.status_failed hs fun c ↦ (hf c).1
  moved := h.moved
  before := h.before
  after := h.after
  asked hs n := by
    rcases h.asked hs n with ⟨hskip, hskip'⟩ | ⟨⟨hproceed, hproceed'⟩, hok⟩
    · rw [hskip, hskip']
      exact ⟨rfl, hs⟩
    · rw [hproceed, hproceed']
      exact ⟨rfl, hs, hok⟩
  fired := by
    intro s t hs n hok
    rcases h.fired hs hok with ⟨status, u, u', hfire, hfire', hu⟩ | ⟨f, u, u', hfire, hfire', hu⟩
    · rw [hfire, hfire']
      exact ⟨rfl, .inl hu⟩
    · rw [hfire, hfire']
      exact ⟨rfl, .inr ⟨rfl, hu⟩⟩

/-- Where no firing can fail, all calls keep what each step keeps. -/
theorem calls_of_safe (h : Lockstep mode ok related fun _ _ ↦ False) {cs : List Call}
    (hfree : .run ∈ cs → mode = .static → ∀ n channels, ok n channels) (hs : related s t) :
    related (s.calls cs).2 (t.calls cs).2 := by
  induction cs generalizing s t with
  | nil => exact hs
  | cons c cs ih =>
    refine ih (fun hrun ↦ hfree (List.mem_cons_of_mem c hrun)) ?_
    have hcall := h.coupled.call hs (c := c) fun hc ↦ hfree (hc ▸ List.mem_cons_self)
    exact hcall.ends.resolve_right not_false

end Lockstep

end Session

end Dataflow
