import Dataflow.Proofs.Engine.Passes
import Dataflow.Proofs.Engine.Poisoning
import Dataflow.Proofs.Engine.Views

/-!
# Runs as sweeps of single firings

A run that asks its nodes before it fires them does what a host does that names the nodes one after another,
sweep after sweep. The two differ in what they write into the status of the context, and only the run tells
the observers of periods.
-/

namespace Dataflow

variable {κ : Type} [ElementKind κ] {σ ω ν : Type}

def Activation.isNotReady : Activation → Bool
  | .notReady _ => true
  | _ => false

/-- The first failure among these answers. -/
def firstFailure (answers : List Activation) : Option Failure :=
  answers.findSome? Activation.failure?

/-- No sweep follows one with these answers: it has failed or, with `untilIdle`, no node was ready. -/
def isLastSweep (untilIdle : Bool) (answers : List Activation) : Bool :=
  (firstFailure answers).isSome || (untilIdle && answers.all Activation.isNotReady)

namespace Session

/-- Names these nodes one after another, up to the first failure. -/
def activateEach : List NodeId → Session κ σ ω → List Activation × Session κ σ ω
  | [], s => ([], s)
  | n :: rest, s =>
    let (answer, s) := s.activate n
    if answer.failure?.isSome then ([answer], s)
    else
      let (answers, s) := activateEach rest s
      (answer :: answers, s)

/-- At most `rounds` sweeps. -/
def sweep (order : List NodeId) (untilIdle : Bool) :
    (rounds : Nat) → Session κ σ ω → List Activation × Session κ σ ω
  | 0, s => ([], s)
  | rounds + 1, s =>
    let (answers, s) := activateEach order s
    if isLastSweep untilIdle answers then (answers, s)
    else
      let (more, s) := sweep order untilIdle rounds s
      (answers ++ more, s)

/-! ## Answers of sweeps -/

theorem firstFailure_cons (answer : Activation) (answers : List Activation) :
    firstFailure (answer :: answers) = answer.failure?.or (firstFailure answers) := by
  unfold firstFailure
  rw [List.findSome?_cons]
  cases answer.failure? <;> rfl

theorem isLastSweep_of_failure {untilIdle : Bool} {answers : List Activation} {failure : Failure}
    (h : some failure = firstFailure answers) : isLastSweep untilIdle answers = true := by
  rw [isLastSweep, ← h]
  rfl

theorem isLastSweep_of_none {untilIdle : Bool} {answers : List Activation}
    (h : none = firstFailure answers) :
    isLastSweep untilIdle answers = (untilIdle && answers.all Activation.isNotReady) := by
  rw [isLastSweep, ← h]
  rfl

theorem firstFailure_of_not_isLastSweep {untilIdle : Bool} {answers : List Activation}
    (h : isLastSweep untilIdle answers = false) : firstFailure answers = none :=
  Option.isNone_iff_eq_none.mp (Option.isSome_eq_false_iff.mp (Bool.or_eq_false_iff.mp h).1)

variable {view : ω → ν} {f : Frame κ σ ω} {s t u v : Session κ σ ω} {n : NodeId} {rest : List NodeId}

theorem activateEach_of_failure {answer : Activation} {failure : Failure}
    (h : t.activate n = (answer, v)) (hfailure : answer.failure? = some failure) :
    activateEach (n :: rest) t = ([answer], v) := by
  rw [activateEach, h]
  dsimp only
  rw [hfailure]
  rfl

theorem activateEach_of_answer {answer : Activation} (h : t.activate n = (answer, v))
    (hanswer : answer.failure? = none) :
    activateEach (n :: rest) t = (answer :: (activateEach rest v).1, (activateEach rest v).2) := by
  rw [activateEach, h]
  dsimp only
  rw [hanswer]
  rfl

theorem sweep_of_last {order : List NodeId} {untilIdle : Bool} {rounds : Nat}
    (h : isLastSweep untilIdle (activateEach order t).1 = true) :
    sweep order untilIdle (rounds + 1) t = activateEach order t := by
  rw [sweep]
  exact if_pos h

theorem sweep_of_more {order : List NodeId} {untilIdle : Bool} {rounds : Nat}
    (h : isLastSweep untilIdle (activateEach order t).1 = false) :
    sweep order untilIdle (rounds + 1) t =
      ((activateEach order t).1 ++ (sweep order untilIdle rounds (activateEach order t).2).1,
        (sweep order untilIdle rounds (activateEach order t).2).2) := by
  rw [sweep]
  exact if_neg (ne_true_of_eq_false h)

theorem mem_sweep_of_mem_activateEach {order : List NodeId} {untilIdle : Bool} {rounds : Nat}
    {answer : Activation} (h : answer ∈ (activateEach order t).1) :
    answer ∈ (sweep order untilIdle (rounds + 1) t).1 := by
  cases hlast : isLastSweep untilIdle (activateEach order t).1 with
  | true =>
    rw [sweep_of_last hlast]
    exact h
  | false =>
    rw [sweep_of_more hlast]
    exact List.mem_append_left _ h

/-! ## One node -/

/-- Two sessions that match, of a usable engine with this frame. No failure has been recorded in the
first. -/
structure Abreast (view : ω → ν) (f : Frame κ σ ω) (s t : Session κ σ ω) : Prop where
  alike : Matches view s t
  frame : s.frame = f
  sane : s.engine.poisoned = none
  clear : s.context.failure = none

namespace Abreast

theorem plan (h : Abreast view f s t) : t.engine.plan = f.plan := by
  rw [h.alike.engine]
  exact congrArg Frame.plan h.frame

theorem stopped (h : Abreast view f s t) : t.stopRequested = s.stopRequested := by
  rw [stopRequested, stopRequested, h.alike.engine, h.alike.world.1]

theorem refusal (h : Abreast view f s t) : t.engine.refusal = none := by
  rw [Engine.refusal, h.alike.engine, h.sane]
  rfl

theorem activate_of_stopped (h : Abreast view f s t) (hstop : t.stopRequested = true) (n : NodeId) :
    t.activate n = (.stopped, t) := by
  simp only [Session.activate, enter, h.refusal, hstop, if_true]

/-- No stop is requested before a node that is not answered so. -/
theorem running (h : Abreast view f s t) (hgo : .stopped ∉ (activateEach (n :: rest) t).1) :
    t.stopRequested = false := by
  rw [← Bool.not_eq_true]
  intro hstop
  rw [activateEach_of_answer (h.activate_of_stopped hstop n) rfl] at hgo
  exact hgo List.mem_cons_self

/-- Nor is one before a sweep with no such answer. -/
theorem running_sweep (h : Abreast view f s t) {order : List NodeId} (hnonempty : order ≠ [])
    {untilIdle : Bool} {rounds : Nat} (hgo : .stopped ∉ (sweep order untilIdle (rounds + 1) t).1) :
    s.stopRequested = false ∧ .stopped ∉ (activateEach order t).1 := by
  have hround : .stopped ∉ (activateEach order t).1 :=
    fun hmem ↦ hgo (mem_sweep_of_mem_activateEach hmem)
  obtain ⟨n, rest, rfl⟩ := List.exists_cons_of_ne_nil hnonempty
  exact ⟨h.stopped.symm.trans (h.running hround), hround⟩

/-- A node that is named is asked first. -/
theorem activate_eq (h : Abreast view f s t) (hgo : t.stopRequested = false)
    (hn : n < f.plan.graph.nodes.length) :
    t.activate n =
      match (t.modifyContext (·.clearError)).readiness n with
      | (.proceed, v) => v.fireOnce n
      | (.skip, v) => (.notReady n, (v.modifyContext (·.recordSkip n)).modifyContext (·.noteSkip))
      | (.fatal code, v) => (v.failNode n (.fatal code)).2.reject (v.failNode n (.fatal code)).1 := by
  have hplan : (t.modifyContext (·.clearError)).engine.plan = f.plan := h.plan
  rcases hread : (t.modifyContext (·.clearError)).readiness n with ⟨_ | _ | code, v⟩ <;>
    simp only [Session.activate, enter, h.refusal, hgo, Bool.false_eq_true, if_false, hplan,
      Nat.not_le.mpr hn, hread]

theorem readiness (h : Abreast view f s t) (hf : f.Sees view) (n : NodeId) :
    ∃ v, (t.modifyContext (·.clearError)).readiness n = ((s.readiness n).1, v) ∧
      Abreast view f (s.readiness n).2 v := by
  have hclear : Matches view s (t.modifyContext (·.clearError)) := h.alike.status_right fun _ ↦ rfl
  obtain ⟨hanswer, hend⟩ := hclear.readiness (h.frame.symm ▸ hf) n
  have hlocal := s.local_readiness n
  refine ⟨((t.modifyContext (·.clearError)).readiness n).2, Prod.ext hanswer rfl, hend,
    hlocal.frame.trans h.frame, hlocal.poisoned.trans h.sane, ?_⟩
  exact (congrArg Context.failure hlocal.context).trans h.clear

theorem activate_skip (h : Abreast view f s t) (hf : f.Sees view) (hgo : t.stopRequested = false)
    (hn : n < f.plan.graph.nodes.length) (hskip : s.readiness n = (.skip, u)) :
    ∃ v, t.activate n = (.notReady n, v) ∧ Abreast view f (u.modifyContext (·.recordSkip n)) v := by
  obtain ⟨v, hv, hend⟩ := h.readiness hf n
  rw [hskip] at hv hend
  rw [h.activate_eq hgo hn, hv]
  have hcounted : Matches view (u.modifyContext (·.recordSkip n)) (v.modifyContext (·.recordSkip n)) :=
    hend.alike.status fun c c' hc ↦ congrArg (fun x ↦ (x.1, x.2.1, x.2.2 + 1)) hc
  exact ⟨_, rfl, hcounted.status_right fun _ ↦ rfl, hend.frame, hend.sane, hend.clear⟩

theorem activate_fatal (h : Abreast view f s t) (hf : f.Sees view) (hgo : t.stopRequested = false)
    (hn : n < f.plan.graph.nodes.length) {code : StatusCode} (hfatal : s.readiness n = (.fatal code, u)) :
    ∃ v, t.activate n = (.failed (u.failNode n (.fatal code)).1, v) ∧
      Matches view (u.failNode n (.fatal code)).2 v := by
  obtain ⟨v, hv, hend⟩ := h.readiness hf n
  rw [hfatal] at hv hend
  obtain ⟨hfailure, hfailed⟩ := hend.alike.failNode n (.fatal code)
  rw [h.activate_eq hgo hn, hv]
  exact ⟨_, congrArg (fun x ↦ (Activation.failed x, _)) hfailure, hfailed.status_right fun _ ↦ rfl⟩

theorem activate_proceed (h : Abreast view f s t) (hf : f.Sees view) (hgo : t.stopRequested = false)
    (hn : n < f.plan.graph.nodes.length) (hproceed : s.readiness n = (.proceed, u)) :
    ∃ v, t.activate n = v.fireOnce n ∧ Abreast view f u v := by
  obtain ⟨v, hv, hend⟩ := h.readiness hf n
  rw [hproceed] at hv hend
  refine ⟨v, ?_, hend⟩
  rw [h.activate_eq hgo hn, hv]

theorem fire (h : Abreast view f s t) (hf : f.Sees view) (n : NodeId) (persist : Bool) :
    (t.fire n persist).1 = (s.fire n persist).1 ∧
      Matches view (s.fire n persist).2 (t.fire n persist).2 :=
  h.alike.fire (h.frame.symm ▸ hf) n persist

/-- A firing of the run that does not fail. -/
theorem fire_ok (h : Abreast view f s t) (hf : f.Sees view) {persist : Bool} {status : RunStatus}
    (hok : s.fire n persist = (.ok status, u)) :
    t.fire n persist = (.ok status, (t.fire n persist).2) ∧
      Abreast view f u (t.fire n persist).2 := by
  obtain ⟨hsame, hend⟩ := h.fire hf n persist
  have hframe := s.frame_fire n persist
  have hlocal := s.local_attempt n persist
  rcases s.fire_cases n persist with ⟨status', -, hfire⟩ | ⟨e, -, hfire⟩
  · have hu : u = (s.attempt n persist).2.note n (.ok status') :=
      congrArg Prod.snd (hok.symm.trans hfire)
    rw [hok] at hsame hend hframe
    refine ⟨Prod.ext hsame rfl, hend, hframe.trans h.frame, ?_, ?_⟩
    · rw [hu]
      exact hlocal.poisoned.trans h.sane
    · rw [hu]
      exact (congrArg Context.failure hlocal.context).trans h.clear
  · exact nomatch hok.symm.trans hfire

/-- What is answered after a firing of the run that does not fail. -/
theorem fireOnce_ok (h : Abreast view f s t) (hf : f.Sees view) {persist : Bool}
    (hpersist : persist = decide (f.plan.mode = .fullyAsynchronous)) {status : RunStatus}
    (hok : s.fire n persist = (.ok status, u)) :
    ∃ answer v, t.fireOnce n = (answer, v) ∧ answer.failure? = none ∧ answer.isNotReady = false ∧
      Abreast view f u v := by
  obtain ⟨hfire, hend⟩ := h.fire_ok hf hok
  unfold Session.fireOnce
  rw [h.plan, ← hpersist, hfire]
  cases status with
  | success => exact ⟨_, _, rfl, rfl, rfl, hend⟩
  | skip => exact ⟨_, _, rfl, rfl, rfl, hend.alike.status_right fun _ ↦ rfl, hend.frame, hend.sane,
      hend.clear⟩

/-- What is answered after a firing of the run that fails. -/
theorem fireOnce_error (h : Abreast view f s t) (hf : f.Sees view) {persist : Bool}
    (hpersist : persist = decide (f.plan.mode = .fullyAsynchronous)) {failure : Failure}
    (herror : s.fire n persist = (.error failure, u)) :
    ∃ v, t.fireOnce n = (.failed failure, v) ∧ Matches view u v := by
  obtain ⟨hsame, hend⟩ := h.fire hf n persist
  rw [herror] at hsame hend
  have hfire : t.fire n persist = (.error failure, (t.fire n persist).2) := Prod.ext hsame rfl
  unfold Session.fireOnce
  rw [h.plan, ← hpersist, hfire]
  exact ⟨_, rfl, hend.status_right fun _ ↦ rfl⟩

theorem begins (h : Abreast view f s t) : Abreast view f (s.modifyContext (·.beginPeriod)) t :=
  ⟨h.alike.status_left fun _ ↦ rfl, h.frame, h.sane, h.clear⟩

theorem beforePeriod (h : Abreast view f s t) (hf : f.Sees view) (i : Nat) :
    Abreast view f (s.observe (·.beforePeriod i)) t :=
  ⟨h.alike.beforePeriod (h.frame.symm ▸ hf) i, h.frame, h.sane, h.clear⟩

theorem closeRound (h : Abreast view f s t) (hf : f.Sees view) (i : Nat) :
    Abreast view f (s.closeRound i) t := by
  have hcompleted : Matches view (s.modifyContext (·.completePeriod)) t :=
    h.alike.status_left fun _ ↦ rfl
  exact ⟨hcompleted.afterPeriod (h.frame.symm ▸ hf) i, h.frame, h.sane, h.clear⟩

end Abreast

/-! ## One round -/

/-- The failure, if any, is the first of the answers, and the sessions have stayed abreast or match after
it. -/
def EndsAs (view : ω → ν) (f : Frame κ σ ω) (x : Option Failure × Session κ σ ω)
    (y : List Activation × Session κ σ ω) : Prop :=
  x.1 = firstFailure y.1 ∧ (Abreast view f x.2 y.2 ∨ x.1.isSome ∧ Matches view x.2 y.2)

theorem EndsAs.abreast {x : Option Failure × Session κ σ ω} {y : List Activation × Session κ σ ω}
    (h : EndsAs view f x y) (hnone : x.1 = none) : Abreast view f x.2 y.2 :=
  h.2.resolve_right fun hfailed ↦ by
    rw [hnone] at hfailed
    exact Bool.false_ne_true hfailed.1

theorem EndsAs.alike {x : Option Failure × Session κ σ ω} {y : List Activation × Session κ σ ω}
    (h : EndsAs view f x y) : Matches view x.2 y.2 := h.2.elim Abreast.alike And.right

/-- After an answer that is no failure, the rest decides. -/
theorem EndsAs.cons {x : Option Failure × Session κ σ ω} {answer : Activation}
    (hanswer : answer.failure? = none) (hactivate : t.activate n = (answer, v))
    (h : EndsAs view f x (activateEach rest v)) : EndsAs view f x (activateEach (n :: rest) t) := by
  rw [activateEach_of_answer hactivate hanswer]
  refine ⟨?_, h.2⟩
  rw [firstFailure_cons, hanswer]
  exact h.1

/-- A failure ends both. -/
theorem EndsAs.failed {failure : Failure} (hactivate : t.activate n = (.failed failure, v))
    (h : Matches view u v) : EndsAs view f (some failure, u) (activateEach (n :: rest) t) := by
  rw [activateEach_of_failure hactivate rfl]
  exact ⟨rfl, .inr ⟨rfl, h⟩⟩

theorem not_mem_tail {answer : Activation} (hanswer : answer.failure? = none)
    (hactivate : t.activate n = (answer, v)) (hgo : .stopped ∉ (activateEach (n :: rest) t).1) :
    .stopped ∉ (activateEach rest v).1 := by
  rw [activateEach_of_answer hactivate hanswer] at hgo
  exact fun hmem ↦ hgo (List.mem_cons_of_mem _ hmem)

/-- A period is a sweep of its nodes. -/
theorem visitPeriod_eq_activateEach (hf : f.Sees view)
    (hpersist : false = decide (f.plan.mode = .fullyAsynchronous)) (order : List NodeId)
    (horder : ∀ n ∈ order, n < f.plan.graph.nodes.length) (h : Abreast view f s t)
    (hgo : .stopped ∉ (activateEach order t).1) :
    EndsAs view f (visitPeriod true order s) (activateEach order t) := by
  induction order generalizing s t with
  | nil => exact ⟨rfl, .inl h⟩
  | cons n rest ih =>
    have hrunning := h.running hgo
    have hn := horder n List.mem_cons_self
    have hrest : ∀ n ∈ rest, n < f.plan.graph.nodes.length :=
      fun m hm ↦ horder m (List.mem_cons_of_mem n hm)
    unfold visitPeriod
    rcases hread : s.readiness n with ⟨_ | _ | code, u⟩
    · obtain ⟨v, hactivate, huv⟩ := h.activate_proceed hf hrunning hn hread
      simp only [if_true]
      rcases hfire : u.fire n false with ⟨failure | status, w⟩
      · obtain ⟨v', hv', hwv⟩ := huv.fireOnce_error hf hpersist hfire
        exact .failed (hactivate.trans hv') hwv
      · obtain ⟨answer, v', hv', hanswer, -, hwv⟩ := huv.fireOnce_ok hf hpersist hfire
        exact .cons hanswer (hactivate.trans hv')
          (ih hrest hwv (not_mem_tail hanswer (hactivate.trans hv') hgo))
    · obtain ⟨v, hactivate, huv⟩ := h.activate_skip hf hrunning hn hread
      exact .cons rfl hactivate (ih hrest huv (not_mem_tail rfl hactivate hgo))
    · obtain ⟨v, hactivate, huv⟩ := h.activate_fatal hf hrunning hn hread
      exact .failed hactivate huv

/-- A pass is a sweep of its nodes: nobody stops it, and it has begun when some node was ready. -/
theorem visitPass_eq_activateEach (hf : f.Sees view)
    (hpersist : true = decide (f.plan.mode = .fullyAsynchronous)) (iteration : Nat)
    (order : List NodeId) (started : Bool) (horder : ∀ n ∈ order, n < f.plan.graph.nodes.length)
    (h : Abreast view f s t) (hgo : .stopped ∉ (activateEach order t).1) :
    EndsAs view f
        (Except.failure? (visitPass iteration order started s).1, (visitPass iteration order started s).2)
        (activateEach order t) ∧
      ∀ pass, (visitPass iteration order started s).1 = .ok pass → pass.stopped = false ∧
        pass.started = (started || !(activateEach order t).1.all Activation.isNotReady) := by
  induction order generalizing s t started with
  | nil =>
    refine ⟨⟨rfl, .inl h⟩, ?_⟩
    rintro _ ⟨⟩
    exact ⟨rfl, (Bool.or_false _).symm⟩
  | cons n rest ih =>
    have hrunning := h.running hgo
    have hrunning' : s.stopRequested = false := h.stopped.symm.trans hrunning
    have hn := horder n List.mem_cons_self
    have hrest : ∀ n ∈ rest, n < f.plan.graph.nodes.length :=
      fun m hm ↦ horder m (List.mem_cons_of_mem n hm)
    unfold visitPass
    rw [hrunning']
    simp only [Bool.false_eq_true, if_false]
    rcases hread : s.readiness n with ⟨_ | _ | code, u⟩
    · obtain ⟨v, hactivate, huv⟩ := h.activate_proceed hf hrunning hn hread
      dsimp only
      -- that a round begins is told by the run alone, and leaves both abreast
      obtain ⟨u', hu', huv'⟩ : ∃ u',
          (if started then u else u.observe (·.beforePeriod iteration)) = u' ∧ Abreast view f u' v := by
        cases started with
        | true => exact ⟨u, rfl, huv⟩
        | false => exact ⟨_, rfl, huv.beforePeriod hf iteration⟩
      rw [hu']
      rcases hfire : u'.fire n true with ⟨failure | status, w⟩
      · obtain ⟨v', hv', hwv⟩ := huv'.fireOnce_error hf hpersist hfire
        exact ⟨.failed (hactivate.trans hv') hwv, fun _ hpass ↦ by cases hpass⟩
      · obtain ⟨answer, v', hv', hanswer, hready, hwv⟩ := huv'.fireOnce_ok hf hpersist hfire
        obtain ⟨hend, hpass⟩ := ih true hrest hwv (not_mem_tail hanswer (hactivate.trans hv') hgo)
        refine ⟨.cons hanswer (hactivate.trans hv') hend, fun pass hok ↦ ?_⟩
        rw [activateEach_of_answer (hactivate.trans hv') hanswer, List.all_cons, hready]
        refine ⟨(hpass pass hok).1, (hpass pass hok).2.trans ?_⟩
        rw [Bool.true_or, Bool.false_and, Bool.not_false, Bool.or_true]
    · obtain ⟨v, hactivate, huv⟩ := h.activate_skip hf hrunning hn hread
      obtain ⟨hend, hpass⟩ := ih started hrest huv (not_mem_tail rfl hactivate hgo)
      refine ⟨.cons rfl hactivate hend, fun pass hok ↦ ?_⟩
      rw [activateEach_of_answer hactivate rfl]
      exact hpass pass hok
    · obtain ⟨v, hactivate, huv⟩ := h.activate_fatal hf hrunning hn hread
      exact ⟨.failed hactivate huv, fun _ hpass ↦ by cases hpass⟩

/-! ## Whole runs -/

theorem EndsAs.last {x : Option Failure × Session κ σ ω} {order : List NodeId} {untilIdle : Bool}
    {rounds : Nat} (hlast : isLastSweep untilIdle (activateEach order t).1 = true)
    (h : EndsAs view f x (activateEach order t)) :
    EndsAs view f x (sweep order untilIdle (rounds + 1) t) := by
  rw [sweep_of_last hlast]
  exact h

/-- After a sweep that is not the last, the sweeps to come decide. -/
theorem EndsAs.more {x : Option Failure × Session κ σ ω} {order : List NodeId} {untilIdle : Bool}
    {rounds : Nat} (hmore : isLastSweep untilIdle (activateEach order t).1 = false)
    (h : .stopped ∉ (sweep order untilIdle rounds (activateEach order t).2).1 →
      EndsAs view f x (sweep order untilIdle rounds (activateEach order t).2))
    (hgo : .stopped ∉ (sweep order untilIdle (rounds + 1) t).1) :
    EndsAs view f x (sweep order untilIdle (rounds + 1) t) := by
  have hnone := firstFailure_of_not_isLastSweep hmore
  rw [sweep_of_more hmore] at hgo ⊢
  obtain ⟨hfailure, hend⟩ := h fun hmem ↦ hgo (List.mem_append_right _ hmem)
  refine ⟨?_, hend⟩
  rw [hfailure, firstFailure, firstFailure, List.findSome?_append]
  exact (congrArg (Option.or · _) hnone).symm

theorem runPeriods_eq_sweep (hf : f.Sees view)
    (hpersist : false = decide (f.plan.mode = .fullyAsynchronous)) (hnonempty : f.plan.order ≠ [])
    (horder : ∀ n ∈ f.plan.order, n < f.plan.graph.nodes.length) (rounds : Nat)
    (h : Abreast view f s t) (hgo : .stopped ∉ (sweep f.plan.order false rounds t).1) :
    EndsAs view f (runPeriods true rounds s) (sweep f.plan.order false rounds t) := by
  induction rounds generalizing s t with
  | zero => exact ⟨rfl, .inl h⟩
  | succ rounds ih =>
    obtain ⟨hrunning, hround⟩ := h.running_sweep hnonempty hgo
    have hplan : s.engine.plan = f.plan := congrArg Frame.plan h.frame
    have hvisit := visitPeriod_eq_activateEach hf hpersist f.plan.order horder
      (h.begins.beforePeriod hf s.context.iterations) hround
    rw [← hplan] at hvisit
    rcases hperiod : visitPeriod true s.engine.plan.order ((s.modifyContext (·.beginPeriod)).observe
      (·.beforePeriod s.context.iterations)) with ⟨_ | failure, u⟩
    · rw [hperiod, hplan] at hvisit
      rw [runPeriods_succ hrunning hperiod]
      exact .more (isLastSweep_of_none hvisit.1) (ih ((hvisit.abreast rfl).closeRound hf _)) hgo
    · rw [hperiod, hplan] at hvisit
      rw [runPeriods_succ_of_failure hrunning hperiod]
      exact .last (isLastSweep_of_failure hvisit.1) hvisit

theorem runPasses_eq_sweep (hf : f.Sees view)
    (hpersist : true = decide (f.plan.mode = .fullyAsynchronous)) (hnonempty : f.plan.firingOrder ≠ [])
    (horder : ∀ n ∈ f.plan.firingOrder, n < f.plan.graph.nodes.length) (rounds : Nat)
    (h : Abreast view f s t) (hgo : .stopped ∉ (sweep f.plan.firingOrder true rounds t).1) :
    EndsAs view f (runPasses rounds s) (sweep f.plan.firingOrder true rounds t) := by
  induction rounds generalizing s t with
  | zero => exact ⟨rfl, .inl h⟩
  | succ rounds ih =>
    obtain ⟨hrunning, hround⟩ := h.running_sweep hnonempty hgo
    have hplan : (s.modifyContext (·.beginPeriod)).engine.plan = f.plan := congrArg Frame.plan h.frame
    obtain ⟨hvisit, hpass⟩ := visitPass_eq_activateEach hf hpersist s.context.iterations
      f.plan.firingOrder false horder h.begins hround
    unfold runPasses
    rw [hrunning]
    simp only [Bool.false_eq_true, if_false]
    rw [hplan]
    rcases hended : visitPass _ _ _ _ with ⟨failure | pass, u⟩
    · rw [hended] at hvisit
      exact .last (isLastSweep_of_failure hvisit.1) hvisit
    · rw [hended] at hvisit hpass
      obtain ⟨hstopped, hstarted⟩ := hpass pass rfl
      have hlast : isLastSweep true (activateEach f.plan.firingOrder t).1 = !pass.started := by
        rw [isLastSweep_of_none hvisit.1, hstarted, Bool.true_and, Bool.false_or, Bool.not_not]
      dsimp only
      rw [hstopped]
      cases hbegun : pass.started with
      | false =>
        rw [hbegun] at hlast
        exact .last hlast hvisit
      | true =>
        rw [hbegun] at hlast
        exact .more hlast (ih ((hvisit.abreast rfl).closeRound hf _)) hgo

theorem runRounds_eq_sweep (hf : f.Sees view) (hmode : f.plan.mode ≠ .static)
    (hnonempty : f.plan.firingOrder ≠ [])
    (horder : ∀ n ∈ f.plan.firingOrder, n < f.plan.graph.nodes.length) (h : Abreast view f s t)
    (hgo : .stopped ∉ (sweep f.plan.firingOrder (f.plan.mode = .fullyAsynchronous)
      (s.context.limit.getD unbounded) t).1) :
    EndsAs view f s.runRounds (sweep f.plan.firingOrder (f.plan.mode = .fullyAsynchronous)
      (s.context.limit.getD unbounded) t) := by
  have hplan : s.engine.plan = f.plan := congrArg Frame.plan h.frame
  unfold runRounds
  dsimp only
  rw [hplan]
  cases hm : f.plan.mode with
  | static => exact absurd hm hmode
  | fullyAsynchronous =>
    have hpersist : true = decide (f.plan.mode = .fullyAsynchronous) := by rw [hm]; rfl
    rw [← hpersist] at hgo
    exact runPasses_eq_sweep hf hpersist hnonempty horder _ h hgo
  | asynchronous =>
    have hpersist : false = decide (f.plan.mode = .fullyAsynchronous) := by rw [hm]; rfl
    have hperiod : f.plan.firingOrder = f.plan.order := by
      rw [Plan.firingOrder, Plan.schedule, hm]
    rw [← hpersist, hperiod] at hgo
    rw [hperiod] at hnonempty horder ⊢
    exact runPeriods_eq_sweep hf hpersist hnonempty horder _ h hgo

theorem sweep_of_poisoned {order : List NodeId} (hnonempty : order ≠ []) {failure : Failure}
    (h : t.engine.poisoned = some failure) (untilIdle : Bool) (rounds : Nat) :
    sweep order untilIdle (rounds + 1) t = ([.failed { failure with code := .fatal }],
      ⟨t.engine, t.context.fail { failure with code := .fatal }, t.world⟩) := by
  obtain ⟨n, rest, rfl⟩ := List.exists_cons_of_ne_nil hnonempty
  have heach : activateEach (n :: rest) t = _ := activateEach_of_failure (activate_of_poisoned h n) rfl
  rw [sweep_of_last, heach]
  rw [heach]
  rfl

/-- A run ends as a sweep from zeroed counters does. -/
theorem matches_sweep (hf : s.frame.Sees view) (hmode : s.engine.plan.mode ≠ .static)
    (hnonempty : s.engine.plan.firingOrder ≠ [])
    (horder : ∀ n ∈ s.engine.plan.firingOrder, n < s.engine.plan.graph.nodes.length)
    (hlimit : s.engine.poisoned = none ∨ s.context.limit ≠ some 0)
    (hgo : .stopped ∉ (sweep s.engine.plan.firingOrder (s.engine.plan.mode = .fullyAsynchronous)
      (s.context.limit.getD unbounded) (s.modifyContext (·.reset))).1) :
    let swept := sweep s.engine.plan.firingOrder (s.engine.plan.mode = .fullyAsynchronous)
      (s.context.limit.getD unbounded) (s.modifyContext (·.reset))
    s.run.1.failure = firstFailure swept.1 ∧ Matches view s.run.2 swept.2 := by
  intro swept
  have hreset : Matches view (s.modifyContext (·.reset)) (s.modifyContext (·.reset)) :=
    ⟨rfl, rfl, .refl _⟩
  cases hpoisoned : s.engine.poisoned with
  | none =>
    have hrefusal : (s.modifyContext (·.reset)).engine.refusal = none := refusal_of_sane hpoisoned
    have hrounds := runRounds_eq_sweep (s := s.modifyContext (·.reset)) hf hmode hnonempty horder
      ⟨hreset, rfl, hpoisoned, rfl⟩ hgo
    change EndsAs view s.frame _ swept at hrounds
    unfold run
    dsimp only
    rw [hrefusal]
    dsimp only
    rcases hrun : (s.modifyContext (·.reset)).runRounds with ⟨_ | failure, u⟩
    · rw [hrun] at hrounds
      exact ⟨(hrounds.abreast rfl).clear.trans hrounds.1, hrounds.alike⟩
    · rw [hrun] at hrounds
      exact ⟨hrounds.1, hrounds.alike.status_left fun _ ↦ rfl⟩
  | some failure =>
    -- the bound leaves room for a round, and the first node named in it is refused like the run
    obtain ⟨rounds, hrounds⟩ : ∃ rounds, s.context.limit.getD unbounded = rounds + 1 := by
      refine Nat.exists_eq_succ_of_ne_zero ?_
      have hbound := hlimit.resolve_left (by rw [hpoisoned]; exact Option.some_ne_none _)
      cases hc : s.context.limit with
      | none => exact Nat.pos_iff_ne_zero.mp (Nat.two_pow_pos 64)
      | some limit => exact fun h ↦ hbound (hc.trans (congrArg some h))
    have hswept : swept = _ := (congrArg (sweep _ _ · _) hrounds).trans
      (sweep_of_poisoned (t := s.modifyContext (·.reset)) hnonempty hpoisoned _ rounds)
    rw [run_of_poisoned hpoisoned, hswept]
    exact ⟨rfl, rfl, rfl, .refl _⟩

/-! ## Traces of sweeps -/

section Coupled

variable {mode : Mode} {ok : NodeId → List (Channel κ) → Prop} {ω' : Type}
  {related failed : Session κ σ ω → Session κ σ ω' → Prop} {s : Session κ σ ω} {t : Session κ σ ω'}

theorem Coupled.activateEach (h : Coupled mode ok related failed) (order : List NodeId)
    (hs : related s t) :
    Agree firstFailure related failed (Session.activateEach order s)
      (Session.activateEach order t) := by
  induction order generalizing s t with
  | nil => exact ⟨rfl, .inl hs⟩
  | cons n rest ih =>
    have hactivate := h.activate hs n
    have hsame := hactivate.1
    rcases hx : s.activate n with ⟨answer, u⟩
    rcases hy : t.activate n with ⟨answer', v⟩
    rw [hx, hy] at hactivate hsame
    obtain rfl : answer' = answer := hsame
    cases hanswer : answer'.failure? with
    | none =>
      have hrest := ih (hactivate.related hanswer)
      rw [activateEach_of_answer hx hanswer, activateEach_of_answer hy hanswer]
      refine ⟨congrArg (answer' :: ·) hrest.1, ?_⟩
      dsimp only
      rw [firstFailure_cons, hanswer]
      exact hrest.2
    | some failure =>
      rw [activateEach_of_failure hx hanswer, activateEach_of_failure hy hanswer]
      refine ⟨rfl, hactivate.2.imp_right fun hend ↦ ⟨?_, hend.2⟩⟩
      rw [firstFailure_cons, hanswer]
      rfl

theorem Coupled.sweep (h : Coupled mode ok related failed) (order : List NodeId) (untilIdle : Bool)
    (rounds : Nat) (hs : related s t) :
    (Session.sweep order untilIdle rounds t).1 = (Session.sweep order untilIdle rounds s).1 := by
  induction rounds generalizing s t with
  | zero => rfl
  | succ rounds ih =>
    have hround := h.activateEach order hs
    cases hlast : isLastSweep untilIdle (Session.activateEach order s).1 with
    | true =>
      rw [sweep_of_last hlast, sweep_of_last (hround.1 ▸ hlast)]
      exact hround.1
    | false =>
      have hrest := ih (hround.related (firstFailure_of_not_isLastSweep hlast))
      rw [sweep_of_more hlast, sweep_of_more (hround.1 ▸ hlast)]
      dsimp only
      rw [hround.1, hrest]

end Coupled

/-- The events of a sweep. -/
def sweepTrace (order : List NodeId) (untilIdle : Bool) (rounds : Nat) (s : Session κ σ ω) :
    List Event := (sweep order untilIdle rounds (s.traced [])).2.world.host.2

theorem sweep_traced {order : List NodeId} (hnonempty : order ≠ []) (untilIdle : Bool) (rounds : Nat)
    (s : Session κ σ ω) :
    (sweep order untilIdle rounds (s.traced [])).1 = (sweep order untilIdle rounds s).1 := by
  cases hpoisoned : s.engine.poisoned with
  | none =>
    exact (chronicle_poisons s.engine.plan).coupled.sweep order untilIdle rounds
      ⟨[], rfl, ⟨rfl, hpoisoned⟩, hpoisoned⟩
  | some failure =>
    cases rounds with
    | zero => rfl
    | succ rounds =>
      rw [sweep_of_poisoned hnonempty hpoisoned,
        sweep_of_poisoned (t := s.traced []) hnonempty hpoisoned]

/-! ## Runs and sweeps -/

/-- Where each node is asked before it fires, a run and sweeps over the same nodes, as many as the bound
allows, lead to the same engine, parked states and counters, through the same firings and to the same
first failure. Nodes and observers may do as they like, except that observers leave alone what the nodes
see, and nobody requests a stop. -/
theorem run_eq_sweep {g : Graph} (hg : g.Built) {o : CompileOptions} {p : Plan}
    (hp : g.compile o = .ok p) (hmode : p.mode ≠ .static) (view : ω → ν) (e : Engine κ σ ω)
    (he : e.plan = p) (hnodes : ∀ b ∈ e.frame.behaviours, b.Sees view) (hhooks : e.hooks.Observe view)
    (c : Context) (w : World ω) (hlimit : e.poisoned = none ∨ c.limit ≠ some 0)
    (hgo : .stopped ∉ (sweep p.firingOrder (p.mode = .fullyAsynchronous) (c.limit.getD unbounded)
      ⟨e, c.reset, w⟩).1) :
    let ran := Session.run ⟨e, c, w⟩
    let swept := sweep p.firingOrder (p.mode = .fullyAsynchronous) (c.limit.getD unbounded)
      ⟨e, c.reset, w⟩
    swept.2.engine = ran.2.engine ∧ swept.2.context.parked = ran.2.context.parked ∧
      swept.2.context.activations = ran.2.context.activations ∧
      swept.2.context.totalSkips = ran.2.context.totalSkips ∧ ran.2.world.Same view swept.2.world ∧
      firstFailure swept.1 = ran.1.failure ∧
      activationEvents (sweepTrace p.firingOrder (p.mode = .fullyAsynchronous)
          (c.limit.getD unbounded) ⟨e, c.reset, w⟩) =
        activationEvents (trace ⟨e, c, w⟩ .run) := by
  intro ran swept
  obtain ⟨hsound, -⟩ := Graph.sound_of_compile hg.coherent hp
  subst he
  have hnonempty : e.plan.firingOrder ≠ [] :=
    List.ne_nil_of_mem (hsound.mem_firingOrder hsound.valid.nonempty)
  have horder : ∀ n ∈ e.plan.firingOrder, n < e.plan.graph.nodes.length :=
    fun n hn ↦ hsound.lt_of_mem_firingOrder hn
  obtain ⟨hfailure, hend⟩ := matches_sweep (s := ⟨e, c, w⟩) ⟨hnodes, hhooks.steady⟩ hmode hnonempty
    horder hlimit hgo
  -- once more with the trace as a part of the view, for a trace does not change the answers
  have hgo' := hgo
  rw [← sweep_traced hnonempty] at hgo'
  obtain ⟨-, hend'⟩ := matches_sweep (s := (Session.mk e c w).traced [])
    (sees_traced (s := ⟨e, c, w⟩) hnodes hhooks []) hmode hnonempty horder hlimit hgo'
  refine ⟨hend.engine, hend.parked, congrArg (·.2.1) hend.tally, congrArg (·.2.2) hend.tally,
    hend.world, hfailure.symm, congrArg Prod.snd hend'.world.2⟩

/-- Two passes over the two nodes. -/
theorem looped_run_eq_sweep :
    ∃ e w, (Binding.ofCalls (Looped.plan .fullyAsynchronous [7, 3]) 0 Looped.calls).build Looped.world =
        (.ok e, w) ∧
      (sweep [0, 1] true 2 ⟨e, (Context.new (some 2)).reset, w⟩).2.engine =
        (Session.run ⟨e, .new (some 2), w⟩).2.engine ∧
      activationEvents (sweepTrace [0, 1] true 2 ⟨e, (Context.new (some 2)).reset, w⟩) =
        activationEvents (trace ⟨e, .new (some 2), w⟩ .run) := by
  have hcompile : Looped.graph.compile ⟨.fullyAsynchronous, 0, some 7, 100⟩ =
      .ok (Looped.plan .fullyAsynchronous [7, 3]) := by decide +kernel
  obtain ⟨e, w, hbuild⟩ : ∃ e w,
      (Binding.ofCalls (Looped.plan .fullyAsynchronous [7, 3]) 0 Looped.calls).build Looped.world =
        (.ok e, w) := ⟨_, _, rfl⟩
  have hplan : e.plan = Looped.plan .fullyAsynchronous [7, 3] := by
    cases hbuild
    rfl
  have hhooks : e.hooks.Observe id := by
    cases hbuild
    exact Hooks.observe_none id
  have hsane : e.poisoned = none := by
    cases hbuild
    rfl
  have hgo : .stopped ∉ (sweep [0, 1] true 2 ⟨e, (Context.new (some 2)).reset, w⟩).1 := by
    cases hbuild
    decide +kernel
  obtain ⟨hengine, -, -, -, -, -, hevents⟩ := run_eq_sweep Looped.built_graph hcompile (by decide) id e
    hplan (fun b _ ↦ b.sees_id) hhooks (.new (some 2)) w (.inl hsane) hgo
  exact ⟨e, w, hbuild, hengine, hevents⟩

end Session

/-! ## A run of no rounds -/

/-- A node without ports that breaks whenever it runs. -/
def Solo.breaker : Behaviour Scalar Unit Unit where
  run := fun s ↦ .done (.error (.fatal (.node 1)), s)

namespace Session

/-- A run of an unusable engine says so even if its bound leaves no room for a round, in which a node would
be named. -/
theorem unusable_run_without_rounds :
    ¬ ∀ (g : Graph) (o : CompileOptions) (p : Plan) (e : Engine Scalar Unit Unit) (c : Context)
      (w : World Unit), g.Built → g.compile o = .ok p → p.mode ≠ .static → e.plan = p →
      (∀ b ∈ e.frame.behaviours, b.Sees id) → e.hooks.Observe id →
      .stopped ∉ (sweep p.firingOrder (p.mode = .fullyAsynchronous) (c.limit.getD unbounded)
        ⟨e, c.reset, w⟩).1 →
      firstFailure (sweep p.firingOrder (p.mode = .fullyAsynchronous) (c.limit.getD unbounded)
        ⟨e, c.reset, w⟩).1 = (Session.run ⟨e, c, w⟩).1.failure := by
  intro h
  have hcompile : Solo.graph.compile ⟨.fullyAsynchronous, 0, none, 100⟩ = .ok Solo.plan := by
    decide +kernel
  -- a run of one pass leaves the engine unusable
  let broken : Session Scalar Unit Unit := (Session.mk
    ⟨Solo.plan, [⟨Solo.breaker, ()⟩], [], .none, 0, none, 0⟩ (.new (some 1)) ⟨.empty, ()⟩).run.2
  have hnone := h _ _ _ broken.engine (broken.context.withLimit (some 0)) broken.world Solo.built_graph
    hcompile (by decide) rfl (fun b _ ↦ b.sees_id) (Hooks.observe_none id) List.not_mem_nil
  have hfails : (Session.run ⟨broken.engine, broken.context.withLimit (some 0), broken.world⟩).1.failure =
      some ⟨.fatal, 0, 0, true⟩ := rfl
  rw [hfails] at hnone
  exact nomatch hnone

end Session

end Dataflow
