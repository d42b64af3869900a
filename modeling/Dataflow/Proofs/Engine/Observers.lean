import Dataflow.Proofs.Engine.Rounds

/-!
# What observers see of a run

Observers see the rounds of a run one after the other, and in each round its firings one after the other.
A round that is not closed is the last one, in a run that has failed. What observers count is what the
report of the run and its context say.
-/

namespace Dataflow

variable {κ : Type} [ElementKind κ] {σ ω : Type}

/-- The event is shown to the observers. -/
def Event.isHook : Event → Bool
  | .beforePeriod _ | .afterPeriod _ | .beforeActivation _ | .afterActivation _ _ => true
  | _ => false

/-- What a node does in a firing is not shown to the observers. -/
theorem Event.isHook_of_isWork {event : Event} (h : event.isWork) : event.isHook = false := by
  cases event <;> first | rfl | exact absurd h Bool.false_ne_true

/-- What observers see of these moments. -/
def hookEvents (moments : List (Moment ω)) : List Event := (moments.map (·.event)).filter Event.isHook

/-- What observers see of a firing. -/
def firingEvents (firing : NodeId × Outcome) : List Event :=
  [.beforeActivation firing.1, .afterActivation firing.1 firing.2]

/-- What observers see of round `i` before it is closed. -/
def openRound (i : Nat) (firings : List (NodeId × Outcome)) : List Event :=
  .beforePeriod i :: firings.flatMap firingEvents

/-- What observers see of a round from its beginning to its end. -/
def closedRound (round : List (NodeId × Outcome) × Nat) : List Event :=
  openRound round.2 round.1 ++ [.afterPeriod round.2]

@[simp]
theorem hookEvents_append (moments moments' : List (Moment ω)) :
    hookEvents (moments ++ moments') = hookEvents moments ++ hookEvents moments' := by
  simp only [hookEvents, List.map_append, List.filter_append]

theorem hookEvents_eq_nil {moments : List (Moment ω)}
    (h : ∀ moment ∈ moments, moment.event.isHook = false) : hookEvents moments = [] := by
  apply List.filter_eq_nil_iff.mpr
  intro event hevent
  obtain ⟨moment, hmoment, rfl⟩ := List.mem_map.mp hevent
  rw [h moment hmoment]
  exact Bool.false_ne_true

variable {f : Frame κ σ ω} {n : NodeId} {outcome : Outcome} {polls check begun begun' failed : Bool}
  {i bound : Nat} {order : List NodeId} {w : World ω} {moments : List (Moment ω)} {answer : Readiness}
  {firings : List (NodeId × Outcome)} {rounds : List (List (NodeId × Outcome))}
  {last : Option (List (NodeId × Outcome))} {finish : Finish}

/-! ## The order of the events -/

theorem Firing.hookEvents_eq (h : Firing n outcome moments) :
    hookEvents moments = firingEvents (n, outcome) := by
  cases h with
  | @intro w w' work hwork =>
    have hnone : hookEvents work = [] := by
      apply hookEvents_eq_nil
      intro moment hmoment
      exact Event.isHook_of_isWork (hwork moment hmoment)
    calc
      hookEvents (⟨.beforeActivation n, w⟩ :: (work ++ [⟨.afterActivation n outcome, w'⟩])) =
          .beforeActivation n :: hookEvents (work ++ [⟨.afterActivation n outcome, w'⟩]) := rfl
      _ = .beforeActivation n :: (hookEvents work ++ [.afterActivation n outcome]) := by
        rw [hookEvents_append]
        rfl
      _ = firingEvents (n, outcome) := by
        rw [hnone]
        rfl

theorem Inquiry.hookEvents_eq (h : Inquiry f check n answer moments) : hookEvents moments = [] := by
  cases h <;> rfl

/-- What observers see of the beginning of a round, if it comes in between. -/
def opened (i : Nat) (begun begun' : Bool) : List Event :=
  if begun' = begun then [] else [.beforePeriod i]

theorem Opening.hookEvents_eq (h : Opening i begun moments) :
    hookEvents moments = opened i begun true := by
  cases h <;> rfl

/-- A round that has begun stays so. -/
theorem Visits.begun_mono (h : Visits f polls check i order begun w moments firings begun' finish)
    (hbegun : begun = true) : begun' = true := by
  cases hb : begun' with
  | true => rfl
  | false =>
    have hnot := (h.eq_nil_of_not_begun hb).1
    exact hnot.symm.trans hbegun

/-- Observers see visits as the firings that they come to. -/
theorem Visits.hookEvents_eq (h : Visits f polls check i order begun w moments firings begun' finish) :
    hookEvents moments = opened i begun begun' ++ firings.flatMap firingEvents := by
  induction h with
  | @nil begun => simp [opened, hookEvents]
  | @stopped _ _ begun => simp [opened, hookEvents]
  | passed _ hquestion _ ih => rw [hookEvents_append, hquestion.hookEvents_eq, ih, List.nil_append]
  | @refused _ _ begun _ _ _ _ hquestion => simp [opened, hquestion.hookEvents_eq]
  | fired _ hquestion hopening hfiring _ hrest ih =>
    rw [hookEvents_append, hookEvents_append, hookEvents_append, hquestion.hookEvents_eq,
      hopening.hookEvents_eq, hfiring.hookEvents_eq, ih, hrest.begun_mono rfl]
    simp [opened]
  | failed _ hquestion hopening hfiring =>
    rw [hookEvents_append, hookEvents_append, hquestion.hookEvents_eq, hopening.hookEvents_eq,
      hfiring.hookEvents_eq]
    simp

theorem Round.hookEvents_eq (h : Round f i w moments firings begun finish) :
    hookEvents moments = if begun then openRound i firings else [] := by
  cases h with
  | period _ hvisits => exact congrArg _ hvisits.hookEvents_eq
  | pass _ hvisits =>
    rw [hvisits.hookEvents_eq]
    cases begun with
    | true => rfl
    | false =>
      rw [(hvisits.eq_nil_of_not_begun rfl).2]
      rfl

theorem Rounds.hookEvents_eq (h : Rounds f i w bound rounds last moments failed) :
    hookEvents moments =
      (rounds.zipIdx i).flatMap closedRound ++ last.elim [] (openRound (i + rounds.length)) := by
  induction h with
  | spent => rfl
  | stopped => rfl
  | @failed i _ _ _ firings begun _ hround =>
    rw [hround.hookEvents_eq]
    cases begun <;> rfl
  | idle _ hround => exact hround.hookEvents_eq
  | cut _ hround w' =>
    rw [hookEvents_append, hround.hookEvents_eq]
    simp [closedRound, hookEvents, Event.isHook]
  | @closed i _ _ moments more firings rounds last _ _ hround w' _ ih =>
    have hindex : i + 1 + rounds.length = i + (firings :: rounds).length := by
      rw [List.length_cons]
      omega
    calc
      hookEvents (moments ++ ⟨.afterPeriod i, w'⟩ :: more) =
          hookEvents moments ++ .afterPeriod i :: hookEvents more := by
        rw [hookEvents_append]
        rfl
      _ = closedRound (firings, i) ++ ((rounds.zipIdx (i + 1)).flatMap closedRound ++
          last.elim [] (openRound (i + 1 + rounds.length))) := by
        rw [hround.hookEvents_eq, ih]
        simp [closedRound]
      _ = _ := by
        rw [hindex, ← List.append_assoc]
        rfl

/-! ## Failures and bounds -/

/-- Firings of which only the last may have failed, and only when `failed`. -/
def OnlyLastFails (failed : Bool) (firings : List (NodeId × Outcome)) : Prop :=
  (∀ firing ∈ firings.dropLast, firing.2.isFailed = false) ∧
    (failed = false → ∀ firing ∈ firings, firing.2.isFailed = false)

theorem OnlyLastFails.cons (h : OnlyLastFails failed firings) (houtcome : outcome.isFailed = false)
    (n : NodeId) : OnlyLastFails failed ((n, outcome) :: firings) := by
  have hall {firings : List (NodeId × Outcome)}
      (h : ∀ firing ∈ firings, firing.2.isFailed = false) :
      ∀ firing ∈ (n, outcome) :: firings, firing.2.isFailed = false :=
    List.forall_mem_cons.mpr ⟨houtcome, h⟩
  refine ⟨?_, fun hfailed ↦ hall (h.2 hfailed)⟩
  cases firings with
  | nil => exact List.forall_mem_nil _
  | cons firing firings => exact hall h.1

theorem Visits.onlyLastFails
    (h : Visits f polls check i order begun w moments firings begun' finish) :
    OnlyLastFails (finish = .failed) firings := by
  induction h with
  | nil | stopped | refused => exact ⟨List.forall_mem_nil _, fun _ ↦ List.forall_mem_nil _⟩
  | passed _ _ _ ih => exact ih
  | fired _ _ _ _ houtcome _ ih => exact ih.cons houtcome _
  | failed => exact ⟨List.forall_mem_nil _, fun hfailed ↦ absurd rfl (of_decide_eq_false hfailed)⟩

theorem Round.onlyLastFails (h : Round f i w moments firings begun finish) :
    OnlyLastFails (finish = .failed) firings := by
  cases h with
  | period _ hvisits => exact hvisits.onlyLastFails
  | pass _ hvisits => exact hvisits.onlyLastFails

/-- No firing of a closed round has failed. -/
theorem Rounds.closed_ok (h : Rounds f i w bound rounds last moments failed) :
    ∀ firings ∈ rounds, ∀ firing ∈ firings, firing.2.isFailed = false := by
  induction h with
  | spent | stopped | failed | idle => exact List.forall_mem_nil _
  | cut _ hround => exact List.forall_mem_singleton.mpr (hround.onlyLastFails.2 rfl)
  | closed _ hround _ _ ih => exact List.forall_mem_cons.mpr ⟨hround.onlyLastFails.2 rfl, ih⟩

/-- A round is left open by a failure only, and only its last firing has failed. -/
theorem Rounds.last_ok (h : Rounds f i w bound rounds last moments failed)
    (hlast : last = some firings) :
    failed = true ∧ ∀ firing ∈ firings.dropLast, firing.2.isFailed = false := by
  induction h with
  | spent | stopped | idle | cut => cases hlast
  | @failed _ _ _ _ _ begun _ hround =>
    cases begun with
    | false => cases hlast
    | true =>
      cases hlast
      exact ⟨rfl, hround.onlyLastFails.1⟩
  | closed _ _ _ _ ih => exact ih hlast

theorem Rounds.length_le (h : Rounds f i w bound rounds last moments failed) :
    rounds.length ≤ bound := by
  induction h with
  | spent => exact le_rfl
  | stopped | failed | idle => exact Nat.zero_le _
  | cut => exact Nat.succ_le_succ (Nat.zero_le _)
  | closed _ _ _ _ ih => exact Nat.succ_le_succ ih

/-! ## Runs that go on to their bound -/

/-- The stop flag is never raised in these moments. -/
def NeverHalts (f : Frame κ σ ω) (moments : List (Moment ω)) : Prop :=
  ∀ moment ∈ moments, f.halts moment.world = false

theorem NeverHalts.append_iff {moments' : List (Moment ω)} :
    NeverHalts f (moments ++ moments') ↔ NeverHalts f moments ∧ NeverHalts f moments' :=
  List.forall_mem_append

theorem NeverHalts.lastWorld (h : NeverHalts f moments) (hw : f.halts w = false) :
    f.halts (lastWorld w moments) = false := by
  induction moments generalizing w with
  | nil => exact hw
  | cons moment moments ih =>
    obtain ⟨hhead, htail⟩ := List.forall_mem_cons.mp h
    exact ih htail hhead

/-- Visits are cut short when the flag is raised. -/
theorem Visits.ne_stopped (h : Visits f polls check i order begun w moments firings begun' finish)
    (hw : f.halts w = false) (hnever : NeverHalts f moments) : finish ≠ .stopped := by
  induction h with
  | nil | refused | failed => exact Finish.noConfusion
  | stopped _ hhalts => exact absurd (hw.symm.trans hhalts) Bool.false_ne_true
  | passed _ _ _ ih =>
    obtain ⟨hquestion, hrest⟩ := NeverHalts.append_iff.mp hnever
    exact ih (hquestion.lastWorld hw) hrest
  | fired _ _ _ _ _ _ ih =>
    obtain ⟨hfiring, hrest⟩ := NeverHalts.append_iff.mp hnever
    exact ih (hfiring.lastWorld hw) hrest

/-- The nodes of a list that are known all decline. -/
def declines (f : Frame κ σ ω) (order : List NodeId) : List Event :=
  (order.filter fun n ↦ f.Knows n).map (.prepared · .skip)

theorem Inquiry.events_of_skip (h : Inquiry f true n .skip moments) :
    moments.map (·.event) = declines f [n] := by
  cases h with
  | unknown hknows => simp [declines, hknows]
  | asked hknows => simp [declines, hknows]

/-- Where all nodes are asked and none fires, all that happens is that they decline. -/
theorem Visits.events_of_idle (h : Visits f polls check i order begun w moments firings begun' finish)
    (hcheck : check = true) (hbegun : begun' = false) (hfinish : finish = .whole) :
    moments.map (·.event) = declines f order := by
  subst hcheck
  induction h with
  | nil => rfl
  | stopped => cases hfinish
  | @passed n rest _ _ _ _ _ _ _ _ hquestion _ ih =>
    have hlist : declines f (n :: rest) = declines f [n] ++ declines f rest := by
      rw [declines, declines, declines, ← List.map_append, ← List.filter_append]
      rfl
    rw [List.map_append, hquestion.events_of_skip, ih hbegun hfinish, hlist]
  | refused => cases hfinish
  | fired _ _ _ _ _ hrest => exact absurd ((hrest.begun_mono rfl).symm.trans hbegun) Bool.noConfusion
  | failed => cases hfinish

/-- The moments end with a pass in which no node was ready. -/
def EndsIdle (f : Frame κ σ ω) (moments : List (Moment ω)) : Prop :=
  f.plan.mode = .fullyAsynchronous ∧ ∃ early pass : List (Moment ω), moments = early ++ pass ∧
    pass.map (·.event) = declines f f.plan.firingOrder ∧
    ∀ moment, early.getLast? = some moment → ∃ i, moment.event = .afterPeriod i

theorem EndsIdle.after {more : List (Moment ω)} {moment : Moment ω} (h : EndsIdle f more)
    (hmoment : moment.event = .afterPeriod i) : EndsIdle f (moments ++ moment :: more) := by
  obtain ⟨hmode, early, pass, rfl, hpass, hearly⟩ := h
  refine ⟨hmode, moments ++ moment :: early, pass, ?_, hpass, ?_⟩
  · simp only [List.append_assoc, List.cons_append]
  · intro moment' hlast
    rw [List.getLast?_append, List.getLast?_cons] at hlast
    cases hgetLast : early.getLast? with
    | none => exact ⟨i, by simp_all⟩
    | some moment'' => exact hearly moment' (by simp_all)

/-- Rounds that are neither stopped nor idle in the end go on to their bound. -/
theorem Rounds.length_eq (h : Rounds f i w bound rounds last moments failed) (hw : f.halts w = false)
    (hnever : NeverHalts f moments) (hfailed : failed = false) (hidle : ¬ EndsIdle f moments) :
    rounds.length = bound := by
  induction h with
  | spent => rfl
  | stopped hhalts => exact absurd (hw.symm.trans hhalts) Bool.false_ne_true
  | failed => cases hfailed
  | @idle _ _ _ moments _ finish _ hround hfinish =>
    cases hround with
    | pass hmode hvisits =>
      have hwhole : finish = .whole := by
        cases finish with
        | whole => rfl
        | stopped => exact absurd rfl (hvisits.ne_stopped hw hnever)
        | failed => exact absurd rfl hfinish
      have hpass := hvisits.events_of_idle rfl rfl hwhole
      exact absurd ⟨hmode, [], moments, rfl, hpass, nofun⟩ hidle
  | cut _ hround =>
    obtain ⟨hmoments, -⟩ := NeverHalts.append_iff.mp hnever
    cases hround with
    | period _ hvisits =>
      obtain ⟨hopens, hrest⟩ := List.forall_mem_cons.mp hmoments
      exact absurd rfl (hvisits.ne_stopped hopens hrest)
    | pass _ hvisits => exact absurd rfl (hvisits.ne_stopped hw hmoments)
  | closed _ _ w' _ ih =>
    obtain ⟨-, hmore⟩ := NeverHalts.append_iff.mp hnever
    obtain ⟨hclosed, hmore⟩ := List.forall_mem_cons.mp hmore
    exact congrArg (· + 1) (ih hclosed hmore hfailed fun hends ↦ hidle (hends.after rfl))

namespace Session

/-- What the observers see of a run and what is counted in it, whatever nodes and observers do. The events
fall into closed rounds, numbered from 0 on, and at most one open round at the end, when the run has failed;
only the last firing of that one may have failed. The report counts the closed rounds, and the context the
firings. A bound is kept, and a run that never sees the stop flag raised, does not fail and is not idle in
the end goes on until the bound. -/
theorem hookEvents_run (s : Session κ σ ω) :
    ∃ (rounds : List (List (NodeId × Outcome))) (last : Option (List (NodeId × Outcome))),
      hookEvents (s.moments .run) =
        rounds.zipIdx.flatMap closedRound ++ last.elim [] (openRound rounds.length) ∧
      (∀ firings ∈ rounds, ∀ firing ∈ firings, firing.2.isFailed = false) ∧
      (∀ firings, last = some firings → s.run.1.failure.isSome ∧
        ∀ firing ∈ firings.dropLast, firing.2.isFailed = false) ∧
      s.run.1.iterations = rounds.length ∧
      s.run.2.context.activations = (rounds.flatten ++ last.getD []).length ∧
      ∀ bound, s.context.limit = some bound → rounds.length ≤ bound ∧
        (s.stopRequested = false → NeverHalts s.frame (s.moments .run) → s.run.1.failure = none →
          ¬ EndsIdle s.frame (s.moments .run) → rounds.length = bound) := by
  cases hpoisoned : s.engine.poisoned with
  | some failure =>
    rw [moments_run_of_poisoned hpoisoned, run_of_poisoned hpoisoned]
    refine ⟨[], none, rfl, List.forall_mem_nil _, nofun, rfl, rfl, ?_⟩
    intro bound _
    exact ⟨Nat.zero_le bound, fun _ _ hnone ↦ nomatch hnone⟩
  | none =>
    obtain ⟨rounds, last, hrounds, hiterations, hactivations⟩ := exists_rounds_run hpoisoned
    have hevents := hrounds.hookEvents_eq
    rw [Nat.zero_add] at hevents
    refine ⟨rounds, last, hevents, hrounds.closed_ok, fun firings ↦ hrounds.last_ok, hiterations,
      hactivations, ?_⟩
    intro bound hlimit
    rw [hlimit] at hrounds
    refine ⟨hrounds.length_le, ?_⟩
    intro hflag hnever hnone hidle
    exact hrounds.length_eq hflag hnever (by rw [hnone]; rfl) hidle

/-- Nobody asks for an end, so three periods are seen, and nothing else. -/
theorem looped_observed : ∃ e w,
    (Binding.ofCalls (Looped.plan .static [7, 2]) 0 Looped.calls).build Looped.world = (.ok e, w) ∧
      ∃ rounds : List (List (NodeId × Outcome)),
        hookEvents ((Session.mk e (.new (some 3)) w).moments .run) = rounds.zipIdx.flatMap closedRound ∧
        rounds.length = 3 := by
  obtain ⟨e, w, hbuild⟩ : ∃ e w,
      (Binding.ofCalls (Looped.plan .static [7, 2]) 0 Looped.calls).build Looped.world = (.ok e, w) :=
    ⟨_, _, rfl⟩
  have hnone : (Session.mk e (.new (some 3)) w).run.1.failure = none := by
    cases hbuild
    decide +kernel
  have hnever : ∀ moment ∈ (Session.mk e (.new (some 3)) w).moments .run,
      (Session.mk e (.new (some 3)) w).frame.halts moment.world = false := by
    cases hbuild
    decide +kernel
  have hflag : (Session.mk e (.new (some 3)) w).stopRequested = false := by
    cases hbuild
    decide +kernel
  have hidle : ¬ EndsIdle (Session.mk e (.new (some 3)) w).frame
      ((Session.mk e (.new (some 3)) w).moments .run) := by
    cases hbuild
    exact fun hends ↦ absurd hends.1 (by decide)
  obtain ⟨rounds, last, hevents, -, hlast, -, -, hbound⟩ :=
    hookEvents_run (Session.mk e (.new (some 3)) w)
  have hclosed : last = none := by
    cases last with
    | none => rfl
    | some firings =>
      have hfailed := (hlast firings rfl).1
      rw [hnone] at hfailed
      exact absurd hfailed Bool.false_ne_true
  rw [hclosed] at hevents
  exact ⟨e, w, hbuild, rounds, hevents.trans (List.append_nil _),
    (hbound 3 rfl).2 hflag hnever hnone hidle⟩

end Session

end Dataflow
