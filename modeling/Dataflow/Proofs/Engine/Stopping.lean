import Dataflow.Proofs.Engine.Observers

/-!
# Stop requests

A run looks at the stop flag before each period, or before each node of a pass. So a request that is not
taken back is honoured there: no period begins after it, and no node is asked. What has begun is brought to
its end, unless a failure ends it. A request that comes before a call keeps the call from doing anything.
-/

namespace Dataflow

variable {κ : Type} [ElementKind κ] {σ ω : Type}

namespace Event

def isQuestion : Event → Bool
  | .prepared _ _ => true
  | _ => false

def isBeforeActivation : Event → Bool
  | .beforeActivation _ => true
  | _ => false

/-- At work a node is not asked whether it is ready, nor does a firing begin. -/
theorem isStep_of_isWork {event : Event} (h : event.isWork) :
    event.isQuestion = false ∧ event.isBeforeActivation = false := by
  cases event <;> first | exact ⟨rfl, rfl⟩ | exact absurd h Bool.false_ne_true

end Event

variable {f : Frame κ σ ω} {n : NodeId} {outcome : Outcome} {polls check begun begun' failed : Bool}
  {i bound : Nat} {order : List NodeId} {w : World ω} {moments : List (Moment ω)} {answer : Readiness}
  {firings : List (NodeId × Outcome)} {rounds : List (List (NodeId × Outcome))}
  {last : Option (List (NodeId × Outcome))} {finish : Finish}

/-- What holds of rounds and of their ends holds of runs, if it holds of two parts together. -/
theorem Rounds.induction {P : World ω → List (Moment ω) → Prop} (hnil : ∀ w, P w [])
    (happend : ∀ w moments moments', P w moments → P (lastWorld w moments) moments' →
      P w (moments ++ moments'))
    (hclose : ∀ w i w', P w [⟨.afterPeriod i, w'⟩])
    (hround : ∀ {i w moments firings begun finish}, f.halts w = false →
      Round f i w moments firings begun finish → P w moments)
    (h : Rounds f i w bound rounds last moments failed) : P w moments := by
  induction h with
  | spent | stopped => exact hnil _
  | failed hgo h => exact hround hgo h
  | idle hgo h => exact hround hgo h
  | cut hgo h w' => exact happend _ _ _ (hround hgo h) (hclose _ _ w')
  | closed hgo h w' _ ih =>
    rw [List.append_cons]
    refine happend _ _ _ (happend _ _ _ (hround hgo h) (hclose _ _ w')) ?_
    rw [lastWorld_append]
    exact ih

/-! ## Where the flag is looked at -/

section Polled

variable {asks : Event → Bool} {early late : List (Moment ω)} {request : Moment ω}

end Polled

/-- Each of these firings that begins has its own question before it. -/
structure Led (moments : List (Moment ω)) : Prop where
  whole : moments.countP (·.event.isBeforeActivation) ≤ moments.countP (·.event.isQuestion)
  late (early late : List (Moment ω)) (h : moments = early ++ late) :
    late.countP (·.event.isBeforeActivation) ≤ late.countP (·.event.isQuestion) + 1

theorem Led.append {moments' : List (Moment ω)} (h : Led moments) (h' : Led moments') :
    Led (moments ++ moments') where
  whole := by
    rw [List.countP_append, List.countP_append]
    exact Nat.add_le_add h.whole h'.whole
  late early late heq := by
    rcases List.append_eq_append_iff.mp heq with ⟨rest, -, rfl⟩ | ⟨rest, rfl, rfl⟩
    · exact h'.late rest late rfl
    · have hfirst := h.late early rest rfl
      have hsecond := h'.whole
      rw [List.countP_append, List.countP_append]
      omega

/-- Moments are led that are led as a whole and in which at most one firing begins. -/
theorem led_of_countP_le_one (h : moments.countP (·.event.isBeforeActivation) ≤ 1)
    (hwhole : moments.countP (·.event.isBeforeActivation) ≤ moments.countP (·.event.isQuestion)) :
    Led moments where
  whole := hwhole
  late early late heq := by
    have hlate : late.countP (·.event.isBeforeActivation) ≤
        moments.countP (·.event.isBeforeActivation) := by
      rw [heq, List.countP_append]
      exact Nat.le_add_left _ _
    omega

theorem Firing.countP_isBeforeActivation (h : Firing n outcome moments) :
    moments.countP (·.event.isBeforeActivation) = 1 := by
  cases h with
  | @intro w w' work hwork =>
    have hnone : work.countP (·.event.isBeforeActivation) = 0 := by
      apply List.countP_eq_zero.mpr
      intro moment hmoment
      rw [(Event.isStep_of_isWork (hwork moment hmoment)).2]
      exact Bool.false_ne_true
    rw [List.countP_cons_of_pos rfl, List.countP_append, hnone]
    rfl

theorem Opening.countP_isBeforeActivation (h : Opening i begun moments) :
    moments.countP (·.event.isBeforeActivation) = 0 := by
  cases h <;> rfl

theorem Inquiry.countP_isBeforeActivation (h : Inquiry f check n answer moments) :
    moments.countP (·.event.isBeforeActivation) = 0 := by
  cases h <;> rfl

/-- A node that is ready has been asked. -/
theorem Inquiry.countP_isQuestion (h : Inquiry f true n .proceed moments) :
    moments.countP (·.event.isQuestion) = 1 := by
  cases h
  rfl

theorem Inquiry.led (h : Inquiry f check n answer moments) : Led moments := by
  have hnone := h.countP_isBeforeActivation
  exact led_of_countP_le_one (by omega) (by omega)

theorem Visits.led (h : Visits f polls check i order begun w moments firings begun' finish)
    (hcheck : check = true) : Led moments := by
  subst hcheck
  have hfired {n : NodeId} {begun : Bool} {question opening firing : List (Moment ω)}
      {outcome : Outcome} (hquestion : Inquiry f true n .proceed question)
      (hopening : Opening i begun opening) (hfiring : Firing n outcome firing) :
      Led (question ++ (opening ++ firing)) := by
    have hone : (question ++ (opening ++ firing)).countP (·.event.isBeforeActivation) = 1 := by
      rw [List.countP_append, List.countP_append, hquestion.countP_isBeforeActivation,
        hopening.countP_isBeforeActivation, hfiring.countP_isBeforeActivation]
    have hasked : 1 ≤ (question ++ (opening ++ firing)).countP (·.event.isQuestion) := by
      rw [List.countP_append, hquestion.countP_isQuestion]
      exact Nat.le_add_right 1 _
    exact led_of_countP_le_one hone.le (hone.trans_le hasked)
  induction h with
  | nil | stopped => exact led_of_countP_le_one (Nat.zero_le _) le_rfl
  | passed _ hquestion _ ih => exact hquestion.led.append ih
  | refused _ hquestion => exact hquestion.led
  | fired _ hquestion hopening hfiring _ _ ih => exact (hfired hquestion hopening hfiring).append ih
  | failed _ hquestion hopening hfiring => exact hfired hquestion hopening hfiring

theorem Rounds.led (h : Rounds f i w bound rounds last moments failed)
    (hmode : f.plan.mode = .fullyAsynchronous) : Led moments := by
  refine h.induction (P := fun _ moments ↦ Led moments)
    (fun _ ↦ led_of_countP_le_one (Nat.zero_le _) le_rfl) (fun _ _ _ h h' ↦ h.append h')
    (fun _ _ _ ↦ led_of_countP_le_one (Nat.zero_le _) le_rfl) ?_
  intro i w moments firings begun finish _ hround
  cases hround with
  | period hmode' => exact absurd hmode hmode'
  | pass _ hvisits => exact hvisits.led rfl

/-! ## Rounds that are closed -/

namespace Session

end Session

namespace Looped

end Looped

namespace Session

end Session

end Dataflow
