import Dataflow.Proofs.Engine.Suspension

/-!
# The rounds of a run

The moments of a run have a shape, whatever nodes and observers do. They fall into rounds, a round into
visits of nodes, and a visit into a question and a firing. Where the run looks at the stop flag, the shape
says how the flag was. Each loop of a run is shown once to have this shape; all else about the order of the
moments follows by induction on it.
-/

namespace Dataflow

variable {κ : Type} [ElementKind κ] {σ ω : Type}

/-! ## Visits of nodes -/

def Outcome.isFailed : Outcome → Bool
  | .failed _ => true
  | _ => false

/-- The stop flag of this engine is raised in these surroundings. -/
def Frame.halts (f : Frame κ σ ω) (w : World ω) : Bool := w.stops.isRaised f.stop

instance (f : Frame κ σ ω) (n : NodeId) : Decidable (f.Knows n) := inferInstanceAs (Decidable (_ ∧ _))

/-- A firing of node `n` with this outcome. -/
inductive Firing (n : NodeId) (outcome : Outcome) : List (Moment ω) → Prop where
  | intro (w w' : World ω) {work : List (Moment ω)} (hwork : ∀ moment ∈ work, moment.event.isWork) :
    Firing n outcome (⟨.beforeActivation n, w⟩ :: (work ++ [⟨.afterActivation n outcome, w'⟩]))

/-- Node `n` is asked, if nodes are asked at all. An unknown node declines, and nothing is seen of it. -/
inductive Inquiry (f : Frame κ σ ω) : (check : Bool) → (n : NodeId) → Readiness →
    List (Moment ω) → Prop where
  | unasked {n : NodeId} : Inquiry f false n .proceed []
  | unknown {n : NodeId} (h : ¬ f.Knows n) : Inquiry f true n .skip []
  | asked {n : NodeId} (h : f.Knows n) (answer : Readiness) (w : World ω) :
    Inquiry f true n answer [⟨.prepared n answer, w⟩]

/-- The observers see round `i` begin, if they have not yet. -/
inductive Opening (i : Nat) : (begun : Bool) → List (Moment ω) → Prop where
  | earlier : Opening i true []
  | now (w : World ω) : Opening i false [⟨.beforePeriod i, w⟩]

/-- How a round goes: all its nodes are visited, a stop request cuts it short, or a failure does. -/
inductive Finish where
  | whole
  | stopped
  | failed
  deriving DecidableEq

/-- Visits of the nodes of a list in round `i`, with the firings they come to. With `polls` the stop flag
is looked at before each of them. The round may have `begun` before, and has at the end when a node has
fired in it. -/
inductive Visits (f : Frame κ σ ω) (polls check : Bool) (i : Nat) :
    List NodeId → (begun : Bool) → World ω → List (Moment ω) → List (NodeId × Outcome) →
      (begun' : Bool) → Finish → Prop where
  | nil {begun : Bool} {w : World ω} : Visits f polls check i [] begun w [] [] begun .whole
  | stopped {n : NodeId} {rest : List NodeId} {begun : Bool} {w : World ω} (hpolls : polls)
    (hhalts : f.halts w) : Visits f polls check i (n :: rest) begun w [] [] begun .stopped
  | passed {n : NodeId} {rest : List NodeId} {begun begun' : Bool} {w : World ω}
    {question moments : List (Moment ω)} {firings : List (NodeId × Outcome)} {finish : Finish}
    (hgo : polls → f.halts w = false) (hquestion : Inquiry f check n .skip question)
    (hrest : Visits f polls check i rest begun (lastWorld w question) moments firings begun' finish) :
    Visits f polls check i (n :: rest) begun w (question ++ moments) firings begun' finish
  | refused {n : NodeId} {rest : List NodeId} {begun : Bool} {w : World ω}
    {question : List (Moment ω)} {code : StatusCode} (hgo : polls → f.halts w = false)
    (hquestion : Inquiry f check n (.fatal code) question) :
    Visits f polls check i (n :: rest) begun w question [] begun .failed
  | fired {n : NodeId} {rest : List NodeId} {begun begun' : Bool} {w : World ω}
    {question opening firing moments : List (Moment ω)} {outcome : Outcome}
    {firings : List (NodeId × Outcome)} {finish : Finish}
    (hgo : polls → f.halts w = false) (hquestion : Inquiry f check n .proceed question)
    (hopening : Opening i begun opening) (hfiring : Firing n outcome firing)
    (houtcome : outcome.isFailed = false)
    (hrest : Visits f polls check i rest true (lastWorld w (question ++ (opening ++ firing))) moments
      firings begun' finish) :
    Visits f polls check i (n :: rest) begun w (question ++ (opening ++ firing) ++ moments)
      ((n, outcome) :: firings) begun' finish
  | failed {n : NodeId} {rest : List NodeId} {begun : Bool} {w : World ω}
    {question opening firing : List (Moment ω)} {outcome : Outcome}
    (hgo : polls → f.halts w = false) (hquestion : Inquiry f check n .proceed question)
    (hopening : Opening i begun opening) (hfiring : Firing n outcome firing)
    (houtcome : outcome.isFailed) :
    Visits f polls check i (n :: rest) begun w (question ++ (opening ++ firing)) [(n, outcome)] true
      .failed

/-- A round that has not begun has had no firings. -/
theorem Visits.eq_nil_of_not_begun {f : Frame κ σ ω} {polls check : Bool} {i : Nat}
    {order : List NodeId} {begun begun' : Bool} {w : World ω} {moments : List (Moment ω)}
    {firings : List (NodeId × Outcome)} {finish : Finish}
    (h : Visits f polls check i order begun w moments firings begun' finish) (hbegun : begun' = false) :
    begun = false ∧ firings = [] := by
  induction h with
  | nil => exact ⟨hbegun, rfl⟩
  | stopped => exact ⟨hbegun, rfl⟩
  | passed _ _ _ ih => exact ih hbegun
  | refused => exact ⟨hbegun, rfl⟩
  | fired _ _ _ _ _ _ ih => exact absurd (ih hbegun).1 Bool.true_eq_false_eq_False
  | failed => exact absurd hbegun Bool.true_eq_false_eq_False

/-! ## Rounds -/

/-- Round `i` of a run of this engine. A period begins at once. A pass begins with its first firing, and
looks at the stop flag before each node. -/
inductive Round (f : Frame κ σ ω) (i : Nat) (w : World ω) :
    List (Moment ω) → List (NodeId × Outcome) → (begun : Bool) → Finish → Prop where
  | period {w' : World ω} {moments : List (Moment ω)} {firings : List (NodeId × Outcome)}
    {finish : Finish} (hmode : f.plan.mode ≠ .fullyAsynchronous)
    (hvisits : Visits f false (f.plan.mode = .asynchronous) i f.plan.order true w' moments firings true
      finish) :
    Round f i w (⟨.beforePeriod i, w'⟩ :: moments) firings true finish
  | pass {moments : List (Moment ω)} {firings : List (NodeId × Outcome)} {begun : Bool}
    {finish : Finish} (hmode : f.plan.mode = .fullyAsynchronous)
    (hvisits : Visits f true true i f.plan.firingOrder false w moments firings begun finish) :
    Round f i w moments firings begun finish

/-- Rounds from round `i` on, at most `bound` of them: the firings of those that are closed, and of the
one that a failure leaves open. -/
inductive Rounds (f : Frame κ σ ω) : (i : Nat) → World ω → (bound : Nat) →
    List (List (NodeId × Outcome)) → (last : Option (List (NodeId × Outcome))) →
      List (Moment ω) → (failed : Bool) → Prop where
  | spent {i : Nat} {w : World ω} : Rounds f i w 0 [] none [] false
  | stopped {i bound : Nat} {w : World ω} (hhalts : f.halts w) :
    Rounds f i w (bound + 1) [] none [] false
  | failed {i bound : Nat} {w : World ω} {moments : List (Moment ω)}
    {firings : List (NodeId × Outcome)} {begun : Bool} (hgo : f.halts w = false)
    (hround : Round f i w moments firings begun .failed) :
    Rounds f i w (bound + 1) [] (if begun then some firings else none) moments true
  | idle {i bound : Nat} {w : World ω} {moments : List (Moment ω)}
    {firings : List (NodeId × Outcome)} {finish : Finish} (hgo : f.halts w = false)
    (hround : Round f i w moments firings false finish) (hfinish : finish ≠ .failed) :
    Rounds f i w (bound + 1) [] none moments false
  | cut {i bound : Nat} {w : World ω} {moments : List (Moment ω)}
    {firings : List (NodeId × Outcome)} (hgo : f.halts w = false)
    (hround : Round f i w moments firings true .stopped) (w' : World ω) :
    Rounds f i w (bound + 1) [firings] none (moments ++ [⟨.afterPeriod i, w'⟩]) false
  | closed {i bound : Nat} {w : World ω} {moments more : List (Moment ω)}
    {firings : List (NodeId × Outcome)} {rounds : List (List (NodeId × Outcome))}
    {last : Option (List (NodeId × Outcome))} {failed : Bool} (hgo : f.halts w = false)
    (hround : Round f i w moments firings true .whole) (w' : World ω)
    (hrest : Rounds f (i + 1) w' bound rounds last more failed) :
    Rounds f i w (bound + 1) (firings :: rounds) last (moments ++ ⟨.afterPeriod i, w'⟩ :: more) failed

namespace Session

/-! ## Passages -/

/-- These moments lead from `s` to `t`, while so many rounds and firings are counted. Failures are not
reported before the run is over. -/
structure Passage (s t : Session κ σ ω) (moments : List (Moment ω)) (rounds firings : Nat) : Prop where
  frame : t.frame = s.frame
  world : t.world = lastWorld s.world moments
  failure : t.context.failure = s.context.failure
  iterations : t.context.iterations = s.context.iterations + rounds
  activations : t.context.activations = s.context.activations + firings

section Passage

variable {s t u : Session κ σ ω} {moments moments' : List (Moment ω)} {a b c d : Nat} (n : NodeId)

theorem Passage.refl (s : Session κ σ ω) : s.Passage s [] 0 0 := ⟨rfl, rfl, rfl, rfl, rfl⟩

theorem Passage.trans (h : s.Passage t moments a b) (h' : t.Passage u moments' c d) :
    s.Passage u (moments ++ moments') (a + c) (b + d) where
  frame := h'.frame.trans h.frame
  world := by rw [h'.world, h.world, lastWorld_append]
  failure := h'.failure.trans h.failure
  iterations := by rw [h'.iterations, h.iterations, Nat.add_assoc]
  activations := by rw [h'.activations, h.activations, Nat.add_assoc]

/-- Skips are counted elsewhere. -/
theorem Passage.recordSkip (h : s.Passage t moments a b) :
    s.Passage (t.modifyContext (·.recordSkip n)) moments a b :=
  ⟨h.frame, h.world, h.failure, h.iterations, h.activations⟩

theorem Passage.failNode (h : s.Passage t moments a b) (error : NodeError) :
    s.Passage (t.failNode n error).2 moments a b :=
  ⟨h.frame, h.world, h.failure, h.iterations, h.activations⟩

theorem world_callNode {α : Type} (event : α → Event) (absent : α)
    (callback : Behaviour κ σ ω → Callback σ ω α) :
    (s.callNode n absent callback).2.world = lastWorld s.world (s.callMoments n event callback) := by
  unfold callNode callMoments
  cases s.engine.nodes[n]? <;> rfl

theorem passage_readiness (s : Session κ σ ω) :
    s.Passage (s.readiness n).2 (s.readinessMoments n) 0 0 := by
  have hlocal := s.local_readiness n
  have hworld : (s.readiness n).2.world = lastWorld s.world (s.readinessMoments n) := by
    unfold readiness readinessMoments
    cases s.engine.plan.graph.nodes[n]? with
    | none => rfl
    | some node => exact s.world_callNode n _ _ _
  have hcontext : (s.readiness n).2.context = s.context := s.context_readiness n
  exact ⟨hlocal.frame, hworld, congrArg Context.failure hcontext, congrArg Context.iterations hcontext,
    congrArg Context.activations hcontext⟩

/-- Apart from what is parked, a firing shows in the context as one more firing. -/
theorem context_fire (s : Session κ σ ω) (persist : Bool) : (s.fire n persist).2.context =
    Context.recordActivation { s.context with parked := (s.attempt n persist).2.context.parked } := by
  rw [← (s.local_attempt n persist).context]
  rcases s.fire_cases n persist with ⟨status, -, hfire⟩ | ⟨e, -, hfire⟩
  · rw [hfire]
    rfl
  · rw [hfire]
    rfl

theorem passage_fire (s : Session κ σ ω) (persist : Bool) :
    s.Passage (s.fire n persist).2 (s.fireMoments n persist) 0 1 := by
  have hcontext := s.context_fire n persist
  have hworld : (s.fire n persist).2.world = lastWorld s.world (s.fireMoments n persist) := by
    rw [fireMoments, lastWorld_append]
    rfl
  exact ⟨s.frame_fire n persist, hworld, (congrArg Context.failure hcontext :),
    (congrArg Context.iterations hcontext :), (congrArg Context.activations hcontext :)⟩

/-- The moment when round `i` begins for the observers. -/
def opens (s : Session κ σ ω) (i : Nat) : Moment ω :=
  ⟨.beforePeriod i, (s.observe (·.beforePeriod i)).world⟩

/-- The moment when round `i` is closed. -/
def closes (s : Session κ σ ω) (i : Nat) : Moment ω := ⟨.afterPeriod i, (s.closeRound i).world⟩

theorem passage_beforePeriod (s : Session κ σ ω) (i : Nat) :
    s.Passage (s.observe (·.beforePeriod i)) [s.opens i] 0 0 := ⟨rfl, rfl, rfl, rfl, rfl⟩

theorem passage_closeRound (s : Session κ σ ω) (i : Nat) :
    s.Passage (s.closeRound i) [s.closes i] 1 0 := ⟨rfl, rfl, rfl, rfl, rfl⟩

theorem passage_beginPeriod (s : Session κ σ ω) :
    s.Passage (s.modifyContext (·.beginPeriod)) [] 0 0 := ⟨rfl, rfl, rfl, rfl, rfl⟩

end Passage

/-- On the way from `s` to `t` these nodes are passed over. -/
structure PassesOver (s t : Session κ σ ω) (skipped : List NodeId) : Prop where
  total : t.context.totalSkips = s.context.totalSkips + skipped.length
  period : t.context.periodSkips = skipped.foldl SkipCounts.bump s.context.periodSkips

section PassesOver

variable {s t u : Session κ σ ω} {skipped skipped' : List NodeId}

theorem PassesOver.of_context (h : t.context = s.context) : s.PassesOver t [] := by
  constructor <;> rw [h] <;> rfl

theorem PassesOver.trans (h : s.PassesOver t skipped) (h' : t.PassesOver u skipped') :
    s.PassesOver u (skipped ++ skipped') where
  total := by rw [h'.total, h.total, List.length_append, Nat.add_assoc]
  period := by rw [h'.period, h.period, List.foldl_append]

theorem passesOver_recordSkip (s : Session κ σ ω) (n : NodeId) :
    s.PassesOver (s.modifyContext (·.recordSkip n)) [n] := ⟨rfl, rfl⟩

theorem passesOver_fire (s : Session κ σ ω) (n : NodeId) (persist : Bool) :
    s.PassesOver (s.fire n persist).2 [] := by
  constructor <;> rw [s.context_fire n persist] <;> rfl

end PassesOver

/-! ## Questions and firings -/

theorem inquiry_readiness (s : Session κ σ ω) (n : NodeId) :
    Inquiry s.frame true n (s.readiness n).1 (s.readinessMoments n) := by
  by_cases hknows : s.frame.Knows n
  · obtain ⟨i, node, hi, hnode⟩ := exists_of_knows hknows
    simp only [readinessMoments, readiness, hnode, callMoments, callNode, hi]
    exact .asked hknows _ _
  · have hnone : s.readinessMoments n = [] ∧ (s.readiness n).1 = .skip := by
      unfold readinessMoments readiness
      cases hnode : s.engine.plan.graph.nodes[n]? with
      | none => exact ⟨rfl, rfl⟩
      | some node =>
        cases hi : s.engine.nodes[n]? with
        | none => simp only [callMoments, callNode, hi, and_self]
        | some i =>
          have hbehaviour : n < s.frame.behaviours.length := by
            simpa [frame, Engine.frame] using (List.getElem?_eq_some_iff.mp hi).1
          exact absurd ⟨hbehaviour, (List.getElem?_eq_some_iff.mp hnode).1⟩ hknows
    rw [hnone.1, hnone.2]
    exact .unknown hknows

/-- Asking, or not, is recorded as the question that it is. -/
theorem exists_question (check : Bool) (s : Session κ σ ω) (n : NodeId) (moments : List (Moment ω)) :
    ∃ answer t question,
      (if check then s.readiness n else (.proceed, s)) = (answer, t) ∧
      (if check then (s.recorded moments).readiness n else (.proceed, s.recorded moments)) =
        (answer, t.recorded (moments ++ question)) ∧
      s.Passage t question 0 0 ∧ Inquiry s.frame check n answer question := by
  cases check with
  | false =>
    refine ⟨.proceed, s, [], rfl, ?_, .refl s, .unasked⟩
    rw [List.append_nil]
    rfl
  | true =>
    exact ⟨_, _, _, rfl, s.recorded_readiness n moments, s.passage_readiness n,
      s.inquiry_readiness n⟩

theorem passesOver_question (check : Bool) (s : Session κ σ ω) (n : NodeId) :
    s.PassesOver (if check then s.readiness n else (.proceed, s)).2 [] := by
  cases check with
  | false => exact .of_context rfl
  | true => exact .of_context (s.context_readiness n)

/-- The beginning of a round is shown, or not, as the opening that it is. -/
theorem exists_opening (i : Nat) (begun : Bool) (s : Session κ σ ω) (moments : List (Moment ω)) :
    ∃ t opening,
      (if begun then s else s.observe (·.beforePeriod i)) = t ∧
      (if begun then s.recorded moments else (s.recorded moments).observe (·.beforePeriod i)) =
        t.recorded (moments ++ opening) ∧
      s.Passage t opening 0 0 ∧ Opening i begun opening := by
  cases begun with
  | true =>
    refine ⟨s, [], rfl, ?_, .refl s, .earlier⟩
    rw [List.append_nil]
    rfl
  | false => exact ⟨_, _, rfl, rfl, s.passage_beforePeriod i, .now _⟩

/-- The two ends of a firing. -/
inductive Fired (s : Session κ σ ω) (n : NodeId) (persist : Bool) (moments : List (Moment ω)) :
    Prop where
  | ok {status : RunStatus} {t : Session κ σ ω} {firing : List (Moment ω)} {outcome : Outcome}
    (heq : s.fire n persist = (.ok status, t))
    (hrecorded : (s.recorded moments).fire n persist = (.ok status, t.recorded (moments ++ firing)))
    (hpassage : s.Passage t firing 0 1) (hfiring : Firing n outcome firing)
    (houtcome : outcome.isFailed = false)
  | error {failure : Failure} {t : Session κ σ ω} {firing : List (Moment ω)} {outcome : Outcome}
    (heq : s.fire n persist = (.error failure, t))
    (hrecorded : (s.recorded moments).fire n persist =
      (.error failure, t.recorded (moments ++ firing)))
    (hpassage : s.Passage t firing 0 1) (hfiring : Firing n outcome firing)
    (houtcome : outcome.isFailed)

theorem fired_fire (s : Session κ σ ω) (n : NodeId) (persist : Bool) (moments : List (Moment ω)) :
    s.Fired n persist moments := by
  have hrecorded := s.recorded_fire n moments persist
  have hpassage := s.passage_fire n persist
  have hfiring : Firing n (Outcome.of (s.attempt n persist).1) (s.fireMoments n persist) := by
    obtain ⟨work, hmoments, hwork⟩ := s.exists_attemptMoments_eq n persist
    rw [fireMoments, hmoments]
    exact .intro _ _ hwork
  have houtcome : (Outcome.of (s.attempt n persist).1).isFailed =
      (Except.failure? (s.fire n persist).1).isSome := by
    rw [fire_eq]
    rcases s.attempt n persist with ⟨e | status, t⟩
    · rfl
    · cases status <;> rfl
  rcases hfire : s.fire n persist with ⟨failure | status, t⟩
  · rw [hfire] at hrecorded hpassage houtcome
    exact .error hfire hrecorded hpassage hfiring houtcome
  · rw [hfire] at hrecorded hpassage houtcome
    exact .ok hfire hrecorded hpassage hfiring houtcome

/-! ## The loops of a run -/

/-- `x` is what a part of a run comes to from `s`, and `y` what it comes to with a list of the moments
before: it adds the moments `new` to the list, while so many rounds and firings are counted. -/
structure Recording {α : Type} (s : Session κ σ ω) (moments : List (Moment ω)) (x : α × Session κ σ ω)
    (y : α × Session κ σ (ω × List (Moment ω))) (new : List (Moment ω)) (rounds firings : Nat) :
    Prop where
  recorded : y = (x.1, x.2.recorded (moments ++ new))
  passage : s.Passage x.2 new rounds firings

section Loops

variable {α : Type} {s t : Session κ σ ω} {moments moments' new : List (Moment ω)} {a b c d : Nat}

theorem Recording.stay (s : Session κ σ ω) (moments : List (Moment ω)) (answer : α) :
    Recording s moments (answer, s) (answer, s.recorded moments) [] 0 0 where
  recorded := by rw [List.append_nil]
  passage := .refl s

/-- What is recorded on the way comes first. -/
theorem Recording.after {x : α × Session κ σ ω} {y : α × Session κ σ (ω × List (Moment ω))}
    (h : s.Passage t moments' a b) (h' : Recording t (moments ++ moments') x y new c d) :
    Recording s moments x y (moments' ++ new) (a + c) (b + d) where
  recorded := by
    rw [← List.append_assoc]
    exact h'.recorded
  passage := h.trans h'.passage

theorem Recording.after_unfired {x : α × Session κ σ ω} {y : α × Session κ σ (ω × List (Moment ω))}
    (h : s.Passage t moments' 0 0) (h' : Recording t (moments ++ moments') x y new c d) :
    Recording s moments x y (moments' ++ new) c d := by
  simpa only [Nat.zero_add] using h'.after h

theorem Recording.after_fired {x : α × Session κ σ ω} {y : α × Session κ σ (ω × List (Moment ω))}
    (h : s.Passage t moments' 0 1) (h' : Recording t (moments ++ moments') x y new 0 d) :
    Recording s moments x y (moments' ++ new) 0 (d + 1) := by
  simpa only [Nat.zero_add, Nat.add_comm 1] using h'.after h

/-- A round that is closed counts as one more. -/
theorem Passage.iterations_closeRound (h : s.Passage t new 0 a) :
    (t.closeRound s.context.iterations).context.iterations = s.context.iterations + 1 :=
  congrArg (· + 1) h.iterations

/-- The finish of a round that came to this failure or to none. -/
def finishOf : Option Failure → Finish
  | none => .whole
  | some _ => .failed

/-- Unless they end with a failure, the visits of a period come to one firing or one skip each. -/
theorem exists_visits_visitPeriod (check : Bool) (i : Nat) (order : List NodeId) (s : Session κ σ ω)
    (moments : List (Moment ω)) : ∃ new firings skipped,
      Recording s moments (visitPeriod check order s) (visitPeriod check order (s.recorded moments)) new
        0 firings.length ∧
      Visits s.frame false check i order true s.world new firings true
        (finishOf (visitPeriod check order s).1) ∧
      s.PassesOver (visitPeriod check order s).2 skipped ∧
      ((visitPeriod check order s).1 = none → order.Perm (firings.map Prod.fst ++ skipped)) := by
  induction order generalizing s moments with
  | nil => exact ⟨[], [], [], .stay s moments none, .nil, .of_context rfl, fun _ ↦ .nil⟩
  | cons n rest ih =>
    obtain ⟨answer, t, question, hask, hask', hasked, hinquiry⟩ := s.exists_question check n moments
    have hquestion := s.passesOver_question check n
    have hgo : false = true → s.frame.halts s.world = false := nofun
    unfold visitPeriod
    rw [hask] at hquestion ⊢
    rw [hask']
    cases answer with
    | skip =>
      have hskip : s.Passage (t.modifyContext (·.recordSkip n)) question 0 0 :=
        hasked.recordSkip n
      obtain ⟨new, firings, skipped, hrest, hvisits, hskips, heach⟩ :=
        ih (t.modifyContext (·.recordSkip n)) (moments ++ question)
      rw [hskip.frame, hskip.world] at hvisits
      exact ⟨question ++ new, firings, n :: skipped, hrest.after_unfired hskip,
        .passed hgo hinquiry hvisits,
        hquestion.trans ((t.passesOver_recordSkip n).trans hskips),
        fun hnone ↦ ((heach hnone).cons n).trans List.perm_middle.symm⟩
    | fatal code =>
      exact ⟨question, [], [], ⟨rfl, hasked.failNode n _⟩, .refused hgo hinquiry,
        hquestion.trans (.of_context rfl), fun hnone ↦ absurd hnone (Option.some_ne_none _)⟩
    | proceed =>
      have hfire := t.passesOver_fire n false
      dsimp only
      cases t.fired_fire n false (moments ++ question) with
      | @error failure u firing outcome heq hrecorded hpassage hfiring houtcome =>
        have hfailed : Recording t (moments ++ question) (some failure, u)
            (some failure, u.recorded (moments ++ question ++ firing)) firing 0 1 := ⟨rfl, hpassage⟩
        have hvisits : Visits s.frame false check i (n :: rest) true s.world (question ++ ([] ++ firing))
            [(n, outcome)] true .failed := .failed hgo hinquiry .earlier hfiring houtcome
        rw [heq] at hfire ⊢
        rw [hrecorded]
        exact ⟨question ++ firing, [(n, outcome)], [], hfailed.after hasked, hvisits,
          hquestion.trans hfire, fun hnone ↦ absurd hnone (Option.some_ne_none _)⟩
      | @ok status u firing outcome heq hrecorded hpassage hfiring houtcome =>
        have hfired : s.Passage u (question ++ firing) 0 1 := hasked.trans hpassage
        obtain ⟨new, firings, skipped, hrest, hvisits, hskips, heach⟩ :=
          ih u (moments ++ (question ++ firing))
        rw [hfired.frame, hfired.world] at hvisits
        have hvisits' := Visits.fired hgo hinquiry .earlier hfiring houtcome hvisits
        have hboth := hrest.after_fired hfired
        rw [← List.append_assoc] at hboth
        rw [heq] at hfire ⊢
        rw [hrecorded]
        exact ⟨question ++ firing ++ new, (n, outcome) :: firings, skipped, hboth, hvisits',
          hquestion.trans (hfire.trans hskips), fun hnone ↦ (heach hnone).cons n⟩

/-- How a pass ends that comes to this. -/
def passFinish : Except Failure Pass → Finish
  | .error _ => .failed
  | .ok ⟨_, true⟩ => .stopped
  | .ok ⟨_, false⟩ => .whole

theorem exists_visits_visitPass (i : Nat) (order : List NodeId) (begun : Bool) (s : Session κ σ ω)
    (moments : List (Moment ω)) : ∃ new firings begun',
      Recording s moments (visitPass i order begun s) (visitPass i order begun (s.recorded moments)) new 0
        firings.length ∧
      Visits s.frame true true i order begun s.world new firings begun'
        (passFinish (visitPass i order begun s).1) ∧
      ∀ pass, (visitPass i order begun s).1 = .ok pass → pass.started = begun' := by
  induction order generalizing s moments begun with
  | nil =>
    refine ⟨[], [], begun, .stay s moments _, .nil, ?_⟩
    rintro pass ⟨⟩
    rfl
  | cons n rest ih =>
    obtain ⟨answer, t, question, hask, hask', hasked, hinquiry⟩ := s.exists_question true n moments
    have hflag : (s.recorded moments).stopRequested = s.stopRequested := rfl
    unfold visitPass
    rw [hflag]
    cases hstop : s.stopRequested with
    | true =>
      refine ⟨[], [], begun, .stay s moments _, .stopped rfl hstop, ?_⟩
      rintro pass ⟨⟩
      rfl
    | false =>
      have hgo : true = true → s.frame.halts s.world = false := fun _ ↦ hstop
      simp only [Bool.false_eq_true, if_false]
      change s.readiness n = _ at hask
      change (s.recorded moments).readiness n = _ at hask'
      rw [hask, hask']
      cases answer with
      | skip =>
        have hskip : s.Passage (t.modifyContext (·.recordSkip n)) question 0 0 :=
          hasked.recordSkip n
        obtain ⟨new, firings, begun', hrest, hvisits, hbegun⟩ :=
          ih begun (t.modifyContext (·.recordSkip n)) (moments ++ question)
        rw [hskip.frame, hskip.world] at hvisits
        exact ⟨question ++ new, firings, begun', hrest.after_unfired hskip,
          .passed hgo hinquiry hvisits, hbegun⟩
      | fatal code =>
        exact ⟨question, [], begun, ⟨rfl, hasked.failNode n _⟩, .refused hgo hinquiry,
          fun _ hok ↦ by cases hok⟩
      | proceed =>
        obtain ⟨u, opening, hopened, hopened', hopen, hopening⟩ := t.exists_opening i begun
          (moments ++ question)
        dsimp only
        rw [hopened, hopened']
        cases u.fired_fire n true (moments ++ question ++ opening) with
        | @error failure v firing outcome heq hrecorded hpassage hfiring houtcome =>
          have hfired := hasked.trans (hopen.trans hpassage)
          rw [heq, hrecorded, List.append_assoc, List.append_assoc]
          exact ⟨question ++ (opening ++ firing), [(n, outcome)], true, ⟨rfl, hfired⟩,
            .failed hgo hinquiry hopening hfiring houtcome, fun _ hok ↦ by cases hok⟩
        | @ok status v firing outcome heq hrecorded hpassage hfiring houtcome =>
          have hfired : s.Passage v (question ++ (opening ++ firing)) 0 1 :=
            hasked.trans (hopen.trans hpassage)
          obtain ⟨new, firings, begun', hrest, hvisits, hbegun⟩ :=
            ih true v (moments ++ (question ++ (opening ++ firing)))
          rw [hfired.frame, hfired.world] at hvisits
          rw [heq, hrecorded, List.append_assoc, List.append_assoc]
          exact ⟨question ++ (opening ++ firing) ++ new, (n, outcome) :: firings, begun',
            hrest.after_fired hfired, .fired hgo hinquiry hopening hfiring houtcome hvisits, hbegun⟩

/-- So many firings have begun in these rounds. -/
def firingsIn (rounds : List (List (NodeId × Outcome))) (last : Option (List (NodeId × Outcome))) :
    Nat := (rounds.flatten ++ last.getD []).length

theorem firingsIn_cons (firings : List (NodeId × Outcome)) (rounds : List (List (NodeId × Outcome)))
    (last : Option (List (NodeId × Outcome))) :
    firingsIn (firings :: rounds) last = firings.length + firingsIn rounds last := by
  simp only [firingsIn, List.flatten_cons, List.length_append, Nat.add_assoc]

/-- A round is closed, and others come after it. -/
theorem Recording.closed {x : α × Session κ σ ω} {y : α × Session κ σ (ω × List (Moment ω))} {i : Nat}
    {more : List (Moment ω)} {firings : List (NodeId × Outcome)}
    {rounds : List (List (NodeId × Outcome))} {last : Option (List (NodeId × Outcome))}
    (h : s.Passage t new 0 firings.length)
    (hrest : Recording (t.closeRound i) (moments ++ new ++ [t.closes i]) x y more rounds.length
      (firingsIn rounds last)) :
    Recording s moments x y (new ++ t.closes i :: more) (firings :: rounds).length
      (firingsIn (firings :: rounds) last) := by
  rw [List.append_assoc] at hrest
  have hboth := hrest.after (h.trans (t.passage_closeRound i))
  rw [List.append_assoc, Nat.zero_add, Nat.add_comm 1] at hboth
  rw [firingsIn_cons]
  exact hboth

variable {f : Frame κ σ ω}

theorem exists_round_visitPeriod (hmode : f.plan.mode ≠ .fullyAsynchronous) (i : Nat)
    (hframe : s.frame = f) (moments : List (Moment ω)) :
    let begun := (s.modifyContext (·.beginPeriod)).observe (·.beforePeriod i)
    let begun' := ((s.recorded moments).modifyContext (·.beginPeriod)).observe (·.beforePeriod i)
    ∃ new firings,
      Recording s moments (visitPeriod (f.plan.mode = .asynchronous) f.plan.order begun)
        (visitPeriod (f.plan.mode = .asynchronous) f.plan.order begun') new 0 firings.length ∧
      Round f i s.world new firings true
        (finishOf (visitPeriod (f.plan.mode = .asynchronous) f.plan.order begun).1) := by
  intro begun begun'
  have hbegun : s.Passage begun [(s.modifyContext (·.beginPeriod)).opens i] 0 0 :=
    s.passage_beginPeriod.trans (passage_beforePeriod _ i)
  obtain ⟨visited, firings, -, hvisit, hvisits, -⟩ := exists_visits_visitPeriod (f.plan.mode = .asynchronous)
    i f.plan.order begun (moments ++ [(s.modifyContext (·.beginPeriod)).opens i])
  rw [hbegun.frame, hframe] at hvisits
  exact ⟨_, firings, hvisit.after_unfired hbegun, .period hmode hvisits⟩

theorem exists_rounds_runPeriods (hmode : f.plan.mode ≠ .fullyAsynchronous) (bound : Nat)
    (hframe : s.frame = f) (moments : List (Moment ω)) :
    ∃ new rounds last,
      Recording s moments (runPeriods (f.plan.mode = .asynchronous) bound s)
        (runPeriods (f.plan.mode = .asynchronous) bound (s.recorded moments)) new rounds.length
        (firingsIn rounds last) ∧
      Rounds f s.context.iterations s.world bound rounds last new
        (runPeriods (f.plan.mode = .asynchronous) bound s).1.isSome := by
  induction bound generalizing s moments with
  | zero => exact ⟨[], [], none, .stay s moments none, .spent⟩
  | succ bound ih =>
    have hflag : (s.recorded moments).stopRequested = s.stopRequested := rfl
    have hhalts : f.halts s.world = s.stopRequested := by
      rw [← hframe]
      rfl
    cases hstop : s.stopRequested with
    | true =>
      rw [runPeriods_of_stopRequested hstop, runPeriods_of_stopRequested (hflag.trans hstop)]
      exact ⟨[], [], none, .stay s moments none, .stopped (hhalts.trans hstop)⟩
    | false =>
      have hgo : f.halts s.world = false := hhalts.trans hstop
      obtain ⟨new, firings, hvisited, hround⟩ :=
        exists_round_visitPeriod hmode s.context.iterations hframe moments
      subst hframe
      rcases hvisit : visitPeriod (s.frame.plan.mode = .asynchronous) s.frame.plan.order
        ((s.modifyContext (·.beginPeriod)).observe (·.beforePeriod s.context.iterations))
        with ⟨_ | failure, t⟩
      · rw [hvisit] at hvisited hround
        obtain ⟨hrecorded, hpassage⟩ := hvisited
        rw [runPeriods_succ hstop hvisit, runPeriods_succ (hflag.trans hstop) hrecorded]
        obtain ⟨more, rounds, last, hrest, hrounds⟩ := ih (s := t.closeRound s.context.iterations)
          hpassage.frame (moments ++ new ++ [t.closes s.context.iterations])
        rw [hpassage.iterations_closeRound] at hrounds
        exact ⟨_, firings :: rounds, last, hrest.closed hpassage, .closed hgo hround _ hrounds⟩
      · rw [hvisit] at hvisited hround
        obtain ⟨hrecorded, hpassage⟩ := hvisited
        rw [runPeriods_succ_of_failure hstop hvisit,
          runPeriods_succ_of_failure (hflag.trans hstop) hrecorded]
        refine ⟨new, [], some firings, ⟨rfl, ?_⟩, .failed hgo hround⟩
        simpa [firingsIn] using hpassage

theorem exists_rounds_runPasses (hmode : f.plan.mode = .fullyAsynchronous) (bound : Nat)
    (hframe : s.frame = f) (moments : List (Moment ω)) :
    ∃ new rounds last,
      Recording s moments (runPasses bound s) (runPasses bound (s.recorded moments)) new rounds.length
        (firingsIn rounds last) ∧
      Rounds f s.context.iterations s.world bound rounds last new (runPasses bound s).1.isSome := by
  induction bound generalizing s moments with
  | zero => exact ⟨[], [], none, .stay s moments none, .spent⟩
  | succ bound ih =>
    have hflag : (s.recorded moments).stopRequested = s.stopRequested := rfl
    have hhalts : f.halts s.world = s.stopRequested := by
      rw [← hframe]
      rfl
    unfold runPasses
    rw [hflag]
    cases hstop : s.stopRequested with
    | true => exact ⟨[], [], none, .stay s moments none, .stopped (hhalts.trans hstop)⟩
    | false =>
      have hgo : f.halts s.world = false := hhalts.trans hstop
      obtain ⟨new, firings, begun, ⟨hrecorded, hvisited⟩, hvisits, hbegun⟩ :=
        exists_visits_visitPass s.context.iterations f.plan.firingOrder false
          (s.modifyContext (·.beginPeriod)) moments
      have hpassage := s.passage_beginPeriod.trans hvisited
      rw [List.nil_append, Nat.zero_add, Nat.zero_add] at hpassage
      have hround : Round f s.context.iterations s.world new firings begun _ :=
        .pass hmode (hframe ▸ hvisits)
      have hplan : (s.modifyContext (·.beginPeriod)).engine.plan = f.plan := congrArg Frame.plan hframe
      have hplan' : ((s.recorded moments).modifyContext (·.beginPeriod)).engine.plan = f.plan := hplan
      have hiteration : (s.recorded moments).context.iterations = s.context.iterations := rfl
      have hrecorded' : visitPass s.context.iterations f.plan.firingOrder false
          ((s.recorded moments).modifyContext (·.beginPeriod)) = _ := hrecorded
      simp only [Bool.false_eq_true, if_false]
      rw [hiteration, hplan, hplan', hrecorded']
      rcases hresult : visitPass _ _ _ _ with ⟨failure | ⟨started, stopped⟩, t⟩
      · rw [hresult] at hround hpassage
        refine ⟨new, [], _, ⟨rfl, ?_⟩, .failed hgo hround⟩
        cases begun with
        | false =>
          rw [(hvisits.eq_nil_of_not_begun rfl).2] at hpassage
          exact hpassage
        | true => simpa [firingsIn] using hpassage
      · rw [hresult] at hround hpassage hbegun
        obtain rfl : started = begun := hbegun _ rfl
        cases started with
        | false =>
          rw [(hvisits.eq_nil_of_not_begun rfl).2] at hpassage
          refine ⟨new, [], none, ⟨rfl, hpassage⟩, .idle hgo hround ?_⟩
          cases stopped <;> exact Finish.noConfusion
        | true =>
          cases stopped with
          | true =>
            have hlast := Recording.stay (t.closeRound s.context.iterations)
              (moments ++ new ++ [t.closes s.context.iterations]) (none : Option Failure)
            change Recording _ _ _ _ [] ([] : List (List (NodeId × Outcome))).length
              (firingsIn [] none) at hlast
            exact ⟨_, [firings], none, hlast.closed hpassage, .cut hgo hround _⟩
          | false =>
            obtain ⟨more, rounds, last, hrest, hrounds⟩ := ih (s := t.closeRound s.context.iterations)
              (hpassage.frame.trans hframe) (moments ++ new ++ [t.closes s.context.iterations])
            rw [hpassage.iterations_closeRound] at hrounds
            exact ⟨_, firings :: rounds, last, hrest.closed hpassage, .closed hgo hround _ hrounds⟩

theorem exists_rounds_runRounds (hframe : s.frame = f) (moments : List (Moment ω)) :
    ∃ new rounds last,
      Recording s moments s.runRounds (s.recorded moments).runRounds new rounds.length
        (firingsIn rounds last) ∧
      Rounds f s.context.iterations s.world (s.context.limit.getD unbounded) rounds last new
        s.runRounds.1.isSome := by
  have hmode : s.engine.plan.mode = f.plan.mode := congrArg (·.plan.mode) hframe
  have hmode' : (s.recorded moments).engine.plan.mode = f.plan.mode := hmode
  have hlimit : (s.recorded moments).context.limit = s.context.limit := rfl
  unfold runRounds
  dsimp only
  rw [hmode', hmode, hlimit]
  cases hm : f.plan.mode with
  | static =>
    have hrounds := exists_rounds_runPeriods (f := f) (by rw [hm]; decide)
      (s.context.limit.getD unbounded) hframe moments
    rw [hm] at hrounds
    exact hrounds
  | asynchronous =>
    have hrounds := exists_rounds_runPeriods (f := f) (by rw [hm]; decide)
      (s.context.limit.getD unbounded) hframe moments
    rw [hm] at hrounds
    exact hrounds
  | fullyAsynchronous => exact exists_rounds_runPasses hm (s.context.limit.getD unbounded) hframe moments

end Loops

/-! ## Whole runs -/

theorem moments_run_of_poisoned {s : Session κ σ ω} {failure : Failure}
    (h : s.engine.poisoned = some failure) : s.moments .run = [] := by
  have hworld := (call_of_poisoned (s := s.recorded []) h .run).2.1
  exact congrArg (·.host.2) hworld

/-- A run of a usable engine comes to rounds, which its report and its context count. -/
theorem exists_rounds_run {s : Session κ σ ω} (h : s.engine.poisoned = none) :
    ∃ rounds last,
      Rounds s.frame 0 s.world (s.context.limit.getD unbounded) rounds last (s.moments .run)
        s.run.1.failure.isSome ∧
      s.run.1.iterations = rounds.length ∧ s.run.2.context.activations = firingsIn rounds last := by
  obtain ⟨new, rounds, last, ⟨hrecorded, hpassage⟩, hrounds⟩ :=
    exists_rounds_runRounds (s := s.modifyContext (·.reset)) rfl []
  have hrefusal : (s.modifyContext (·.reset)).engine.refusal = none := refusal_of_sane h
  have hrefusal' : ((s.recorded []).modifyContext (·.reset)).engine.refusal = none := hrefusal
  have hrecorded' : ((s.recorded []).modifyContext (·.reset)).runRounds = _ := hrecorded
  have hmoments : s.moments .run = new := by
    unfold moments call run
    dsimp only
    rw [hrefusal', hrecorded']
    rcases (s.modifyContext (·.reset)).runRounds with ⟨_ | failure, t⟩ <;> rfl
  rw [hmoments]
  refine ⟨rounds, last, ?_⟩
  unfold run
  dsimp only
  rw [hrefusal]
  dsimp only
  have hiterations : (s.modifyContext (·.reset)).runRounds.2.context.iterations = rounds.length :=
    hpassage.iterations.trans (Nat.zero_add _)
  have hactivations : (s.modifyContext (·.reset)).runRounds.2.context.activations =
      firingsIn rounds last := hpassage.activations.trans (Nat.zero_add _)
  have hfailure : (s.modifyContext (·.reset)).runRounds.2.context.failure = none := hpassage.failure
  generalize (s.modifyContext (·.reset)).runRounds = ended at hrounds hiterations hactivations hfailure ⊢
  obtain ⟨_ | failure, t⟩ := ended
  · have hnone : t.context.report.failure = none := hfailure
    refine ⟨?_, hiterations, hactivations⟩
    dsimp only
    rw [hnone]
    exact hrounds
  · exact ⟨hrounds, hiterations, hactivations⟩

end Session

end Dataflow
