import Dataflow.Proofs.Engine.Observers
import Dataflow.Proofs.Engine.Periods

/-!
# Skips

In a period every node is visited as often as the plan says. A visit is a firing, which the observers see, or
the node is passed over, which the context counts. What is counted for a period belongs to this period alone,
whatever the context has counted before, and the numbers of firings and skips of a whole run add up to the
visits.
-/

namespace Dataflow

variable {κ : Type} [ElementKind κ] {σ ω : Type}

namespace SkipCounts

theorem get_foldl_bump (s : SkipCounts) (nodes : List NodeId) (n : NodeId) :
    SkipCounts.get (nodes.foldl bump s) n = s.get n + UInt32.ofNat (nodes.count n) := by
  induction nodes generalizing s with
  | nil => simp
  | cons m rest ih =>
    rw [List.foldl_cons, ih, get_bump]
    by_cases h : n = m
    · subst h
      rw [if_pos rfl, List.count_cons_self, UInt32.add_assoc, UInt32.add_comm 1, UInt32.ofNat_add]
      rfl
    · rw [if_neg h, List.count_cons_of_ne (Ne.symm h)]

/-- Counts from nothing on are exact as long as they are machine words. -/
theorem toNat_get_foldl_bump {nodes : List NodeId} {n : NodeId} (h : nodes.count n < UInt32.size) :
    (SkipCounts.get (nodes.foldl bump []) n).toNat = nodes.count n := by
  have hnone : SkipCounts.get [] n = 0 := rfl
  rw [get_foldl_bump, hnone, UInt32.zero_add]
  exact UInt32.toNat_ofNat_of_lt' h

end SkipCounts

namespace Session

/-! ## Periods of a run -/

/-- The contexts at the ends of the first periods, as a run that is bounded to the periods so far leaves
them. -/
def closings (check : Bool) (periods : Nat) (s : Session κ σ ω) : List Context :=
  (List.range periods).map fun k ↦ (runPeriods check (k + 1) s).2.context

/-- In a period with these firings, each node has fired or has been counted as skipped, in this context, as
often as it is in the order. -/
def AccountsFor (order : List NodeId) (firings : List (NodeId × Outcome)) (c : Context) : Prop :=
  ∀ n, (firings.map Prod.fst).count n + (c.periodSkips.get n).toNat = order.count n

section Periods

variable {s t : Session κ σ ω} {f : Frame κ σ ω}

theorem closings_succ {check : Bool} (hstop : s.stopRequested = false)
    (hvisit : visitPeriod check s.engine.plan.order ((s.modifyContext (·.beginPeriod)).observe
      (·.beforePeriod s.context.iterations)) = (none, t)) (periods : Nat) :
    closings check (periods + 1) s = (t.closeRound s.context.iterations).context ::
      closings check periods (t.closeRound s.context.iterations) := by
  simp only [closings, List.range_succ_eq_map, List.map_cons, List.map_map, Function.comp_def,
    runPeriods_succ hstop hvisit]
  rfl

/-- A period begins with no skips counted, whatever was counted before. -/
theorem accountsFor_visitPeriod {check : Bool} {order : List NodeId} {i : Nat}
    (hfits : ∀ n, order.count n < UInt32.size) (moments : List (Moment ω))
    (h : visitPeriod check order ((s.modifyContext (·.beginPeriod)).observe (·.beforePeriod i)) =
      (none, t)) :
    ∃ (new : List (Moment ω)) (firings : List (NodeId × Outcome)),
      visitPeriod check order (((s.recorded moments).modifyContext (·.beginPeriod)).observe
        (·.beforePeriod i)) = (none, t.recorded (moments ++ new)) ∧
      s.Passage t new 0 firings.length ∧
      hookEvents new = openRound i firings ∧
      AccountsFor order firings t.context ∧
      t.context.totalSkips + firings.length = s.context.totalSkips + order.length := by
  have hbegun := s.passage_beginPeriod.trans (passage_beforePeriod _ i)
  obtain ⟨visited, firings, skipped, hvisit, hvisits, hskips, heach⟩ := exists_visits_visitPeriod check i
    order ((s.modifyContext (·.beginPeriod)).observe (·.beforePeriod i))
    (moments ++ [(s.modifyContext (·.beginPeriod)).opens i])
  have hboth := hvisit.after_unfired hbegun
  replace heach := heach (congrArg Prod.fst h)
  rw [h] at hboth hskips
  rw [List.nil_append] at hboth
  refine ⟨_, firings, hboth.recorded, hboth.passage, ?_, fun n ↦ ?_, ?_⟩
  · rw [hookEvents_append, hvisits.hookEvents_eq]
    rfl
  · have hcount : order.count n = (firings.map Prod.fst).count n + skipped.count n := by
      rw [heach.count_eq, List.count_append]
    have hskipped : skipped.count n < UInt32.size := by
      have horder := hfits n
      omega
    have hperiod : t.context.periodSkips = skipped.foldl SkipCounts.bump [] := hskips.period
    rw [hperiod, SkipCounts.toNat_get_foldl_bump hskipped, hcount]
  · have hlength := heach.length_eq
    have htotal : t.context.totalSkips = s.context.totalSkips + skipped.length := hskips.total
    rw [List.length_append, List.length_map] at hlength
    omega

/-- Periods that meet no failure are seen by the observers, counted, and accounted for one by one. -/
theorem exists_rounds_of_runPeriods (check : Bool) (hfits : ∀ n, f.plan.order.count n < UInt32.size)
    (bound : Nat) (hframe : s.frame = f) (moments : List (Moment ω))
    (h : (runPeriods check bound s).1 = none) :
    ∃ (new : List (Moment ω)) (rounds : List (List (NodeId × Outcome))),
      Recording s moments (runPeriods check bound s) (runPeriods check bound (s.recorded moments)) new
        rounds.length (firingsIn rounds none) ∧
      hookEvents new = (rounds.zipIdx s.context.iterations).flatMap closedRound ∧
      List.Forall₂ (AccountsFor f.plan.order) rounds (closings check rounds.length s) ∧
      (runPeriods check bound s).2.context = (closings check rounds.length s).getLastD s.context ∧
      (runPeriods check bound s).2.context.totalSkips + firingsIn rounds none =
        s.context.totalSkips + f.plan.order.length * rounds.length := by
  induction bound generalizing s moments with
  | zero => exact ⟨[], [], .stay s moments none, rfl, .nil, rfl, rfl⟩
  | succ bound ih =>
    have hflag : (s.recorded moments).stopRequested = s.stopRequested := rfl
    cases hstop : s.stopRequested with
    | true =>
      rw [runPeriods_of_stopRequested hstop, runPeriods_of_stopRequested (hflag.trans hstop)]
      exact ⟨[], [], .stay s moments none, rfl, .nil, rfl, rfl⟩
    | false =>
      have hplan : s.engine.plan = f.plan := congrArg Frame.plan hframe
      rcases hvisit : visitPeriod check s.engine.plan.order ((s.modifyContext (·.beginPeriod)).observe
        (·.beforePeriod s.context.iterations)) with ⟨_ | failure, t⟩
      · obtain ⟨visited, firings, hrecorded, hpassage, hevents, haccounts, htotal⟩ :=
          accountsFor_visitPeriod (hplan ▸ hfits) moments hvisit
        rw [runPeriods_succ hstop hvisit] at h ⊢
        rw [runPeriods_succ (hflag.trans hstop) hrecorded]
        obtain ⟨more, rounds, hrest, hevents', haccounts', hlast, htotal'⟩ :=
          ih (s := t.closeRound s.context.iterations) (hpassage.frame.trans hframe)
            (moments ++ visited ++ [t.closes s.context.iterations]) h
        refine ⟨_, firings :: rounds, hrest.closed hpassage, ?_, ?_, ?_, ?_⟩
        · rw [hpassage.iterations_closeRound] at hevents'
          rw [hookEvents_append, hevents, List.zipIdx_cons, List.flatMap_cons, ← hevents', closedRound,
            List.append_assoc]
          rfl
        · rw [List.length_cons, closings_succ hstop hvisit]
          exact .cons (hplan ▸ haccounts) haccounts'
        · rw [List.length_cons, closings_succ hstop hvisit, List.getLastD_cons]
          exact hlast
        · have hclosed : (t.closeRound s.context.iterations).context.totalSkips = t.context.totalSkips := rfl
          rw [hclosed] at htotal'
          rw [hplan] at htotal
          rw [firingsIn_cons, List.length_cons, Nat.mul_succ]
          omega
      · rw [runPeriods_succ_of_failure hstop hvisit] at h
        cases h

theorem poisoned_eq_none_of_run (h : s.run.1.failure = none) : s.engine.poisoned = none := by
  by_contra hsome
  obtain ⟨failure, hfailure⟩ := Option.ne_none_iff_exists'.mp hsome
  rw [run_of_poisoned hfailure] at h
  cases h

/-- A run with an order that ends without a failure consists of periods that are accounted for one by one. -/
theorem exists_rounds_of_run (hmode : s.engine.plan.mode ≠ .fullyAsynchronous)
    (hfits : ∀ n, s.engine.plan.order.count n < UInt32.size) (h : s.run.1.failure = none) :
    let contexts := closings (s.engine.plan.mode = .asynchronous) s.run.1.iterations
      (s.modifyContext (·.reset))
    ∃ rounds : List (List (NodeId × Outcome)),
      hookEvents (s.moments .run) = rounds.zipIdx.flatMap closedRound ∧
      rounds.length = s.run.1.iterations ∧
      List.Forall₂ (AccountsFor s.engine.plan.order) rounds contexts ∧
      s.run.2.context = contexts.getLastD s.context.reset ∧
      s.run.2.context.activations + s.run.2.context.totalSkips =
        s.run.1.iterations * s.engine.plan.order.length := by
  intro contexts
  have hsane := poisoned_eq_none_of_run h
  rcases hruns : runPeriods (s.engine.plan.mode = .asynchronous) (s.context.limit.getD unbounded)
    (s.modifyContext (·.reset)) with ⟨_ | failure, t⟩
  · have hrun := run_of_ordered hmode hsane hruns
    obtain ⟨new, rounds, hrecording, hevents, haccounts, hlast, htotal⟩ :=
      exists_rounds_of_runPeriods (s := s.modifyContext (·.reset)) (f := s.frame) _ hfits _ rfl []
        (congrArg Prod.fst hruns)
    rw [hruns] at hrecording hlast htotal
    have hrecorded : runPeriods (s.engine.plan.mode = .asynchronous) (s.context.limit.getD unbounded)
      ((s.recorded []).modifyContext (·.reset)) = (none, t.recorded ([] ++ new)) := hrecording.recorded
    have hmoments : s.moments .run = new := by
      unfold moments call
      rw [run_of_ordered (s := s.recorded []) hmode hsane hrecorded]
      rfl
    have hiterations : t.context.iterations = rounds.length :=
      hrecording.passage.iterations.trans (Nat.zero_add _)
    have hactivations : t.context.activations = firingsIn rounds none :=
      hrecording.passage.activations.trans (Nat.zero_add _)
    have hcontexts : contexts = closings (s.engine.plan.mode = .asynchronous) rounds.length
        (s.modifyContext (·.reset)) := by
      rw [← hiterations]
      exact congrArg (fun r ↦ closings _ r.1.iterations (s.modifyContext (·.reset))) hrun
    rw [hcontexts, hmoments, hrun]
    refine ⟨rounds, hevents, hiterations.symm, haccounts, hlast, ?_⟩
    have htotal' : t.context.totalSkips + firingsIn rounds none =
      0 + s.engine.plan.order.length * rounds.length := htotal
    calc t.context.activations + t.context.totalSkips
        = s.engine.plan.order.length * rounds.length := by omega
      _ = t.context.iterations * s.engine.plan.order.length := by rw [hiterations, Nat.mul_comm]
  · rw [run_of_ordered hmode hsane hruns] at h
    cases h

/-- In every run of a compiled plan with an order that ends without a failure, each node has fired or has been
counted as skipped, in each closed period, as often as it is in a period. The numbers of firings and of skips
in all add up to the visits of all closed periods. None of this depends on what the context held before. -/
theorem skips_complete_firings {g : Graph} (hg : g.Built) {o : CompileOptions} {p : Plan}
    (hcompile : g.compile o = .ok p) (hmode : p.mode ≠ .fullyAsynchronous) (hplan : s.engine.plan = p)
    (hnone : s.run.1.failure = none) :
    let contexts := closings (p.mode = .asynchronous) s.run.1.iterations (s.modifyContext (·.reset))
    ∃ rounds : List (List (NodeId × Outcome)),
      hookEvents (s.moments .run) = rounds.zipIdx.flatMap closedRound ∧
      rounds.length = s.run.1.iterations ∧
      List.Forall₂ (fun firings c ↦ ∀ n, (firings.map Prod.fst).count n + (c.periodSkips.get n).toNat =
        p.repetitions.get n) rounds contexts ∧
      s.run.2.context = contexts.getLastD s.context.reset ∧
      s.run.2.context.activations + s.run.2.context.totalSkips = s.run.1.iterations * p.order.length := by
  intro contexts
  subst hplan
  obtain ⟨hsound, -⟩ := Graph.sound_of_compile hg.coherent hcompile
  have hfits : ∀ n, s.engine.plan.order.count n < UInt32.size := by
    intro n
    rw [hsound.period.count]
    exact hsound.balances.get_lt n
  obtain ⟨rounds, hevents, hrounds, haccounts, hlast, htotal⟩ := exists_rounds_of_run hmode hfits hnone
  refine ⟨rounds, hevents, hrounds, ?_, hlast, htotal⟩
  exact haccounts.imp fun firings c hc n ↦ (hc n).trans (hsound.period.count n)

end Periods

end Session

namespace Looped

/-- Node `b`, which is never ready. -/
def shy : Behaviour Scalar UInt8 Unit := { taker with prepare := fun _ s ↦ (.skip, s) }

def hindered : List (Bind Scalar UInt8 Unit) :=
  [.fifo 1 .u8, .node 1 ⟨shy, 0⟩, .node 0 ⟨feeder, 0⟩, .fifo 0 .u8]

/-- A context for two periods that comes from another engine, with more nodes. -/
def worn : Context :=
  { Context.new (some 2) with periodSkips := [4, 4294967295, 6], activations := 8, totalSkips := 9 }

end Looped

namespace Session

/-- Node `a` fires twice in the first period, and finds no room in the second one. -/
theorem looped_skips :
    ∃ e w, (Binding.ofCalls (Looped.plan .asynchronous [7, 3]) 0 Looped.hindered).build Looped.world =
        (.ok e, w) ∧
      ∃ s : Session Scalar UInt8 Unit, s = ⟨e, Looped.worn, w⟩ ∧
        (closings true 2 (s.modifyContext (·.reset))).map (·.periodSkips) = [[0, 3], [2, 3]] ∧
        ∃ rounds : List (List (NodeId × Outcome)),
          hookEvents (s.moments .run) = rounds.zipIdx.flatMap closedRound ∧
          List.Forall₂ (fun firings c ↦ ∀ n, (firings.map Prod.fst).count n +
            (c.periodSkips.get n).toNat = (⟨[2, 3]⟩ : Repetitions).get n) rounds
              (closings true 2 (s.modifyContext (·.reset))) ∧
          s.run.2.context.activations + s.run.2.context.totalSkips = s.run.1.iterations * 5 := by
  have hcompile : Looped.graph.compile ⟨.asynchronous, 0, some 7, 100⟩ =
      .ok (Looped.plan .asynchronous [7, 3]) := by decide +kernel
  obtain ⟨e, w, hbuild⟩ : ∃ e w,
      (Binding.ofCalls (Looped.plan .asynchronous [7, 3]) 0 Looped.hindered).build Looped.world =
        (.ok e, w) := ⟨_, _, rfl⟩
  have hplan : e.plan = Looped.plan .asynchronous [7, 3] := by
    cases hbuild
    rfl
  have hnone : (Session.mk e Looped.worn w).run.1.failure = none := by
    cases hbuild
    decide +kernel
  have hiterations : (Session.mk e Looped.worn w).run.1.iterations = 2 := by
    cases hbuild
    decide +kernel
  obtain ⟨rounds, hevents, -, haccounts, -, htotal⟩ :=
    skips_complete_firings Looped.built_graph hcompile (by decide) hplan hnone
  rw [hiterations] at haccounts
  refine ⟨e, w, hbuild, _, rfl, ?_, rounds, hevents, haccounts, htotal⟩
  cases hbuild
  decide +kernel

end Session

end Dataflow
