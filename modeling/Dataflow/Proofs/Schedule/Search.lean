import Dataflow.Proofs.Machine.Period
import Mathlib.Order.Bounds.Basic

/-!
# The search for a period

The search for a period fires the lowest node that has firings left and finds its tokens, until there
is none. Other firings never take tokens from a node, so a node that can fire after some firings can
still do so after more firings of the others. Hence no sequence without underflow gets further than the
search at any node: the order that is found is the least of all, and the nodes that are stuck in the
end are those that nobody can bring to the end of the period.
-/

namespace Dataflow

/-! ## Tokens by numbers of firings -/

/-- The tokens on an edge after the firings in `w`. -/
def Edge.tokens (e : Edge) (w : List NodeId) : Int :=
  e.delay.toNat + e.production.toNat * w.count e.source.node
    - e.consumption.toNat * w.count e.target.node

namespace Graph

/-- After the firings in `w`, each input edge of node `n` has enough for one more. -/
def FedAfter (g : Graph) (w : List NodeId) (n : NodeId) : Prop :=
  ∀ (id : EdgeId) (e : Edge), g.edges[id]? = some e → e.target.node = n →
    e.consumption.toNat ≤ e.tokens w

/-- No firing takes an edge below zero. -/
def Legal (g : Graph) (w : List NodeId) : Prop :=
  ∀ u n v, w = u ++ n :: v → g.FedAfter u n

/-- Node `n` has firings left in the period after those in `w`, and finds the tokens for the next. -/
def MayFire (g : Graph) (r : Repetitions) (w : List NodeId) (n : NodeId) : Prop :=
  w.count n < r.get n ∧ g.FedAfter w n

variable {g : Graph} {r : Repetitions} {p : Progress} {n : NodeId} {u v w : List NodeId}

theorem fedAfter_iff (h : Steps.Along g.Fed g.after w g.delay) :
    g.FedAfter w n ↔ g.Fed n (Steps.run g.after w g.delay) := by
  rw [fed_iff]
  refine forall₄_congr fun id e he _ ↦ ?_
  have htokens := run_after_add h he
  rw [delay_of_getElem? he] at htokens
  simp only [Edge.rateAt, Edge.tokens] at htokens ⊢
  omega

theorem legal_concat : g.Legal (w ++ [n]) ↔ g.Legal w ∧ g.FedAfter w n := by
  constructor
  · intro h
    exact ⟨fun u m v hw ↦ h u m (v ++ [n]) (by simp [hw]), h w n [] rfl⟩
  · rintro ⟨hlegal, hfed⟩ u m v hw
    rcases List.eq_nil_or_concat v with rfl | ⟨v, k, rfl⟩
    · obtain ⟨rfl, hmn⟩ := List.append_inj' hw rfl
      exact List.singleton_inj.mp hmn ▸ hfed
    · rw [List.concat_eq_append, ← List.cons_append, ← List.append_assoc] at hw
      exact hlegal u m v (List.append_inj' hw rfl).1

/-- Following the tokens step by step comes to the same as adding up the firings. -/
theorem along_iff_legal : Steps.Along g.Fed g.after w g.delay ↔ g.Legal w := by
  induction w using List.reverseRecOn with
  | nil => exact iff_of_true trivial fun u n v h ↦ by simp at h
  | append_singleton w n ih =>
    rw [Steps.along_append, legal_concat, ih]
    exact and_congr_right fun h ↦ by simp [fedAfter_iff (ih.mpr h)]

/-! ## No one gets further -/

/-- Firings of other nodes do no harm. -/
theorem FedAfter.mono (h : g.FedAfter u n) (hle : ∀ m, u.count m ≤ w.count m)
    (hn : u.count n = w.count n) : g.FedAfter w n := by
  intro id e he htarget
  have hfed := h id e he htarget
  have hproduced := Nat.mul_le_mul_left e.production.toNat (hle e.source.node)
  simp only [Edge.tokens, htarget, hn] at hfed ⊢
  omega

/-- A list that has some node more often than `w` has a first entry with which it goes beyond `w`. -/
theorem exists_overtaking (h : w.count n < v.count n) :
    ∃ u m v', v = u ++ m :: v' ∧ (∀ k, u.count k ≤ w.count k) ∧ u.count m = w.count m := by
  induction v using List.reverseRecOn generalizing n with
  | nil => exact absurd h (Nat.not_lt_zero _)
  | append_singleton v a ih =>
    by_cases hearlier : ∃ k, w.count k < v.count k
    · obtain ⟨k, hk⟩ := hearlier
      obtain ⟨u, m, v', rfl, hle, hm⟩ := ih hk
      exact ⟨u, m, v' ++ [a], by simp, hle, hm⟩
    · have hle (k : NodeId) : v.count k ≤ w.count k := Nat.le_of_not_lt fun hk ↦ hearlier ⟨k, hk⟩
      have hn := hle n
      rw [List.count_append, List.count_singleton] at h
      split at h
      · rename_i heq
        rw [beq_iff_eq] at heq
        subst heq
        exact ⟨v, a, [], rfl, hle, by omega⟩
      · omega

/-- Where nothing can fire any more, each node has fired as often as it can in any legal sequence. -/
theorem Legal.count_le (hv : g.Legal v) (hle : ∀ m, v.count m ≤ r.get m)
    (hstuck : ∀ m, ¬ g.MayFire r w m) (n : NodeId) : v.count n ≤ w.count n := by
  by_contra hlt
  obtain ⟨u, m, v', rfl, hcount, hm⟩ := exists_overtaking (Nat.lt_of_not_le hlt)
  refine hstuck m ⟨?_, (hv u m v' rfl).mono hcount hm⟩
  have hleft := hle m
  rw [List.count_append, List.count_cons_self] at hleft
  omega

/-! ## Always the lowest node -/

/-- Each firing is that of the lowest node that can fire. -/
structure Greedy (g : Graph) (r : Repetitions) (w : List NodeId) : Prop where
  count_le (n : NodeId) : w.count n ≤ r.get n
  least (u : List NodeId) (n : NodeId) (v : List NodeId) (h : w = u ++ n :: v) :
    IsLeast {m | g.MayFire r u m} n

theorem Greedy.legal (h : g.Greedy r w) : g.Legal w := fun u n v hw ↦ (h.least u n v hw).1.2

theorem Greedy.concat (h : g.Greedy r w) (hn : IsLeast {m | g.MayFire r w m} n) :
    g.Greedy r (w ++ [n]) := by
  refine ⟨fun m ↦ ?_, fun u m v hw ↦ ?_⟩
  · rw [List.count_append, List.count_singleton]
    split
    · rename_i heq
      rw [← beq_iff_eq.mp heq]
      exact hn.1.1
    · exact h.count_le m
  · rcases List.eq_nil_or_concat v with rfl | ⟨v, k, rfl⟩
    · obtain ⟨rfl, hmn⟩ := List.append_inj' hw rfl
      exact List.singleton_inj.mp hmn ▸ hn
    · rw [List.concat_eq_append, ← List.cons_append, ← List.append_assoc] at hw
      exact h.least u m v (List.append_inj' hw rfl).1

/-- Where another legal sequence of the same length turns off, it takes a higher node. -/
theorem Greedy.eq_or_lex (hw : g.Greedy r w) (hv : g.Legal v) (hle : ∀ n, v.count n ≤ r.get n)
    (hlength : w.length = v.length) : w = v ∨ List.Lex (· < ·) w v := by
  suffices hrest : ∀ w' v' u, w = u ++ w' → v = u ++ v' → w'.length = v'.length →
      w' = v' ∨ List.Lex (· < ·) w' v' from hrest w v [] rfl rfl hlength
  intro w'
  induction w' with
  | nil => exact fun v' _ _ _ h ↦ .inl (List.eq_nil_of_length_eq_zero h.symm).symm
  | cons n w' ih =>
    rintro (_ | ⟨m, v'⟩) u hwu hvu hlength
    · cases hlength
    · have hmay : g.MayFire r u m := by
        refine ⟨?_, hv u m v' hvu⟩
        have hleft := hle m
        rw [hvu, List.count_append, List.count_cons_self] at hleft
        omega
      rcases Nat.lt_or_eq_of_le ((hw.least u n w' hwu).2 hmay) with hlt | rfl
      · exact .inr (.rel hlt)
      · have hrest := ih v' (u ++ [n]) (by simp [hwu]) (by simp [hvu]) (Nat.succ.inj hlength)
        exact hrest.imp (congrArg (n :: ·)) .cons

/-! ## What the search comes to -/

/-- The search takes a node for ready when it can fire. -/
theorem isReady_iff_mayFire (hg : g.Coherent) (hv : g.Valid) (hr : r.Balances g) (hp : p.Sound g r)
    (hn : n < r.counts.length) :
    (Machine.task g r n).isReady r.counts.toArray p ↔ g.MayFire r p.latest.reverse n := by
  have htask : Machine.task g r n ∈ g.tasks r := by
    rw [Machine.tasks_eq]
    exact List.mem_map_of_mem (List.mem_range.mpr hn)
  rw [isReady_iff hg hv hr hp htask, MayFire, fedAfter_iff hp.along, List.count_reverse, hp.fired]
  rfl

theorem MayFire.lt (h : g.MayFire r w n) : n < r.counts.length :=
  Repetitions.lt_of_get_pos (Nat.zero_lt_of_lt h.1)

theorem isLeast_of_find? (hg : g.Coherent) (hv : g.Valid) (hr : r.Balances g) (hp : p.Sound g r)
    {t : Task} (h : (g.tasks r).find? (·.isReady r.counts.toArray p) = some t) :
    IsLeast {m | g.MayFire r p.latest.reverse m} t.node := by
  rw [Machine.tasks_eq, List.find?_map, Option.map_eq_some_iff] at h
  obtain ⟨n, hfind, rfl⟩ := h
  obtain ⟨hready, hn, hbefore⟩ := List.find?_range_eq_some.mp hfind
  refine ⟨(isReady_iff_mayFire hg hv hr hp (List.mem_range.mp hn)).mp hready, fun m hm ↦ ?_⟩
  by_contra hlt
  have hnot := hbefore m (Nat.lt_of_not_le hlt)
  simp [(isReady_iff_mayFire hg hv hr hp (MayFire.lt hm)).mpr hm] at hnot

theorem not_mayFire_of_find? (hg : g.Coherent) (hv : g.Valid) (hr : r.Balances g) (hp : p.Sound g r)
    (h : (g.tasks r).find? (·.isReady r.counts.toArray p) = none) (n : NodeId) :
    ¬ g.MayFire r p.latest.reverse n := by
  intro hmay
  rw [Machine.tasks_eq, List.find?_map, Option.map_eq_none_iff, List.find?_eq_none] at h
  exact h n (List.mem_range.mpr hmay.lt) ((isReady_iff_mayFire hg hv hr hp hmay.lt).mpr hmay)

/-- The search stays greedy, and goes on as long as it may and something can fire. -/
theorem greedy_advance (hg : g.Coherent) (hv : g.Valid) (hr : r.Balances g) (hp : p.Sound g r)
    (hgreedy : g.Greedy r p.latest.reverse) {firings : Nat} {q : Progress}
    (hq : advance (g.tasks r) r.counts.toArray firings p = q) :
    g.Greedy r q.latest.reverse ∧
      ((∀ n, ¬ g.MayFire r q.latest.reverse n) ∨ q.latest.length = p.latest.length + firings) := by
  induction firings generalizing p with
  | zero =>
    subst hq
    exact ⟨hgreedy, .inr rfl⟩
  | succ firings ih =>
    unfold advance at hq
    cases hfind : (g.tasks r).find? (·.isReady r.counts.toArray p) with
    | none =>
      rw [hfind] at hq
      subst hq
      exact ⟨hgreedy, .inl (not_mayFire_of_find? hg hv hr hp hfind)⟩
    | some t =>
      rw [hfind] at hq
      have hleast := isLeast_of_find? hg hv hr hp hfind
      obtain ⟨hleft, hfed⟩ := hleast.1
      rw [List.count_reverse, ← hp.fired] at hleft
      have hfire := hp.fire (hr.length ▸ MayFire.lt hleast.1) hleft ((fedAfter_iff hp.along).mp hfed)
      have hlatest : (p.fire t.node).latest.reverse = p.latest.reverse ++ [t.node] :=
        List.reverse_cons
      obtain ⟨hgreedy', hend⟩ := ih hfire (hlatest ▸ hgreedy.concat hleast) hq
      refine ⟨hgreedy', hend.imp_right fun hlength ↦ ?_⟩
      rw [hlength]
      change p.latest.length + 1 + firings = _
      omega

/-- The search ends where nothing can fire any more, and tells whether that is the end of the period. -/
theorem exists_greedy (hg : g.Coherent) (hv : g.Valid) (hr : r.Balances g) {limit : Nat}
    (hlimit : r.total ≤ limit) :
    ∃ w, g.Greedy r w ∧ (∀ n, ¬ g.MayFire r w n) ∧ g.periodOrder r limit =
      match (List.range g.nodes.length).filter fun n ↦ w.count n < r.get n with
      | [] => .ok w
      | stuck => .error (.deadlock stuck) := by
  generalize hend : advance (g.tasks r) r.counts.toArray r.total (.start r.counts.length) = p
  have hstart := Progress.sound_start g r
  rw [← hr.length] at hstart
  have hsound : p.Sound g r := hend ▸ sound_advance hg hv hr hstart r.total
  obtain ⟨hgreedy, hstop⟩ :=
    greedy_advance hg hv hr hstart ⟨fun n ↦ Nat.zero_le _, fun u n v h ↦ by simp [Progress.start] at h⟩
      hend
  refine ⟨p.latest.reverse, hgreedy, fun n hmay ↦ ?_, ?_⟩
  · rcases hstop with hstuck | hlength
    · exact hstuck n hmay
    · have hless := Repetitions.length_lt_total hgreedy.count_le hmay.1
      rw [List.length_reverse, hlength] at hless
      simp [Progress.start] at hless
  · have hstuck := Machine.stuck_eq g r p
    have hfilter : (List.range g.nodes.length).filter (fun n ↦ p.latest.reverse.count n < r.get n) =
        (List.range r.counts.length).filter (Machine.Unfinished r p) := by
      rw [hr.length]
      refine List.filter_congr fun n _ ↦ ?_
      simp [Machine.Unfinished, hsound.fired]
    rw [hfilter, ← hstuck, periodOrder, if_neg (Nat.not_lt.mpr hlimit)]
    simp only [hend]
    cases (g.tasks r).filter fun t ↦ p.firedOf t.node < t.count <;> rfl

/-- Sorting the numbered firings, in words of the machine, comes to what the search comes to. -/
theorem sorted_eq (hg : g.Coherent) (hv : g.Valid) (hr : r.Balances g)
    (hnodes : g.nodes.length < 2147483648) (hedges : g.edges.length < 2147483648) (limit : Nat) :
    Machine.periodOrder g r limit = Machine.of (g.periodOrder r limit) :=
  Machine.periodOrder_eq hg hv hr (Machine.total_lt_modulus hr hnodes) hnodes hedges limit

/-- Nothing is stuck when every node of the graph has fired as often as it should. -/
theorem stuck_eq_nil_iff (hr : r.Balances g) (hw : g.Greedy r w) :
    (List.range g.nodes.length).filter (fun n ↦ w.count n < r.get n) = [] ↔
      ∀ n, w.count n = r.get n := by
  simp only [List.filter_eq_nil_iff, List.mem_range, decide_eq_true_eq]
  constructor
  · intro h n
    refine Nat.le_antisymm (hw.count_le n) (Nat.le_of_not_lt fun hlt ↦ ?_)
    exact h n (hr.length ▸ Repetitions.lt_of_get_pos (Nat.zero_lt_of_lt hlt)) hlt
  · exact fun h n _ hlt ↦ Nat.ne_of_lt hlt (h n)

end Graph

/-! ## A ring -/

namespace Ring

def octet : ElementType := ⟨"u8", 1⟩

/-- The nodes `pair` and `single` form a ring in which one firing of the first balances two of the
second, the node `clock` holds a token of its own, and the node `join` waits for a token of each. -/
def graph (there back : UInt32) : Graph where
  nodes :=
    [⟨"join", 0, [⟨⟨octet, 1⟩, some 2⟩, ⟨⟨octet, 1⟩, some 3⟩], []⟩,
      ⟨"pair", 1, [⟨⟨octet, 2⟩, some 1⟩], [⟨⟨octet, 2⟩, some 0⟩, ⟨⟨octet, 1⟩, some 2⟩]⟩,
      ⟨"single", 2, [⟨⟨octet, 1⟩, some 0⟩], [⟨⟨octet, 1⟩, some 1⟩]⟩,
      ⟨"clock", 3, [⟨⟨octet, 1⟩, some 4⟩], [⟨⟨octet, 1⟩, some 3⟩, ⟨⟨octet, 1⟩, some 4⟩]⟩]
  edges :=
    [⟨.out 1 0, .into 2 0, there, octet, 2, 1⟩, ⟨.out 2 0, .into 1 0, back, octet, 1, 2⟩,
      ⟨.out 1 1, .into 0 0, 0, octet, 1, 1⟩, ⟨.out 3 0, .into 0 1, 0, octet, 1, 1⟩,
      ⟨.out 3 1, .into 3 0, 1, octet, 1, 1⟩]

theorem built_graph (there back : UInt32) : (graph there back).Built := by
  have hnodes := Graph.Built.empty.addNode ⟨"join", none, [⟨octet, 1⟩, ⟨octet, 1⟩], []⟩
    |>.addNode ⟨"pair", none, [⟨octet, 2⟩], [⟨octet, 2⟩, ⟨octet, 1⟩]⟩
    |>.addNode ⟨"single", none, [⟨octet, 1⟩], [⟨octet, 1⟩]⟩
    |>.addNode ⟨"clock", none, [⟨octet, 1⟩], [⟨octet, 1⟩, ⟨octet, 1⟩]⟩
  have hthere := hnodes.connect (rfl : Graph.connect _ (.out 1 0) (.into 2 0) there = .ok (0, _))
  have hback := hthere.connect (rfl : Graph.connect _ (.out 2 0) (.into 1 0) back = .ok (1, _))
  have hjoin := hback.connect (rfl : Graph.connect _ (.out 1 1) (.into 0 0) 0 = .ok (2, _))
  have hclock := hjoin.connect (rfl : Graph.connect _ (.out 3 0) (.into 0 1) 0 = .ok (3, _))
  exact hclock.connect
    (rfl : Graph.connect _ (.out 3 1) (.into 3 0) 1 = .ok (4, graph there back))

def repetitions : Repetitions := ⟨[1, 1, 2, 1]⟩

end Ring

/-! ## The order, and why there is none -/

namespace Graph

variable {g : Graph} {r : Repetitions}

/-- The order of a period fires every node as often as its count says, never takes an edge below zero,
and is the least sequence that does so: each firing is that of the lowest node that has firings left
and finds its tokens. Sorting the firings by what each of them waits for gives the same order. -/
theorem least_of_periodOrder (hg : g.Built) (hv : g.validate = .ok ()) (hr : g.solve = .ok r)
    {limit : Nat} {order : List NodeId} (h : g.periodOrder r limit = .ok order) :
    (∀ n, order.count n = r.get n) ∧ g.Legal order ∧
      (∀ w, (∀ n, w.count n = r.get n) → g.Legal w → order = w ∨ List.Lex (· < ·) order w) ∧
      (∀ u n v, order = u ++ n :: v →
        IsLeast {m | u.count m < r.get m ∧ g.Fed m (Steps.run g.after u g.delay)} n) ∧
      (g.nodes.length < 2147483648 → g.edges.length < 2147483648 →
        Machine.periodOrder g r limit = .ok order) := by
  have hvalid := validate_eq_ok_iff.mp hv
  have hbalances := balances_of_solve hg.coherent (hvalid.flows hg.coherent) hr
  have hlimit : r.total ≤ limit := by
    refine Nat.le_of_not_lt fun hlong ↦ ?_
    rw [periodOrder, if_pos hlong] at h
    cases h
  have hsorted (hnodes : g.nodes.length < 2147483648) (hedges : g.edges.length < 2147483648) :
      Machine.periodOrder g r limit = .ok order := by
    rw [sorted_eq hg.coherent hvalid hbalances hnodes hedges, h, Machine.of_ok]
  obtain ⟨w, hgreedy, -, hsearch⟩ := exists_greedy hg.coherent hvalid hbalances hlimit
  cases hstuck : (List.range g.nodes.length).filter fun n ↦ w.count n < r.get n with
  | cons n rest =>
    rw [hsearch, hstuck] at h
    cases h
  | nil =>
    rw [hsearch, hstuck] at h
    cases h
    have hcount := (stuck_eq_nil_iff hbalances hgreedy).mp hstuck
    refine ⟨hcount, hgreedy.legal, fun v hv hlegal ↦ ?_, fun u n v horder ↦ ?_, hsorted⟩
    · refine hgreedy.eq_or_lex hlegal (fun n ↦ (hv n).le) ?_
      rw [Repetitions.length_eq_total hcount, Repetitions.length_eq_total hv]
    · have halong : Steps.Along g.Fed g.after u g.delay := by
        have hwhole := along_iff_legal.mpr hgreedy.legal
        rw [horder] at hwhole
        exact (Steps.along_append.mp hwhole).1
      simpa only [MayFire, fedAfter_iff halong] using hgreedy.least u n v horder

/-- With the tokens on the way back the ring turns, and the lowest node is the last to get its tokens. -/
theorem least_ring : (Ring.graph 0 2).periodOrder Ring.repetitions 5 = .ok [1, 2, 2, 3, 0] ∧
    Machine.periodOrder (Ring.graph 0 2) Ring.repetitions 5 = .ok [1, 2, 2, 3, 0] ∧
    ∀ w, (∀ n, w.count n = Ring.repetitions.get n) → (Ring.graph 0 2).Legal w →
      [1, 2, 2, 3, 0] = w ∨ List.Lex (· < ·) [1, 2, 2, 3, 0] w := by
  have horder : (Ring.graph 0 2).periodOrder Ring.repetitions 5 = .ok [1, 2, 2, 3, 0] := by
    decide +kernel
  obtain ⟨-, -, hleast, -, hsorted⟩ := least_of_periodOrder (Ring.built_graph 0 2)
    (by decide +kernel) (by decide +kernel) horder
  exact ⟨horder, hsorted (by decide) (by decide), hleast⟩

/-- The search is at a deadlock exactly when no sequence makes a period without underflow, and it names
those nodes, from the lowest to the highest, that none brings to the end of the period. Sorting the
firings by what each of them waits for comes to the same. -/
theorem deadlock_iff_no_period (hg : g.Built) (hv : g.validate = .ok ()) (hr : g.solve = .ok r)
    {limit : Nat} (hlimit : r.total ≤ limit) :
    ((∃ nodes, g.periodOrder r limit = .error (.deadlock nodes)) ↔
        ¬ ∃ w, (∀ n, w.count n = r.get n) ∧ g.Legal w) ∧
      (∀ nodes, g.periodOrder r limit = .error (.deadlock nodes) →
        nodes ≠ [] ∧ nodes.Pairwise (· < ·) ∧ ∀ n, n ∈ nodes ↔ n < g.nodes.length ∧
          ¬ ∃ w, g.Legal w ∧ (∀ m, w.count m ≤ r.get m) ∧ w.count n = r.get n) ∧
      (g.nodes.length < 2147483648 → g.edges.length < 2147483648 →
        Machine.periodOrder g r limit = Machine.of (g.periodOrder r limit)) := by
  have hvalid := validate_eq_ok_iff.mp hv
  have hbalances := balances_of_solve hg.coherent (hvalid.flows hg.coherent) hr
  obtain ⟨w, hgreedy, hend, hsearch⟩ := exists_greedy hg.coherent hvalid hbalances hlimit
  have hnil := stuck_eq_nil_iff hbalances hgreedy
  rw [← and_assoc]
  refine ⟨?_, fun hnodes hedges ↦ sorted_eq hg.coherent hvalid hbalances hnodes hedges limit⟩
  rw [hsearch]
  cases hstuck : (List.range g.nodes.length).filter fun n ↦ w.count n < r.get n with
  | nil =>
    refine ⟨iff_of_false (by simp) fun hno ↦ hno ⟨w, hnil.mp hstuck, hgreedy.legal⟩, by simp⟩
  | cons first rest =>
    have hmem (n : NodeId) : n ∈ first :: rest ↔ n < g.nodes.length ∧ w.count n < r.get n := by
      rw [← hstuck, List.mem_filter, List.mem_range, decide_eq_true_eq]
    refine ⟨iff_of_true ⟨_, rfl⟩ ?_, fun nodes hnodes ↦ ?_⟩
    · rintro ⟨v, hcount, hlegal⟩
      have hleft := ((hmem first).mp List.mem_cons_self).2
      have hfurther := hlegal.count_le (fun n ↦ (hcount n).le) hend first
      rw [hcount] at hfurther
      omega
    · cases hnodes
      refine ⟨List.cons_ne_nil _ _, hstuck ▸ List.pairwise_lt_range.filter _, fun n ↦ ?_⟩
      rw [hmem]
      refine and_congr_right fun _ ↦ ⟨?_, fun hno ↦ ?_⟩
      · rintro hleft ⟨v, hlegal, hle, hcount⟩
        have hfurther := hlegal.count_le hle hend n
        omega
      · exact Nat.lt_of_le_of_ne (hgreedy.count_le n) fun hcount ↦
          hno ⟨w, hgreedy.legal, hgreedy.count_le, hcount⟩

/-- One token on the way there lets the node `single` fire once. Then the ring stands still, and with it
the node that waits for it, but not the clock. -/
theorem deadlock_ring :
    (Ring.graph 1 0).periodOrder Ring.repetitions 5 = .error (.deadlock [0, 1, 2]) ∧
      Machine.periodOrder (Ring.graph 1 0) Ring.repetitions 5 =
        Machine.refuse (.deadlock [0, 1, 2]) ∧
      (¬ ∃ w, (∀ n, w.count n = Ring.repetitions.get n) ∧ (Ring.graph 1 0).Legal w) ∧
      ∀ n, n ∈ [0, 1, 2] ↔ n < 4 ∧ ¬ ∃ w, (Ring.graph 1 0).Legal w ∧
        (∀ m, w.count m ≤ Ring.repetitions.get m) ∧ w.count n = Ring.repetitions.get n := by
  have horder : (Ring.graph 1 0).periodOrder Ring.repetitions 5 = .error (.deadlock [0, 1, 2]) := by
    decide +kernel
  obtain ⟨hiff, hnodes, hsorted⟩ := deadlock_iff_no_period (Ring.built_graph 1 0)
    (by decide +kernel) (by decide +kernel) (show Ring.repetitions.total ≤ 5 by decide)
  have hmachine := hsorted (by decide) (by decide)
  rw [horder] at hmachine
  exact ⟨horder, hmachine, hiff.mp ⟨_, horder⟩, (hnodes _ horder).2.2⟩

end Graph

end Dataflow
