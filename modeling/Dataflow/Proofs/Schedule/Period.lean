import Dataflow.Proofs.Schedule.Balance
import Dataflow.Proofs.Schedule.Tokens
import Dataflow.Schedule.Period
import Mathlib.Algebra.BigOperators.Fin
import Mathlib.Algebra.Order.BigOperators.Group.Finset
import Mathlib.Algebra.Order.BigOperators.Group.Multiset

/-!
# One period

The order of a period fires each node as often as its count says, and each firing finds its tokens. The
search asks for a particular firing of the source, known by its number in the row of all firings. In
balance this number falls into the firings of the source, so asking for it is asking for the tokens.
-/

namespace Dataflow

/-- Each node fires as often as `r` says, and finds its tokens each time. -/
structure Graph.IsPeriod (g : Graph) (r : Repetitions) (order : List NodeId) : Prop where
  count (n : NodeId) : order.count n = r.get n
  along : Steps.Along g.Fed g.after order g.delay

namespace Repetitions

theorem getD_toArray_counts (r : Repetitions) (n : NodeId) : r.counts.toArray.getD n 0 = r.get n := by
  simp [get, Array.getD_eq_getD_getElem?]

theorem get_eq_zero {r : Repetitions} {n : NodeId} (h : r.counts.length ≤ n) : r.get n = 0 := by
  simp [get, List.getElem?_eq_none h]

theorem Balances.get_lt {r : Repetitions} {g : Graph} (h : r.Balances g) (n : NodeId) :
    r.get n < Spread.countLimit := by
  rcases Nat.lt_or_ge n g.nodes.length with hn | hn
  · exact h.fits hn
  · rw [get_eq_zero (h.length ▸ hn)]
    decide

theorem lt_of_get_pos {r : Repetitions} {n : NodeId} (h : 0 < r.get n) : n < r.counts.length := by
  by_contra hge
  rw [get_eq_zero (Nat.le_of_not_lt hge)] at h
  exact Nat.lt_irrefl 0 h

theorem total_eq_sum (r : Repetitions) :
    r.total = ∑ n ∈ Finset.range r.counts.length, r.get n := by
  rw [Finset.sum_range]
  calc r.total = ∑ i : Fin r.counts.length, r.counts[i] := (Fin.sum_univ_getElem r.counts).symm
    _ = ∑ i : Fin r.counts.length, r.get i := Finset.sum_congr rfl fun i _ ↦ by simp [get]

/-- The entries of a list are those that each of these nodes has in it, if there are no others. -/
theorem length_eq_sum_range_count {size : Nat} {w : List NodeId} (h : ∀ n ∈ w, n < size) :
    w.length = ∑ n ∈ Finset.range size, w.count n := by
  have hmem : ∀ n ∈ (w : Multiset NodeId), n ∈ Finset.range size := fun n hn ↦ Finset.mem_range.mpr (h n hn)
  rw [← Multiset.coe_card, ← Multiset.sum_count_eq_card hmem]
  simp only [Multiset.coe_count]

theorem length_eq_sum_count {r : Repetitions} {w : List NodeId} (h : ∀ n, w.count n ≤ r.get n) :
    w.length = ∑ n ∈ Finset.range r.counts.length, w.count n :=
  length_eq_sum_range_count fun n hn ↦
    lt_of_get_pos (Nat.lt_of_lt_of_le (List.count_pos_iff.mpr hn) (h n))

/-- A list that has every node as often as `r` says has as many entries as `r` has firings. -/
theorem length_eq_total {r : Repetitions} {order : List NodeId}
    (h : ∀ n, order.count n = r.get n) : order.length = r.total := by
  rw [length_eq_sum_count fun n ↦ (h n).le, total_eq_sum]
  exact Finset.sum_congr rfl fun n _ ↦ h n

/-- A list that has no node more often than `r` says, and one less often, has fewer entries. -/
theorem length_lt_total {r : Repetitions} {w : List NodeId} (h : ∀ n, w.count n ≤ r.get n)
    {n : NodeId} (hn : w.count n < r.get n) : w.length < r.total := by
  rw [length_eq_sum_count h, total_eq_sum]
  exact Finset.sum_lt_sum (fun m _ ↦ h m)
    ⟨n, Finset.mem_range.mpr (lt_of_get_pos (Nat.zero_lt_of_lt hn)), hn⟩

end Repetitions

namespace Progress

/-- The search stands after a legal beginning of a period. -/
structure Sound (g : Graph) (r : Repetitions) (p : Progress) : Prop where
  size : p.fired.size = g.nodes.length
  fired (n : NodeId) : p.firedOf n = p.latest.count n
  bounded (n : NodeId) : p.firedOf n ≤ r.get n
  along : Steps.Along g.Fed g.after p.latest.reverse g.delay

theorem sound_start (g : Graph) (r : Repetitions) : Sound g r (.start g.nodes.length) := by
  have hfired (n : NodeId) : (start g.nodes.length).firedOf n = 0 := by
    simp only [firedOf, start, Array.getD_eq_getD_getElem?, Array.getElem?_replicate]
    split <;> rfl
  exact ⟨by simp [start], fun n ↦ (hfired n).trans rfl,
    fun n ↦ (hfired n).trans_le (Nat.zero_le _), trivial⟩

theorem firedOf_fire {p : Progress} {n : NodeId} (hn : n < p.fired.size) (m : NodeId) :
    (p.fire n).firedOf m = if m = n then p.firedOf n + 1 else p.firedOf m := by
  simp only [firedOf, fire, Array.getD_eq_getD_getElem?, Array.getElem?_setIfInBounds]
  by_cases hm : n = m
  · subst hm
    simp [hn]
  · simp [hm, Ne.symm hm]

theorem Sound.fire {g : Graph} {r : Repetitions} {p : Progress} (h : p.Sound g r) {n : NodeId}
    (hn : n < g.nodes.length) (hleft : p.firedOf n < r.get n)
    (hfed : g.Fed n (Steps.run g.after p.latest.reverse g.delay)) : (p.fire n).Sound g r := by
  have hsize : n < p.fired.size := h.size ▸ hn
  refine ⟨by simpa [Progress.fire] using h.size, fun m ↦ ?_, fun m ↦ ?_, ?_⟩
  · rw [firedOf_fire hsize, Progress.fire, List.count_cons]
    by_cases hm : m = n
    · subst hm
      simp [h.fired]
    · simp [hm, Ne.symm hm, h.fired]
  · rw [firedOf_fire hsize]
    split
    · rename_i hm
      exact hm ▸ hleft
    · exact h.bounded m
  · simpa [Progress.fire, h.along] using hfed

theorem isDone_of_lt {p : Progress} {counts : Array Nat} {span : Nat} {n : NodeId} {i : Nat}
    (hspan : 0 < span) (hi : i < counts.getD n 0) :
    p.isDone counts span n i = decide (i < p.firedOf n) := by
  cases span with
  | zero => exact absurd hspan (Nat.lt_irrefl 0)
  | succ span => rw [isDone, if_pos hi]

end Progress

/-! ## Readiness by numbers of firings -/

/-- The last token that firing `k` of the target reads comes from firing `i` of the source, and is there
when that firing is done. -/
theorem Need.isMet_iff {r : Repetitions} {p : Progress} {d : Need} {k count : Nat}
    (hproduction : 0 < d.production) (hsource : d.source < r.counts.length)
    (hbalance : d.production * r.get d.source = d.consumption * count) (hk : k < count) :
    d.isMet r.counts.toArray p k ↔
      (k + 1) * d.consumption ≤ d.delay + d.production * p.firedOf d.source := by
  rw [isMet, Bool.or_eq_true, decide_eq_true_eq]
  by_cases hlast : (k + 1) * d.consumption ≤ d.delay
  · exact iff_of_true (.inl hlast) (Nat.le_add_right_of_le hlast)
  · have hperiod : (k + 1) * d.consumption ≤ d.production * r.get d.source := by
      rw [hbalance, Nat.mul_comm]
      exact Nat.mul_le_mul_left _ hk
    have hrow : ((k + 1) * d.consumption - 1 - d.delay) / d.production < r.get d.source := by
      rw [Nat.div_lt_iff_lt_mul hproduction, Nat.mul_comm (r.get d.source)]
      omega
    rw [or_iff_right hlast, Progress.isDone_of_lt (by simpa using hsource)
      (by rwa [Repetitions.getD_toArray_counts]), decide_eq_true_eq,
      Nat.div_lt_iff_lt_mul hproduction, Nat.mul_comm (p.firedOf d.source)]
    omega

namespace Graph

variable {g : Graph} {r : Repetitions} {p : Progress}

theorem mem_tasks {t : Task} : t ∈ g.tasks r ↔
    r.counts[t.node]? = some t.count ∧ t.needs = (g.inputEdges t.node).filterMap g.need? := by
  obtain ⟨node, count, needs⟩ := t
  simp only [tasks, List.mem_map, Prod.exists, List.mem_zipIdx_iff_getElem?, Task.mk.injEq]
  constructor
  · rintro ⟨count, node, hcount, rfl, rfl, rfl⟩
    exact ⟨hcount, rfl⟩
  · rintro ⟨hcount, rfl⟩
    exact ⟨count, node, hcount, rfl, rfl, rfl⟩

theorem count_of_mem_tasks {t : Task} (h : t ∈ g.tasks r) : t.count = r.get t.node := by
  simp [Repetitions.get, (mem_tasks.mp h).1]

/-- A node needs something of each edge that it is the target of. -/
theorem Coherent.forall_need_iff (hg : g.Coherent) {n : NodeId} {P : Need → Prop} :
    (∀ d ∈ (g.inputEdges n).filterMap g.need?, P d) ↔
      ∀ (id : EdgeId) (e : Edge), g.edges[id]? = some e → e.target.node = n →
        P ⟨e.source.node, e.production.toNat, e.consumption.toNat, e.delay.toNat⟩ := by
  simp only [List.mem_filterMap, need?, ← edgesAt_input, hg.mem_edgesAt]
  constructor
  · intro h id e he hn
    exact h _ ⟨id, ⟨e, he, hn⟩, by rw [he]; rfl⟩
  · rintro h need ⟨id, ⟨e, he, hn⟩, hneed⟩
    rw [he] at hneed
    cases hneed
    exact h id e he hn

/-- The search takes a node for ready when the node has firings left and finds its tokens. -/
theorem isReady_iff (hg : g.Coherent) (hv : g.Valid) (hr : r.Balances g) (hp : p.Sound g r)
    {t : Task} (ht : t ∈ g.tasks r) : t.isReady r.counts.toArray p ↔
      p.firedOf t.node < r.get t.node ∧
        g.Fed t.node (Steps.run g.after p.latest.reverse g.delay) := by
  rw [Task.isReady, Bool.and_eq_true, decide_eq_true_eq, List.all_eq_true, count_of_mem_tasks ht,
    (mem_tasks.mp ht).2, hg.forall_need_iff, fed_iff]
  refine and_congr_right fun hleft ↦ forall₄_congr fun id e he hn ↦ ?_
  have htokens := run_after_add hp.along he
  simp only [List.count_reverse, ← hp.fired, hn, delay_of_getElem? he] at htokens
  rw [Need.isMet_iff (hv.rateAt_pos hg he .output) (hr.length ▸ hg.node_lt he .output)
    (hn ▸ hr.balance he) hleft, Nat.mul_comm, Nat.mul_succ]
  change e.rateAt .input * _ + e.rateAt .input ≤
    e.delay.toNat + e.rateAt .output * p.firedOf e.source.node ↔ _
  omega

theorem sound_advance (hg : g.Coherent) (hv : g.Valid) (hr : r.Balances g) (hp : p.Sound g r)
    (firings : Nat) : (advance (g.tasks r) r.counts.toArray firings p).Sound g r := by
  induction firings generalizing p with
  | zero => exact hp
  | succ firings ih =>
    unfold advance
    cases hfind : (g.tasks r).find? (·.isReady r.counts.toArray p) with
    | none => exact hp
    | some t =>
      have ht := List.mem_of_find?_eq_some hfind
      have hready := List.find?_some hfind
      obtain ⟨hleft, hfed⟩ := (isReady_iff hg hv hr hp ht).mp hready
      have hn : t.node < g.nodes.length :=
        hr.length ▸ Repetitions.lt_of_get_pos (Nat.zero_lt_of_lt hleft)
      exact ih (hp.fire hn hleft hfed)

theorem isPeriod_of_periodOrder (hg : g.Coherent) (hv : g.Valid) (hr : r.Balances g) {limit : Nat}
    {order : List NodeId} (h : g.periodOrder r limit = .ok order) :
    g.IsPeriod r order ∧ order.length ≤ limit := by
  unfold periodOrder at h
  split at h
  · cases h
  rename_i hlimit
  simp only at h
  rw [hr.length] at h
  generalize hend : advance (g.tasks r) r.counts.toArray r.total (.start g.nodes.length) = p at h
  have hsound : p.Sound g r := hend ▸ sound_advance hg hv hr (Progress.sound_start g r) r.total
  cases hstuck : (g.tasks r).filter (fun t ↦ p.firedOf t.node < t.count) with
  | cons t rest => simp [hstuck] at h
  | nil =>
    simp only [hstuck, Except.ok.injEq] at h
    subst h
    have hcount (n : NodeId) : p.latest.reverse.count n = r.get n := by
      rw [List.count_reverse, ← hsound.fired]
      refine Nat.le_antisymm (hsound.bounded n) ?_
      rcases Nat.lt_or_ge n r.counts.length with hn | hn
      · have htask : ⟨n, r.get n, (g.inputEdges n).filterMap g.need?⟩ ∈ g.tasks r :=
          mem_tasks.mpr ⟨by simp [Repetitions.get, hn], rfl⟩
        simpa using List.filter_eq_nil_iff.mp hstuck _ htask
      · rw [Repetitions.get_eq_zero hn]
        exact Nat.zero_le _
    refine ⟨⟨hcount, hsound.along⟩, ?_⟩
    rw [Repetitions.length_eq_total hcount]
    exact Nat.le_of_not_lt hlimit

namespace IsPeriod

variable {order : List NodeId}

theorem length_eq (h : g.IsPeriod r order) : order.length = r.total :=
  Repetitions.length_eq_total h.count

theorem lt_of_mem (h : g.IsPeriod r order) (hr : r.Balances g) {n : NodeId} (hn : n ∈ order) :
    n < g.nodes.length := by
  rw [← hr.length]
  refine Repetitions.lt_of_get_pos ?_
  rw [← h.count]
  exact List.count_pos_iff.mpr hn

theorem mem_of_lt (h : g.IsPeriod r order) (hr : r.Balances g) {n : NodeId}
    (hn : n < g.nodes.length) : n ∈ order := by
  rw [← List.count_pos_iff, h.count]
  exact hr.positive hn

/-- A period that finds its tokens leaves every edge with as many as it had. -/
theorem run_eq_of_along (h : g.IsPeriod r order) (hr : r.Balances g) {level : Levels}
    (hfed : Steps.Along g.Fed g.after order level) : Steps.run g.after order level = level := by
  funext id
  cases he : g.edges[id]? with
  | none => exact run_after_of_length_le (List.getElem?_eq_none_iff.mp he)
  | some e =>
    have htokens := run_after_add hfed he
    rw [h.count, h.count, hr.balance he] at htokens
    exact Nat.add_right_cancel htokens

theorem run_eq (h : g.IsPeriod r order) (hr : r.Balances g) :
    Steps.run g.after order g.delay = g.delay := h.run_eq_of_along hr h.along

end IsPeriod

end Graph

end Dataflow
