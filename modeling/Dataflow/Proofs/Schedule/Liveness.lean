import Dataflow.Proofs.Schedule.Plan
import Mathlib.Logic.Relation

/-!
# No artificial deadlock

Every edge has one source and one target, so a firing takes neither tokens nor room from a node other
than the one that fires: ready nodes stay ready, and firings of ready nodes commute. A state that guarded
firings have reached from the initial tokens lies on the way through enough periods, and the firings
that are still missing from these periods lead back. The first of them that belongs to a component is
the firing of a node that is ready already.
-/

namespace Dataflow.Graph

/-- Two nodes are the ends of one edge. -/
def Joined (g : Graph) (m n : NodeId) : Prop :=
  ∃ (id : EdgeId) (e : Edge), g.edges[id]? = some e ∧ e.source.node = m ∧ e.target.node = n

/-- Two nodes belong to one component. -/
def Connected (g : Graph) : NodeId → NodeId → Prop := Relation.EqvGen g.Joined

variable {g : Graph} {capacity : Levels} {level level' : Levels} {m n : NodeId} {v w : List NodeId}

theorem Connected.refl (g : Graph) (n : NodeId) : g.Connected n n := Relation.EqvGen.refl n

theorem Connected.symm (h : g.Connected m n) : g.Connected n m := Relation.EqvGen.symm m n h

theorem Connected.trans {k : NodeId} (h : g.Connected k m) (h' : g.Connected m n) :
    g.Connected k n := Relation.EqvGen.trans k m n h h'

theorem connected_ends {id : EdgeId} {e : Edge} (he : g.edges[id]? = some e) (d d' : Direction) :
    g.Connected (e.portAt d).node (e.portAt d').node := by
  have hjoined : g.Connected e.source.node e.target.node := .rel _ _ ⟨id, e, he, rfl, rfl⟩
  cases d <;> cases d'
  · exact .refl g _
  · exact hjoined.symm
  · exact hjoined
  · exact .refl g _

/-! ## Firings do not meet -/

theorem fed_after (hne : m ≠ n) (hn : g.Fed n level) : g.Fed n (g.after m level) := by
  intro id
  have hfed := hn id
  rw [after]
  rcases g.moved_eq_zero_or hne .input id with hm | hm <;> omega

/-- Firing another node leaves a ready node ready. -/
theorem ready_after (hg : g.Coherent) (hne : m ≠ n) (hn : g.Ready capacity n level) :
    g.Ready capacity n (g.after m level) := by
  obtain ⟨hlt, hguarded⟩ := hn
  obtain ⟨hfed, hfree⟩ := hg.guarded_iff.mp hguarded
  refine ⟨hlt, hg.guarded_iff.mpr ⟨fed_after hne hfed, fun id ↦ ?_⟩⟩
  have hroom := hfree id
  rw [after]
  rcases g.moved_eq_zero_or hne .output id with hm | hm <;> omega

theorem after_comm (hne : m ≠ n) (hm : g.Fed m level) (hn : g.Fed n level) :
    g.after n (g.after m level) = g.after m (g.after n level) := by
  funext id
  have hm' := hm id
  have hn' := hn id
  simp only [after]
  rcases g.moved_eq_zero_or hne .input id with h | h <;> omega

theorem diamond_ready (hg : g.Coherent) (capacity : Levels) :
    Steps.Diamond (g.Ready capacity) g.after where
  keeps hne _ hb := ready_after hg hne hb
  comm hne ha hb := after_comm hne (ha.fed hg) (hb.fed hg)

/-! ## Firings elsewhere -/

/-- A node that is at neither end of an edge does not move its tokens. -/
theorem run_after_of_not_mem {id : EdgeId} {e : Edge} (he : g.edges[id]? = some e)
    (h : ∀ d, (e.portAt d).node ∉ w) : Steps.run g.after w level id = level id := by
  induction w generalizing level with
  | nil => rfl
  | cons n w ih =>
    have hzero (d : Direction) : g.moved d n id = 0 := by
      rw [moved_of_getElem? he, Edge.moved, if_neg]
      exact fun hn ↦ h d (hn ▸ List.mem_cons_self)
    rw [Steps.run_cons, ih fun d hd ↦ h d (List.mem_cons_of_mem n hd), after, hzero, hzero]
    rfl

/-- The guard of a node looks at the edges of this node. -/
theorem Ready.congr (hg : g.Coherent) (h : g.Ready capacity n level)
    (hlevel : ∀ id e, g.edges[id]? = some e → (∃ d, (e.portAt d).node = n) → level' id = level id) :
    g.Ready capacity n level' := by
  obtain ⟨hlt, hguarded⟩ := h
  obtain ⟨hfed, hfree⟩ := hg.guarded_iff.mp hguarded
  have hside (d : Direction) (id : EdgeId) : g.moved d n id = 0 ∨ level' id = level id := by
    cases he : g.edges[id]? with
    | none => exact .inl (by simp [moved, he])
    | some e =>
      by_cases hn : (e.portAt d).node = n
      · exact .inr (hlevel id e he ⟨d, hn⟩)
      · exact .inl (by rw [moved_of_getElem? he, Edge.moved, if_neg hn])
  refine ⟨hlt, hg.guarded_iff.mpr ⟨fun id ↦ ?_, fun id ↦ ?_⟩⟩
  · have hroom := hfed id
    rcases hside .input id with h | h <;> omega
  · have hroom := hfree id
    rcases hside .output id with h | h <;> omega

/-- A list with an element that fulfils `p` has a first one. -/
theorem exists_first {p : NodeId → Prop} (h : ∃ n ∈ w, p n) :
    ∃ u n v, w = u ++ n :: v ∧ p n ∧ ∀ m ∈ u, ¬ p m := by
  classical
  induction w with
  | nil => simp at h
  | cons m w ih =>
    by_cases hm : p m
    · exact ⟨[], m, w, rfl, hm, by simp⟩
    · obtain ⟨n, hn, hpn⟩ := h
      have hn' : n ∈ w := (List.mem_cons.mp hn).resolve_left fun heq ↦ hm (heq ▸ hpn)
      obtain ⟨u, k, v, rfl, hk, hu⟩ := ih ⟨n, hn', hpn⟩
      refine ⟨m :: u, k, v, rfl, hk, fun j hj ↦ ?_⟩
      rcases List.mem_cons.mp hj with rfl | hj
      · exact hm
      · exact hu j hj

/-- If a legal sequence visits a component, a node of this component is ready at its beginning. -/
theorem exists_ready_of_along (hg : g.Coherent)
    (h : Steps.Along (g.Ready capacity) g.after w level) (hn : n ∈ w) :
    ∃ m, g.Connected n m ∧ g.Ready capacity m level := by
  obtain ⟨u, m, v, rfl, hm, hu⟩ := exists_first (p := g.Connected n) ⟨n, hn, .refl g n⟩
  refine ⟨m, hm, Ready.congr hg (Steps.along_append.mp h).2.1 fun id e he ⟨d, hd⟩ ↦ ?_⟩
  refine (run_after_of_not_mem he fun d' hmem ↦ hu _ hmem ?_).symm
  exact hm.trans (hd ▸ connected_ends he d d')

end Dataflow.Graph

namespace Dataflow.Plan

/-- Guarded firings lead from the initial tokens to these levels. -/
def Reaches (p : Plan) (level : Levels) : Prop :=
  ∃ v, Steps.Along (p.graph.Ready p.room) p.graph.after v p.graph.delay ∧
    level = Steps.run p.graph.after v p.graph.delay

theorem reaches_delay (p : Plan) : p.Reaches p.graph.delay := ⟨[], trivial, rfl⟩

theorem Reaches.after {p : Plan} {level : Levels} {n : NodeId} (h : p.Reaches level)
    (hready : p.graph.Ready p.room n level) : p.Reaches (p.graph.after n level) := by
  obtain ⟨v, hv, rfl⟩ := h
  exact ⟨v ++ [n], Steps.along_append.mpr ⟨hv, hready, trivial⟩, by rw [Steps.run_append]; rfl⟩

namespace Sound

variable {p : Plan} {v : List NodeId}

theorem count_flatten_replicate (h : p.Sound) (k : Nat) (n : NodeId) :
    (List.replicate k p.order).flatten.count n = k * p.repetitions.get n := by
  rw [List.count_flatten, List.map_replicate, List.sum_replicate, h.period.count, smul_eq_mul]

/-- Enough periods have every node more often than the sequence, if the node exists. -/
theorem count_lt (h : p.Sound) {n : NodeId} (hn : n < p.graph.nodes.length) :
    v.count n < (List.replicate (v.length + 1) p.order).flatten.count n := by
  have hpos := h.balances.positive hn
  calc v.count n ≤ v.length := List.count_le_length
    _ < (v.length + 1) * 1 := by omega
    _ ≤ (v.length + 1) * p.repetitions.get n := Nat.mul_le_mul_left _ hpos
    _ = _ := (h.count_flatten_replicate _ n).symm

/-- Wherever guarded firings lead from the initial tokens, every component has a ready node, and there
is a way back to the initial tokens. -/
theorem live (h : p.Sound) (hv : Steps.Along (p.graph.Ready p.room) p.graph.after v p.graph.delay) :
    (∀ n < p.graph.nodes.length, ∃ m, p.graph.Connected n m ∧
        p.graph.Ready p.room m (Steps.run p.graph.after v p.graph.delay)) ∧
      ∃ w, Steps.Along (p.graph.Ready p.room) p.graph.after w
          (Steps.run p.graph.after v p.graph.delay) ∧
        Steps.run p.graph.after w (Steps.run p.graph.after v p.graph.delay) = p.graph.delay := by
  obtain ⟨hcarries, hback⟩ := h.carries_replicate (v.length + 1)
  have hdiamond := Graph.diamond_ready h.coherent p.room
  have hrest := hdiamond.along_diff hv hcarries
  have hlt : ∀ n ∈ v, n < p.graph.nodes.length := by
    intro n hn
    obtain ⟨u, u', rfl⟩ := List.append_of_mem hn
    exact (Steps.along_append.mp hv).2.1.1
  refine ⟨fun n hn ↦ ?_, _, hrest, ?_⟩
  · refine Graph.exists_ready_of_along h.coherent hrest ?_
    rw [← List.count_pos_iff, List.count_diff]
    exact Nat.sub_pos_of_lt (h.count_lt hn)
  · rw [← Steps.run_append]
    have hwhole := Steps.along_append.mpr ⟨hv, hrest⟩
    refine (hdiamond.run_eq_of_perm hwhole hcarries ?_).trans hback
    refine List.perm_iff_count.mpr fun n ↦ ?_
    rw [List.count_append, List.count_diff]
    by_cases hn : n ∈ v
    · exact Nat.add_sub_cancel' (Nat.le_of_lt (h.count_lt (hlt n hn)))
    · rw [List.count_eq_zero_of_not_mem hn, Nat.zero_add, Nat.sub_zero]

theorem exists_ready (h : p.Sound) {level : Levels} (hl : p.Reaches level) :
    ∃ n, p.graph.Ready p.room n level := by
  obtain ⟨v, hv, rfl⟩ := hl
  obtain ⟨n, -, hn⟩ := (h.live hv).1 0 h.valid.nonempty
  exact ⟨n, hn⟩

/-- A host that goes through the firing order comes to every node. -/
theorem mem_firingOrder (h : p.Sound) {n : NodeId}
    (hn : n < p.graph.nodes.length) : n ∈ p.firingOrder := by
  unfold Plan.firingOrder Plan.schedule
  cases p.mode with
  | fullyAsynchronous => exact List.mem_range.mpr hn
  | static => exact h.period.mem_of_lt h.balances hn
  | asynchronous => exact h.period.mem_of_lt h.balances hn

theorem lt_of_mem_firingOrder (h : p.Sound) {n : NodeId} (hn : n ∈ p.firingOrder) :
    n < p.graph.nodes.length := by
  unfold Plan.firingOrder Plan.schedule at hn
  cases hm : p.mode with
  | fullyAsynchronous =>
    rw [hm] at hn
    exact List.mem_range.mp hn
  | static =>
    rw [hm] at hn
    exact h.period.lt_of_mem h.balances hn
  | asynchronous =>
    rw [hm] at hn
    exact h.period.lt_of_mem h.balances hn

end Sound

end Dataflow.Plan
