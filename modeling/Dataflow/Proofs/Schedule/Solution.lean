import Dataflow.Proofs.Schedule.Least
import Mathlib.Order.Lattice.Nat

/-!
# The least of all solutions

Positive counts in balance can be cut from several solutions, component by component, and a multiple of
one solution can be taken away from another. So where there is a solution at all, the least count that
each node has in any of them is itself a solution, and every other one is a multiple of it in each
component: what a division leaves over would be a smaller one.
-/

namespace Dataflow.Graph

/-- Counts with which every node fires and every edge is left with what it had. -/
structure PositiveSolution (g : Graph) (w : NodeId → Nat) : Prop where
  positive {n : NodeId} (hn : n < g.nodes.length) : 0 < w n
  solves : g.Solves w

/-- A positive solution that divides every other one, with one quotient for each component. -/
structure LeastSolution (g : Graph) (v : NodeId → Nat) : Prop extends PositiveSolution g v where
  multiple {w : NodeId → Nat} (hw : g.PositiveSolution w) {m : NodeId} (hm : m < g.nodes.length) :
    ∃ k, 1 ≤ k ∧ ∀ n, g.Connected m n → w n = k * v n

/-- The least count of a node in any positive solution. -/
noncomputable def leastCount (g : Graph) (n : NodeId) : Nat :=
  sInf {c | ∃ w, g.PositiveSolution w ∧ w n = c}

variable {g : Graph} {m n : NodeId} {u v w : NodeId → Nat}

open Classical in
/-- A solution of one component, and of the rest another one. -/
theorem PositiveSolution.glue (hw : g.PositiveSolution w)
    (hpos : ∀ n < g.nodes.length, g.Connected m n → 0 < u n)
    (hsolves : ∀ (id : EdgeId) (e : Edge), g.edges[id]? = some e →
      e.production.toNat * u e.source.node = e.consumption.toNat * u e.target.node) :
    g.PositiveSolution fun n ↦ if g.Connected m n then u n else w n where
  positive {n} hn := by
    split
    · rename_i hconnected
      exact hpos n hn hconnected
    · exact hw.positive hn
  solves id e he := by
    have hends : g.Connected m e.source.node ↔ g.Connected m e.target.node :=
      ⟨fun h ↦ h.trans (connected_ends he .output .input),
        fun h ↦ h.trans (connected_ends he .input .output)⟩
    by_cases hsource : g.Connected m e.source.node
    · simp only [hsource, hends.mp hsource, if_true]
      exact hsolves id e he
    · simp only [hsource, mt hends.mpr hsource, if_false]
      exact hw.solves id e he

/-! ## Least counts -/

theorem leastCount_le (hw : g.PositiveSolution w) (n : NodeId) : g.leastCount n ≤ w n :=
  Nat.sInf_le ⟨w, hw, rfl⟩

theorem exists_leastCount (hw : g.PositiveSolution w) (n : NodeId) :
    ∃ v, g.PositiveSolution v ∧ v n = g.leastCount n :=
  Nat.sInf_mem (s := {c | ∃ w, g.PositiveSolution w ∧ w n = c}) ⟨w n, w, hw, rfl⟩

/-- A solution that is least at one node is least in the whole component. -/
theorem eq_leastCount_of_connected (hg : g.Coherent) (hf : g.Flows) (hv : g.PositiveSolution v)
    (hm : m < g.nodes.length) (hleast : v m = g.leastCount m) (h : g.Connected m n) :
    v n = g.leastCount n := by
  obtain ⟨w, hw, hwn⟩ := exists_leastCount hv n
  have hproportion : w n * v m = v n * w m :=
    (proportional_of_connected hg hf hv.solves hw.solves (fun _ ↦ hv.positive) h).2 hm
  have hle : v n * v m ≤ w n * v m :=
    calc v n * v m ≤ v n * w m := Nat.mul_le_mul_left _ (hleast ▸ leastCount_le hw m)
      _ = w n * v m := hproportion.symm
  apply Nat.le_antisymm
  · exact hwn ▸ Nat.le_of_mul_le_mul_right hle (hv.positive hm)
  · exact leastCount_le hv n

theorem positiveSolution_leastCount (hg : g.Coherent) (hf : g.Flows) (hw : g.PositiveSolution w) :
    g.PositiveSolution g.leastCount where
  positive {n} hn := by
    obtain ⟨v, hv, hleast⟩ := exists_leastCount hw n
    exact hleast ▸ hv.positive hn
  solves id e he := by
    obtain ⟨v, hv, hleast⟩ := exists_leastCount hw e.source.node
    have htarget : v e.target.node = g.leastCount e.target.node :=
      eq_leastCount_of_connected hg hf hv (hg.node_lt he .output) hleast
        (connected_ends he .output .input)
    calc e.production.toNat * g.leastCount e.source.node
        = e.production.toNat * v e.source.node := by rw [hleast]
      _ = e.consumption.toNat * v e.target.node := hv.solves id e he
      _ = e.consumption.toNat * g.leastCount e.target.node := by rw [htarget]

/-- What is left of a solution when another one has been taken away as often as it goes is in the
proportions of that other one. -/
theorem sub_mul_eq {a b c d : Nat} (h : a * d = b * c) :
    (a - c / d * b) * d = b * (c % d) := by
  calc (a - c / d * b) * d = a * d - c / d * b * d := Nat.sub_mul _ _ _
    _ = b * c - b * (d * (c / d)) := by rw [h]; congr 1; ring
    _ = b * (c % d) := by rw [← Nat.mul_sub, ← Nat.mod_eq_sub]

theorem least_leastCount (hg : g.Coherent) (hf : g.Flows) (hw : g.PositiveSolution w) :
    g.LeastSolution g.leastCount where
  toPositiveSolution := positiveSolution_leastCount hg hf hw
  multiple {w} hw {m} hm := by
    have hv := positiveSolution_leastCount hg hf hw
    have hproportion {n : NodeId} (hn : g.Connected m n) :
        w n * g.leastCount m = g.leastCount n * w m :=
      (proportional_of_connected hg hf hv.solves hw.solves (fun _ ↦ hv.positive) hn).2 hm
    have hzero : w m % g.leastCount m = 0 := by
      by_contra hrest
      -- The rest would be a solution with a count at `m` that is below the least.
      have hsmaller : g.PositiveSolution _ := hw.glue (m := m)
        (u := fun n ↦ w n - w m / g.leastCount m * g.leastCount n)
        (fun n hn hconnected ↦ by
          apply Nat.pos_of_mul_pos_right (b := g.leastCount m)
          rw [sub_mul_eq (hproportion hconnected)]
          exact Nat.mul_pos (hv.positive hn) (Nat.pos_of_ne_zero hrest))
        (fun id e he ↦ by
          rw [Nat.mul_sub, Nat.mul_sub, hw.solves id e he, Nat.mul_left_comm, hv.solves id e he,
            Nat.mul_left_comm])
      have hle := leastCount_le hsmaller m
      rw [if_pos (Connected.refl g m), Nat.mul_comm, ← Nat.mod_eq_sub] at hle
      exact absurd (Nat.mod_lt (w m) (hv.positive hm)) (Nat.not_lt.mpr hle)
    obtain ⟨k, hk⟩ := Nat.dvd_of_mod_eq_zero hzero
    refine ⟨k, Nat.pos_of_mul_pos_left (hk ▸ hw.positive hm), fun n hn ↦ ?_⟩
    apply Nat.eq_of_mul_eq_mul_right (hv.positive hm)
    rw [hproportion hn, hk]
    ring

/-- No solution has a count below that of a least one. -/
theorem LeastSolution.le (hv : g.LeastSolution v) (hw : g.PositiveSolution w)
    (hn : n < g.nodes.length) : v n ≤ w n := by
  obtain ⟨k, hk, hmultiple⟩ := hv.multiple hw hn
  calc v n = 1 * v n := (Nat.one_mul _).symm
    _ ≤ k * v n := Nat.mul_le_mul_right _ hk
    _ = w n := (hmultiple n (.refl g n)).symm

end Dataflow.Graph
