import Dataflow.Proofs.Graph.Incidence
import Dataflow.Proofs.Steps
import Dataflow.Schedule.Guard

/-!
# Token counts

Seen from outside, a firing adds its production to the edges behind a node and takes its consumption
from the edges before it. After firings that found their tokens, the tokens on an edge are told by how
often its two ends have fired. A node is ready when it finds its tokens and its room, which is what its
guard asks.
-/

namespace Dataflow

/-- The tokens that a firing of node `n` moves over its side `d` of the edge. -/
def Edge.moved (e : Edge) (d : Direction) (n : NodeId) : Nat :=
  if (e.portAt d).node = n then e.rateAt d else 0

/-- The tokens on each edge. -/
abbrev Levels := EdgeId → Nat

namespace Graph

def moved (g : Graph) (d : Direction) (n : NodeId) (id : EdgeId) : Nat :=
  (g.edges[id]?.map (·.moved d n)).getD 0

theorem moved_of_getElem? {g : Graph} {id : EdgeId} {e : Edge} (he : g.edges[id]? = some e)
    (d : Direction) (n : NodeId) : g.moved d n id = e.moved d n := by
  simp [moved, he]

/-- Only one node moves tokens over a side of an edge. -/
theorem moved_eq_zero_or (g : Graph) {m n : NodeId} (hne : m ≠ n) (d : Direction) (id : EdgeId) :
    g.moved d m id = 0 ∨ g.moved d n id = 0 := by
  cases he : g.edges[id]? with
  | none => exact .inl (by simp [moved, he])
  | some e =>
    simp only [moved_of_getElem? he, Edge.moved]
    by_cases hm : (e.portAt d).node = m
    · exact .inr (if_neg fun hn ↦ hne (hm.symm.trans hn))
    · exact .inl (if_neg hm)

theorem delay_of_getElem? {g : Graph} {id : EdgeId} {e : Edge} (he : g.edges[id]? = some e) :
    g.delay id = e.delay.toNat := by
  simp [delay, he]

/-- The tokens after a firing of node `n`. -/
def after (g : Graph) (n : NodeId) (level : Levels) : Levels :=
  fun id ↦ level id + g.moved .output n id - g.moved .input n id

/-- Node `n` finds its tokens. -/
def Fed (g : Graph) (n : NodeId) (level : Levels) : Prop := ∀ id, g.moved .input n id ≤ level id

/-- A node finds its tokens when each of its input edges has enough for one firing. -/
theorem fed_iff {g : Graph} {n : NodeId} {level : Levels} : g.Fed n level ↔
    ∀ (id : EdgeId) (e : Edge), g.edges[id]? = some e → e.target.node = n →
      e.rateAt .input ≤ level id := by
  refine forall_congr' fun id ↦ ?_
  cases he : g.edges[id]? with
  | none => simp [moved, he]
  | some e =>
    rw [moved_of_getElem? he, Edge.moved]
    by_cases hn : e.target.node = n <;> simp [Edge.portAt, hn]

/-- The guard of node `n` is satisfied under these capacities. -/
def Guarded (g : Graph) (capacity : Levels) (n : NodeId) (level : Levels) : Prop :=
  (g.guard n).isSatisfied level (fun id ↦ capacity id - level id)

/-- Node `n` exists, and finds its tokens and its room. -/
def Ready (g : Graph) (capacity : Levels) (n : NodeId) (level : Levels) : Prop :=
  n < g.nodes.length ∧ g.Guarded capacity n level

/-! ## Sequences of firings -/

section Sequences

variable {g : Graph} {w : List NodeId} {level : Levels}

/-- Tokens gained and lost on an edge balance with the firings of its two ends. -/
theorem run_after_add (h : Steps.Along g.Fed g.after w level) {id : EdgeId} {e : Edge}
    (he : g.edges[id]? = some e) :
    Steps.run g.after w level id + e.rateAt .input * w.count e.target.node =
      level id + e.rateAt .output * w.count e.source.node := by
  induction w generalizing level with
  | nil => simp
  | cons n w ih =>
    have hfed : e.moved .input n ≤ level id := moved_of_getElem? he .input n ▸ h.1 id
    have hafter : g.after n level id = level id + e.moved .output n - e.moved .input n := by
      rw [after, moved_of_getElem? he, moved_of_getElem? he]
    have hrest := ih h.2
    rw [hafter] at hrest
    simp only [Edge.moved, Edge.portAt] at hfed hrest
    simp only [Steps.run_cons, List.count_cons, beq_iff_eq, eq_comm (a := n), Nat.mul_add]
    by_cases ht : e.target.node = n <;> by_cases hs : e.source.node = n <;>
      simp only [ht, hs, if_true, if_false] at hfed hrest ⊢ <;> omega

theorem moved_eq_zero_of_length_le {id : EdgeId} (h : g.edges.length ≤ id) (d : Direction)
    (n : NodeId) : g.moved d n id = 0 := by
  simp [moved, List.getElem?_eq_none h]

/-- What is no edge keeps its level. -/
theorem run_after_of_length_le {id : EdgeId} (h : g.edges.length ≤ id) :
    Steps.run g.after w level id = level id := by
  induction w generalizing level with
  | nil => rfl
  | cons n w ih => simp [ih, after, moved_eq_zero_of_length_le h]

end Sequences

/-! ## Guards -/

/-- The rate of an edge on one side; 0 for an unknown edge. -/
def rateAt (g : Graph) (d : Direction) (id : EdgeId) : Nat :=
  (g.edges[id]?.map (·.rateAt d)).getD 0

/-- What a guard asks on one side of a node is what a firing moves there. -/
theorem Coherent.all_rates_iff {g : Graph} (hg : Coherent g) (d : Direction) (n : NodeId)
    (given : EdgeId → Nat) :
    (∀ id ∈ g.edgesAt d n, g.rateAt d id ≤ given id) ↔ ∀ id, g.moved d n id ≤ given id := by
  constructor
  · intro h id
    cases he : g.edges[id]? with
    | none => simp [moved, he]
    | some e =>
      rw [moved_of_getElem? he, Edge.moved]
      split
      · rename_i hn
        simpa [rateAt, he] using h id (hg.mem_edgesAt.mpr ⟨e, he, hn⟩)
      · exact Nat.zero_le _
  · intro h id hid
    obtain ⟨e, he, hn⟩ := hg.mem_edgesAt.mp hid
    simpa [rateAt, he, moved, Edge.moved, hn] using h id

theorem Coherent.isSatisfied_guard_iff {g : Graph} (hg : Coherent g) (n : NodeId)
    (available free : EdgeId → Nat) :
    (g.guard n).isSatisfied available free ↔
      (∀ id, g.moved .input n id ≤ available id) ∧ ∀ id, g.moved .output n id ≤ free id := by
  rw [← hg.all_rates_iff, ← hg.all_rates_iff]
  simp only [Guard.isSatisfied, guard, Bool.and_eq_true, List.all_eq_true, List.mem_map,
    forall_exists_index, and_imp, forall_apply_eq_imp_iff₂, decide_eq_true_eq]
  rfl

theorem Coherent.guarded_iff {g : Graph} (hg : Coherent g) {capacity : Levels} {n : NodeId}
    {level : Levels} : g.Guarded capacity n level ↔
      g.Fed n level ∧ ∀ id, g.moved .output n id ≤ capacity id - level id := by
  rw [Guarded, hg.isSatisfied_guard_iff]
  rfl

theorem Guarded.fed {g : Graph} (hg : Coherent g) {capacity : Levels} {n : NodeId} {level : Levels}
    (h : g.Guarded capacity n level) : g.Fed n level := (hg.guarded_iff.mp h).1

theorem Ready.fed {g : Graph} (hg : Coherent g) {capacity : Levels} {n : NodeId} {level : Levels}
    (h : g.Ready capacity n level) : g.Fed n level := h.2.fed hg

end Graph

end Dataflow
