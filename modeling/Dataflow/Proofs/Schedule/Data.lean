import Dataflow.Fifo.Channel
import Dataflow.Proofs.Schedule.Capacity

/-!
# The elements on the edges

A node that is a function takes from each edge before it, changes its state, and gives to each edge
behind it. Two nodes meet on an edge at its two ends only, and there one of them takes what has been on
the edge before the other gives. So their firings commute, and what all firings have led to is told by
how often each node has fired.
-/

namespace Dataflow

variable {κ : Type} [ElementKind κ] {σ : Type}

open ElementKind (Carrier)

/-- The elements on each edge, the oldest first. -/
abbrev Tokens (kind : EdgeId → κ) := (id : EdgeId) → List (Carrier (kind id))

/-- A node as a function of its state and the elements that it takes: its next state and the elements
that it gives. -/
abbrev Transfer (kind : EdgeId → κ) (σ : Type) := σ → Tokens kind → σ × Tokens kind

/-- What is on the edges and in the nodes. -/
structure Data (kind : EdgeId → κ) (σ : Type) where
  tokens : Tokens kind
  memory : NodeId → Option σ

namespace Graph

variable {g : Graph} {kind : EdgeId → κ} {F : NodeId → Transfer kind σ} {a b n : NodeId}
  {d d' : Data kind σ}

/-- The elements that node `n` takes. -/
def takenBy (g : Graph) (n : NodeId) (tokens : Tokens kind) : Tokens kind :=
  fun id ↦ (tokens id).take (g.moved .input n id)

/-- The elements after a firing of node `n` that gives these. -/
def exchange (g : Graph) (n : NodeId) (given tokens : Tokens kind) : Tokens kind :=
  fun id ↦ (tokens id).drop (g.moved .input n id) ++ if id ∈ g.edgesAt .output n then given id else []

/-- The data after a firing of node `n`. -/
def transfer (g : Graph) (F : NodeId → Transfer kind σ) (n : NodeId) (d : Data kind σ) : Data kind σ :=
  match d.memory n with
  | none => d
  | some memory =>
    let (next, given) := F n memory (g.takenBy n d.tokens)
    ⟨g.exchange n given d.tokens, Function.update d.memory n next⟩

/-- Node `n` exists and finds its elements. -/
def Provided (g : Graph) (n : NodeId) (d : Data kind σ) : Prop :=
  (d.memory n).isSome ∧ ∀ id, g.moved .input n id ≤ (d.tokens id).length

theorem transfer_of_memory {memory : σ} (h : d.memory n = some memory) :
    g.transfer F n d = ⟨g.exchange n (F n memory (g.takenBy n d.tokens)).2 d.tokens,
      Function.update d.memory n (F n memory (g.takenBy n d.tokens)).1⟩ := by
  rw [transfer, h]

/-! ## Firings that do not meet -/

theorem Coherent.not_mem_or (hg : g.Coherent) (hne : a ≠ b) (d : Direction) (id : EdgeId) :
    id ∉ g.edgesAt d a ∨ id ∉ g.edgesAt d b := by
  by_contra h
  rw [not_or, not_not, not_not] at h
  obtain ⟨e, he, ha⟩ := hg.mem_edgesAt.mp h.1
  obtain ⟨e', he', hb⟩ := hg.mem_edgesAt.mp h.2
  cases Option.some.inj (he.symm.trans he')
  exact hne (ha.symm.trans hb)

variable {given given' tokens : Tokens kind}

/-- What node `b` takes has been there before node `a` gives. -/
theorem takenBy_exchange (hne : a ≠ b)
    (hb : ∀ id, g.moved .input b id ≤ (tokens id).length) :
    g.takenBy b (g.exchange a given tokens) = g.takenBy b tokens := by
  ext1 id
  simp only [takenBy, exchange]
  rcases g.moved_eq_zero_or hne .input id with hzero | hzero
  · rw [hzero, List.drop_zero, List.take_append_of_le_length (hb id)]
  · rw [hzero, List.take_zero, List.take_zero]

theorem Coherent.exchange_comm (hg : g.Coherent) (hne : a ≠ b)
    (ha : ∀ id, g.moved .input a id ≤ (tokens id).length)
    (hb : ∀ id, g.moved .input b id ≤ (tokens id).length) :
    g.exchange b given' (g.exchange a given tokens) =
      g.exchange a given (g.exchange b given' tokens) := by
  funext id
  have hgiven : (if id ∈ g.edgesAt .output a then given id else []) ++
        (if id ∈ g.edgesAt .output b then given' id else []) =
      (if id ∈ g.edgesAt .output b then given' id else []) ++
        if id ∈ g.edgesAt .output a then given id else [] := by
    rcases hg.not_mem_or hne .output id with hnot | hnot <;>
      simp only [hnot, if_false, List.nil_append, List.append_nil]
  simp only [exchange]
  rcases g.moved_eq_zero_or hne .input id with hzero | hzero
  · rw [hzero, List.drop_zero, List.drop_zero, List.drop_append_of_le_length (hb id),
      List.append_assoc, List.append_assoc, hgiven]
  · rw [hzero, List.drop_zero, List.drop_zero, List.drop_append_of_le_length (ha id),
      List.append_assoc, List.append_assoc, hgiven]

theorem memory_transfer_of_ne (h : b ≠ a) : (g.transfer F a d).memory b = d.memory b := by
  cases hmemory : d.memory a with
  | none => rw [transfer, hmemory]
  | some memory =>
    rw [transfer_of_memory hmemory]
    exact Function.update_of_ne h _ _

/-- A firing leaves other nodes what they need. -/
theorem Provided.transfer (hb : g.Provided b d) (hne : a ≠ b) : g.Provided b (g.transfer F a d) := by
  refine ⟨by rw [memory_transfer_of_ne hne.symm]; exact hb.1, fun id ↦ ?_⟩
  cases hmemory : d.memory a with
  | none =>
    rw [Graph.transfer, hmemory]
    exact hb.2 id
  | some memory =>
    rw [transfer_of_memory hmemory]
    simp only [exchange, List.length_append, List.length_drop]
    have hid := hb.2 id
    rcases g.moved_eq_zero_or hne .input id with hzero | hzero <;> omega

theorem Coherent.diamond_transfer (hg : g.Coherent) (F : NodeId → Transfer kind σ) :
    Steps.Diamond (fun n d ↦ g.Provided n d) (g.transfer F) where
  keeps hne _ hb := hb.transfer hne
  comm {a b d} hne ha hb := by
    obtain ⟨m, hm⟩ := Option.isSome_iff_exists.mp ha.1
    obtain ⟨m', hm'⟩ := Option.isSome_iff_exists.mp hb.1
    have hfirst : (g.transfer F a d).memory b = some m' := (memory_transfer_of_ne hne.symm).trans hm'
    have hfirst' : (g.transfer F b d).memory a = some m := (memory_transfer_of_ne hne).trans hm
    let forward := F a m (g.takenBy a d.tokens)
    let backward := F b m' (g.takenBy b d.tokens)
    calc
      g.transfer F b (g.transfer F a d) =
          ⟨g.exchange b backward.2 (g.exchange a forward.2 d.tokens),
            Function.update (Function.update d.memory a forward.1) b backward.1⟩ := by
        rw [transfer_of_memory hfirst, transfer_of_memory hm, takenBy_exchange hne hb.2]
      _ = ⟨g.exchange a forward.2 (g.exchange b backward.2 d.tokens),
            Function.update (Function.update d.memory b backward.1) a forward.1⟩ := by
        rw [hg.exchange_comm hne ha.2 hb.2, Function.update_comm hne]
      _ = g.transfer F a (g.transfer F b d) := by
        rw [transfer_of_memory hfirst', transfer_of_memory hm', takenBy_exchange hne.symm ha.2]

/-- The data after firings is told by how often each node has fired. -/
theorem Coherent.run_transfer_eq_of_count (hg : g.Coherent) {v w : List NodeId}
    (hv : Steps.Along g.Provided (g.transfer F) v d) (hw : Steps.Along g.Provided (g.transfer F) w d)
    (hcount : ∀ n, v.count n = w.count n) :
    Steps.run (g.transfer F) v d = Steps.run (g.transfer F) w d :=
  (hg.diamond_transfer F).run_eq_of_perm hv hw (List.perm_iff_count.mpr hcount)

end Graph

end Dataflow
