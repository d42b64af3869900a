import Dataflow.Proofs.Engine.Parking
import Dataflow.Proofs.Engine.Recorder
import Dataflow.Proofs.Engine.Refusal
import Dataflow.Proofs.Schedule.Data

/-!
# Nodes that are functions

Where every node computes a function of its state and of what it pops, a firing that succeeds does to the
elements and the states what the function tells, whatever state the node has been given back before. A
firing that finds too little fails.
-/

namespace Dataflow

variable {κ : Type} [ElementKind κ] {σ ω : Type}

open ElementKind (Carrier)

/-- In each run as this node the behaviour pops every input once, pushes every output once and ends with
success; what it remembers and pushes is told by `f`. It leaves a port alone where an operation has been
refused, and does not decline then. -/
def Behaviour.Computes (b : Behaviour κ σ ω) (kind : EdgeId → κ) (node : Node)
    (f : Transfer kind σ) : Prop :=
  ∀ (memory : σ) (world : World ω) (given : Tokens kind),
    (∀ slot id rate, node.inputAccess slot = .ok (id, rate) → (given id).length = rate) →
    (b.run (memory, world)).Follows node
      { given := given
        offers := fun id values ↦ values = (f memory given).2 id
        ends := fun r ↦ r.1 = .ok .success ∧ r.2.1 = (f memory given).1
        refused := fun d slot act ↦ act.Leaves d slot fun r ↦ r.1 ≠ .ok .skip }
      node.inputEdges node.outputEdges

/-- To save a state does not change it, and to restore what has been saved brings exactly it back. -/
structure Behaviour.Restores (b : Behaviour κ σ ω) : Prop where
  save (memory : σ) (world : World ω) : (b.save (memory, world)).2.1 = memory
  restore (memory memory' : σ) (world world' : World ω) (blob : Blob)
    (h : (b.save (memory, world)).1 = some blob) :
    (b.restore blob (memory', world')).1 = .ok () ∧ (b.restore blob (memory', world')).2.1 = memory

/-- The nodes of an engine compute these functions. -/
structure Frame.Computes (f : Frame κ σ ω) (kind : EdgeId → κ) (F : NodeId → Transfer kind σ) :
    Prop where
  proper : f.Proper kind
  computes {n : NodeId} {b : Behaviour κ σ ω} {node : Node} (hb : f.behaviours[n]? = some b)
    (hnode : f.plan.graph.nodes[n]? = some node) : b.Computes kind node (F n)
  restores {b : Behaviour κ σ ω} (hb : b ∈ f.behaviours) : b.Restores

namespace Session

variable {s t : Session κ σ ω} {kind : EdgeId → κ} {F : NodeId → Transfer kind σ} {n : NodeId}

/-- What is on the edges and in the nodes. -/
def data (kind : EdgeId → κ) (s : Session κ σ ω) : Data kind σ where
  tokens := fun id ↦ Channel.contents s.engine.channels id (kind id)
  memory := fun n ↦ s.engine.nodes[n]?.map (·.memory)

/-! ## Runs of nodes -/

/-- What a node takes from an edge; blanks stand for what is missing. -/
def padded (g : Graph) (tokens : Tokens kind) : Tokens kind := fun id ↦
  (tokens id ++ List.replicate (g.rateAt .input id) (ElementKind.blank (kind id))).take
    (g.rateAt .input id)

theorem length_padded (g : Graph) (tokens : Tokens kind) (id : EdgeId) :
    (padded g tokens id).length = g.rateAt .input id := by
  simp [padded]

theorem padded_of_le {g : Graph} {tokens : Tokens kind} {id : EdgeId}
    (h : g.rateAt .input id ≤ (tokens id).length) :
    padded g tokens id = (tokens id).take (g.rateAt .input id) := by
  rw [padded, List.take_append_of_le_length h]

theorem tokens_length (hf : s.frame.Proper kind) {id : EdgeId}
    (hid : id < s.engine.plan.graph.edges.length) :
    ((s.data kind).tokens id).length = s.level id :=
  Channel.Fit.length_contents hf.shape hid

theorem memory_eq_some {i : Instance κ σ ω} (hi : s.engine.nodes[n]? = some i) :
    (s.data kind).memory n = some i.memory := by
  simp only [data, hi, Option.map_some]

/-- What is traded at the ports of a node is what the graph tells. -/
theorem traded_takenBy {g : Graph} (hg : g.Coherent) {tokens pushed given : Tokens kind}
    (htaken : ∀ id ∈ g.edgesAt .input n, (g.takenBy n tokens id).length = g.rateAt .input id)
    (hpushed : ∀ id ∈ g.edgesAt .output n, pushed id = given id) (id : EdgeId) :
    traded (tokens id) (g.takenBy n tokens id) (pushed id) (id ∈ g.edgesAt .input n)
      (id ∈ g.edgesAt .output n) = g.exchange n given tokens id := by
  have hleft : (if id ∈ g.edgesAt .input n then (tokens id).drop (g.takenBy n tokens id).length
      else tokens id) = (tokens id).drop (g.moved .input n id) := by
    rw [hg.moved_eq]
    split
    · rename_i hid
      rw [htaken id hid]
    · rfl
  rw [traded, Graph.exchange, hleft]
  congr 1
  split
  · rename_i hid
    exact hpushed id hid
  · rfl

theorem data_settle {i : Instance κ σ ω} (hi : s.engine.nodes[n]? = some i) (memory : σ)
    (world : World ω) (channels : List (Channel κ)) :
    (s.settle n memory world channels).data kind =
      ⟨fun id ↦ Channel.contents channels id (kind id),
        Function.update (s.data kind).memory n (some memory)⟩ := by
  refine congrArg₂ Data.mk rfl ?_
  funext m
  simp only [settle, putMemory, putChannels, List.getElem?_modify, Function.update_apply, data]
  by_cases hm : m = n
  · subst hm
    simp [hi]
  · simp [hm, Ne.symm hm]

/-- A node that is ready computes its function. -/
theorem execute_of_computes (hf : s.frame.Computes kind F) (hready : s.Ready n) :
    (s.execute n).1 = .ok .success ∧
      (s.execute n).2.data kind = s.engine.plan.graph.transfer F n (s.data kind) ∧
      (s.execute n).2.level = s.engine.plan.graph.after n s.level := by
  have hg : s.engine.plan.graph.Coherent := hf.proper.sound.coherent
  obtain ⟨i, node, hi, hnode⟩ := exists_instance hf.proper.toPlanned hready.1
  have hfed := hready.2.fed hg
  have htaken (id : EdgeId) (hid : id ∈ s.engine.plan.graph.edgesAt .input n) :
      (s.engine.plan.graph.takenBy n (s.data kind).tokens id).length =
        s.engine.plan.graph.rateAt .input id := by
    rw [Graph.takenBy, hg.moved_of_mem hid]
    exact hg.length_take_contents hf.proper.shape hfed hid
  have hfollows := hf.computes (behaviours_of_getElem? hi) hnode i.memory s.world
    (s.engine.plan.graph.takenBy n (s.data kind).tokens) fun slot id rate hport ↦ by
      obtain ⟨hmem, rfl⟩ := hg.rate_of_inputAccess hnode hport
      exact htaken id hmem
  obtain ⟨⟨hresult, hmemory⟩, hlevel, pushed, hpushed, htraded⟩ :=
    hg.exec_of_follows hnode hfollows hf.proper.shape hready.2 fun id hid ↦
      ⟨List.take_prefix _ _, htaken id hid⟩
  have hhonored := (hg.ratesHonored_exec_iff hnode (i.behaviour.run (i.memory, s.world)) hfed).mpr hlevel
  rw [execute_eq hi hnode]
  refine ⟨?_, ?_, hlevel⟩
  · simp only [verdict, outcomeOf, hresult]
    exact if_pos hhonored
  · rw [Graph.transfer_of_memory (memory_eq_some hi), ← hmemory, data_settle hi]
    refine congrArg₂ Data.mk (funext fun id ↦ (htraded id).trans ?_) rfl
    exact traded_takenBy hg htaken hpushed id

/-- A node that finds too little fails. -/
theorem execute_of_not_ready (hf : s.frame.Computes kind F)
    (hloops : s.engine.plan.graph.LoopsKept s.level) (hready : ¬ s.Ready n) :
    ∃ e, (s.execute n).1 = .error e := by
  by_cases hn : n < s.engine.plan.graph.nodes.length
  · have hg : s.engine.plan.graph.Coherent := hf.proper.sound.coherent
    obtain ⟨i, node, hi, hnode⟩ := exists_instance hf.proper.toPlanned hn
    have hfollows := hf.computes (behaviours_of_getElem? hi) hnode i.memory s.world
      (padded s.engine.plan.graph (s.data kind).tokens) fun slot id rate hport ↦ by
        obtain ⟨-, rfl⟩ := hg.rate_of_inputAccess hnode hport
        exact length_padded _ _ id
    obtain ⟨hresult, d, id, hid, hone, hsame⟩ := hg.exec_refused hnode hfollows
      (fun _ _ _ hleaves ↦ hleaves) hf.proper.shape (fun hguarded ↦ hready ⟨hn, hguarded⟩)
      (fun id hid ↦ ⟨length_padded _ _ id, fun henough ↦ by
        have hlength := tokens_length hf.proper (hg.lt_of_mem_edgesAt hid)
        change s.engine.plan.graph.rateAt .input id ≤ s.level id at henough
        rw [← hlength] at henough
        change padded _ _ id <+: (s.data kind).tokens id
        rw [padded_of_le henough]
        exact List.take_prefix _ _⟩) (hf.proper.sound.loops hloops)
    have hbroken := hg.not_ratesHonored hf.proper.sound.valid hid hone hsame
    rw [execute_eq hi hnode]
    change (s.outcomeOf n i node).1.1 ≠ _ at hresult
    change ¬ s.engine.plan.graph.ratesHonored n .success s.levels
      ((s.outcomeOf n i node).2.map Channel.available) = true at hbroken
    rcases hanswer : (s.outcomeOf n i node).1.1 with e | status
    · exact ⟨e, rfl⟩
    · cases status with
      | skip => exact absurd hanswer hresult
      | success => exact ⟨.rateMismatch, if_neg hbroken⟩
  · have hnone : s.engine.plan.graph.nodes[n]? = none := List.getElem?_eq_none (Nat.le_of_not_lt hn)
    refine ⟨.invalidPort, ?_⟩
    unfold execute
    rw [hnone]
    cases s.engine.nodes[n]? <;> rfl

end Session

end Dataflow
